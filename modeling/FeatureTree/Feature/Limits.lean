import FeatureTree.Json.Reader
import FeatureTree.Json.Value

/-!
# Limits — how deep features may nest

Both engines stop with an error when more features would be active than `maxDepth` allows.  As JSON,
limits are a record with the one field `max_depth`, which may be left out.
-/

namespace FeatureTree

/-- Largest number of active features; `4096` unless another one is given. -/
structure Limits where
  maxDepth : Nat := 4096
  deriving DecidableEq, Repr

namespace Limits

instance : Inhabited Limits := ⟨{}⟩

def toJson (limits : Limits) : Json.Value := .object [("max_depth", .ofNat limits.maxDepth)]

/-- Limits from a record; the field keeps its default when it is absent. -/
def ofRaw? (raw : Json.Raw) : Option Limits := do
  match ← raw.record? with
  | .listed [] => return {}
  | .listed [depth] => return ⟨← depth.nat?⟩
  | .listed _ => none
  | .named members =>
      match ← Json.Raw.optional? members "max_depth" with
      | none => return {}
      | some depth => return ⟨← depth.nat?⟩

def parse? (text : String) : Option Limits := (Json.Raw.parse? text).bind ofRaw?

end Limits

end FeatureTree
