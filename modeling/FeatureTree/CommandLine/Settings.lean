import FeatureTree.Feature.Limits

/-!
# Settings — what the configuration file says

The configuration file is a JSON record with two optional fields: the limits of the engines and the
form in which trees are written.
-/

namespace FeatureTree
namespace CommandLine

/-- How a tree is written. -/
inductive Format where
  /-- On one line. -/
  | tree
  /-- As indented JSON. -/
  | json
  deriving DecidableEq, Repr

namespace Format

def ofName? (name : String) : Option Format :=
  if name = "tree" then some tree else if name = "json" then some json else none

/-- A format from its name, or from an object whose one member has this name and the value `null`. -/
def ofRaw? : Json.Raw → Option Format
  | .string (some name) => ofName? name
  | .object [(some name, .null)] => ofName? name
  | _ => none

end Format

/-- Limits and format that hold unless the arguments say otherwise. -/
structure Settings where
  limits : Limits := {}
  format : Format := .tree
  deriving DecidableEq, Repr

namespace Settings

/-- The value of an optional field; it must be readable if it is there. -/
def field? {α : Type} (read : Json.Raw → Option α) (default : α) : Option Json.Raw → Option α
  | none => some default
  | some raw => read raw

def ofRaw? (raw : Json.Raw) : Option Settings := do
  match ← raw.record? with
  | .listed [] => return {}
  | .listed [limits] => return { limits := ← Limits.ofRaw? limits }
  | .listed [limits, format] => return ⟨← Limits.ofRaw? limits, ← Format.ofRaw? format⟩
  | .listed _ => none
  | .named members =>
      let limits ← field? Limits.ofRaw? {} (← Json.Raw.optional? members "engine")
      let format ← field? Format.ofRaw? .tree (← Json.Raw.optional? members "format")
      return ⟨limits, format⟩

def parse? (text : String) : Option Settings := (Json.Raw.parse? text).bind ofRaw?

end Settings

end CommandLine
end FeatureTree
