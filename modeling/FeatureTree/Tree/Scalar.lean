import FeatureTree.Tree.Printer

/-!
# Scalar — whole numbers and strings as node values
-/

namespace FeatureTree

/-- A whole number or a string. -/
inductive Scalar where
  | int (n : Int)
  | text (s : String)
  deriving DecidableEq, Repr

namespace Scalar

/-- The value on one line; a string stands for itself. -/
def display : Scalar → String
  | int n => toString n
  | text s => s

def toJson : Scalar → Json.Value
  | int n => .ofInt n
  | text s => .string s

instance : Written Scalar := ⟨display, toJson⟩

end Scalar

/-- A tree with words for kinds. -/
abbrev WordTree : Type := Tree String Scalar

end FeatureTree
