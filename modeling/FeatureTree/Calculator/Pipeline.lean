import FeatureTree.Calculator.Grouping

/-!
# Pipeline — from text to expression tree

Reading and grouping in sequence.  An error tells which of the two failed.
-/

namespace FeatureTree
namespace Calculator

/-- Why a text has no expression tree. -/
inductive Error where
  | reading (e : Reading.Error)
  | grouping (e : Rebuilding.Error)
  deriving DecidableEq, Repr

namespace Error

def message : Error → String
  | reading e => "read failed: " ++ e.message
  | grouping e => "transform failed: " ++ e.message

/-- A feature rejected the text or the tree. -/
def isRejection : Error → Bool
  | reading e => e.isRejection
  | grouping e => e.isRejection

end Error

/-- The flat tree of a text and its expression tree. -/
def readBoth (text : SourceText) (limits : Limits) : Outcome Error (SyntaxTree × ExprTree) :=
  match read text limits with
  | .error e => .failure (.reading e)
  | .ok flat =>
      match group flat limits with
      | .success expression => .success (flat, expression)
      | .failure e => .failure (.grouping e)
      | .unfinished => .unfinished

def readAndGroup (text : SourceText) (limits : Limits) : Outcome Error ExprTree :=
  match readBoth text limits with
  | .success (_, expression) => .success expression
  | .failure e => .failure e
  | .unfinished => .unfinished

end Calculator
end FeatureTree
