import FeatureTree.Feature.Scene
import FeatureTree.Feature.Step
import FeatureTree.Feature.Violation
import FeatureTree.Text.Source

/-!
# Grammar — features that read a text

A reading grammar says which features may claim a character, and how a feature acts.  A feature is a
value of the type `F`; `D` names the dispatch rules that propose candidates.

Features see where they are called (`Context`), and they may change what they share (`Scene`).
-/

namespace FeatureTree
namespace Reading

/-! ## Errors -/

/-- Why a text could not be read. -/
inductive Error where
  /-- The rules of nesting were broken. -/
  | violation (v : Violation)
  /-- A feature rejected the text at a point. -/
  | rejected (message : String) (point : Point)
  deriving DecidableEq, Repr

namespace Error

def message : Error → String
  | violation v => v.message
  | rejected text point =>
      text ++ " at line " ++ toString point.line ++ ", column " ++ toString point.column

def isRejection : Error → Bool
  | rejected _ _ => true
  | violation _ => false

end Error

/-! ## What a feature sees -/

/-- Where a feature is called: in which text, under which node, at which offset. -/
structure Context where
  text : SourceText
  ancestor : NodeId
  offset : Nat

namespace Context

def char? (cx : Context) : Option Char := cx.text.char? cx.offset

def point (cx : Context) : Point := cx.text.point cx.offset

/-- The span from an offset up to the current one. -/
def positionFrom (cx : Context) (start : Nat) : Position := cx.text.position start cx.offset

end Context

/-! ## Grammars -/

/-- Where a redirection leads: to a dispatch rule, under a node or under the current one. -/
structure Redirect (D : Type) where
  dispatch : D
  ancestor : Option NodeId
  deriving DecidableEq, Repr

/-- A reading grammar. -/
structure Grammar (D F K V : Type) {Key : Type} (Entry : Key → Type) (W : Type) where
  /-- Candidates for the current character, in the order in which they are asked.  A dispatch rule
  sees the tree; it may write to the new bag and to the world. -/
  dispatch : D → Context → Scene K V Entry W → List F × Bag Key Entry × W
  /-- The feature after one character, and its answer. -/
  handle : F → Context → Char → EStateM Error (Scene K V Entry W) (F × Step (Redirect D))
  /-- What a feature does after it has left the stack; the offset is the first one it did not use. -/
  exit : F → Context → EStateM Error (Scene K V Entry W) Unit

end Reading
end FeatureTree
