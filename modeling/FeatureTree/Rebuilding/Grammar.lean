import FeatureTree.Feature.Scene
import FeatureTree.Feature.Step
import FeatureTree.Feature.Violation

/-!
# Grammar — features that rebuild a tree

A rebuilding grammar says which features may claim a node of the input tree, and how a feature acts.
Nodes come one at a time: the children of one input node in order.  A feature builds under an output
node, and it may redirect: to other features for the same node, which build under another output node,
or into the children of another input node.
-/

namespace FeatureTree
namespace Rebuilding

/-! ## Errors -/

/-- Why a tree could not be rebuilt. -/
inductive Error where
  /-- The rules of nesting were broken. -/
  | violation (v : Violation)
  /-- A feature rejected an input node. -/
  | rejected (message : String) (node : NodeId)
  /-- No candidate claimed an input node, the child of this index. -/
  | unclaimed (node : NodeId) (index : Nat)
  deriving DecidableEq, Repr

namespace Error

def message : Error → String
  | violation v => v.message
  | rejected text node => text ++ " (input node " ++ toString node ++ ")"
  | unclaimed node index =>
      "no feature claimed input node " ++ toString node ++ " at child index " ++ toString index

def isRejection : Error → Bool
  | rejected _ _ => true
  | _ => false

end Error

/-! ## What a feature sees -/

/-- Where a feature is called: the input tree, the input node whose children are traversed, the output
node to build under, and the index of the current child. -/
structure Context (I J : Type) where
  inputTree : Tree I J
  input : NodeId
  output : NodeId
  index : Nat

namespace Context

variable {I J : Type}

/-- Number of children of the traversed node. -/
def length (cx : Context I J) : Nat := cx.inputTree.childCount cx.input

def nodeAt? (cx : Context I J) (index : Nat) : Option NodeId :=
  cx.inputTree.childAt? cx.input index

/-- The current child, if the traversal is not past the last one. -/
def node? (cx : Context I J) : Option NodeId := cx.nodeAt? cx.index

end Context

/-! ## Grammars -/

/-- Where a redirection leads: to a dispatch rule that builds under an output node, for the same input
node or for the children of another one, from a start index on. -/
structure Redirect (D : Type) where
  dispatch : D
  input : Option NodeId
  output : NodeId
  start : Option Nat
  deriving DecidableEq, Repr

namespace Redirect

variable {D : Type}

/-- The same input node again, with output under another node. -/
def toOutput (output : NodeId) (dispatch : D) : Redirect D := ⟨dispatch, none, output, none⟩

/-- The children of an input node, with output under another node. -/
def into (input output : NodeId) (dispatch : D) : Redirect D := ⟨dispatch, some input, output, none⟩

end Redirect

/-- A rebuilding grammar from trees over `I` and `J` to trees over `K` and `V`. -/
structure Grammar (D F I J K V : Type) {Key : Type} (Entry : Key → Type) (W : Type) where
  /-- Candidates for an input node, in the order in which they are asked.  A dispatch rule sees the
  output tree; it may write to the new bag and to the world. -/
  dispatch : D → Context I J → NodeId → Scene K V Entry W → List F × Bag Key Entry × W
  /-- The feature after one input node, and its answer. -/
  handle : F → Context I J → NodeId →
    EStateM Error (Scene K V Entry W) (F × Step (Redirect D))
  /-- What a feature does after it has left the stack. -/
  exit : F → Context I J → EStateM Error (Scene K V Entry W) Unit

end Rebuilding
end FeatureTree
