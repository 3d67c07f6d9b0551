import FeatureTree.Tree.Spans
import FeatureTree.Tree.Term

/-!
# Checked — requests that may name unknown nodes

The operations of `Tree` take every id.  The ones here fail, with `UnknownNode`, on an id that the tree
never created, and on a traversal that reaches such an id.  A request leaves the tree as it was when
it fails, with one exception: appending to an unknown parent has already created the child.
-/

namespace FeatureTree

/-- The tree never created this node. -/
structure UnknownNode where
  id : NodeId
  deriving DecidableEq, Repr

namespace Tree

variable {K V : Type}

/-- Passes for the ids of a tree only. -/
def known (t : Tree K V) (id : NodeId) : Except UnknownNode Unit :=
  if t.contains id then .ok () else .error ⟨id⟩

def childrenOf (t : Tree K V) (id : NodeId) : Except UnknownNode (List NodeId) :=
  (t.known id).map fun _ => t.children id

/-- Children of a known node with their kinds, if all of them are known. -/
def childKindsOf (t : Tree K V) (id : NodeId) : Except UnknownNode (List (NodeId × K)) := do
  (← t.childrenOf id).mapM fun child =>
    match t.get? child with
    | some n => .ok (child, n.kind)
    | none => .error ⟨child⟩

def firstUnknown? (t : Tree K V) (ids : List NodeId) : Option NodeId :=
  ids.find? fun id => !t.contains id

/-- Everything below a node, if the traversal meets known nodes only. -/
def descendantsOf (t : Tree K V) (id : NodeId) : Except UnknownNode (List NodeId) :=
  match t.firstUnknown? (id :: t.descendants id) with
  | some unknown => .error ⟨unknown⟩
  | none => .ok (t.descendants id)

/-- Checks the nodes in order, and stops at the first one whose children are unknown or whose spans
are not nested. -/
def spansNestedAt (t : Tree K V) : List NodeId → Except UnknownNode Bool
  | [] => .ok true
  | id :: rest =>
      match t.firstUnknown? (id :: t.children id) with
      | some unknown => .error ⟨unknown⟩
      | none => if t.spansNested id then t.spansNestedAt rest else .ok false

/-- Whether positions are consistent from a node on; an unknown node matters only if it is met before
a node whose spans are not nested. -/
def positionsConsistentFrom (t : Tree K V) (id : NodeId) : Except UnknownNode Bool :=
  t.spansNestedAt (id :: t.descendants id)

/-- The term of a node, if the traversal meets known nodes only. -/
def termOf (t : Tree K V) (id : NodeId) : Except UnknownNode (Term (Label K V)) :=
  match t.term? id with
  | some term => .ok term
  | none => .error ⟨(t.firstUnknown? (id :: t.descendants id)).getD id⟩

/-- Makes `child` the last child of a known parent; the child may be unknown. -/
def attachTo (t : Tree K V) (parent child : NodeId) : Except UnknownNode (Tree K V) :=
  (t.known parent).map fun _ => t.attach parent child

/-- Creates a node and attaches it to `parent`.  The node stays created when the parent is unknown;
the node itself counts as known by then. -/
def appendTo (t : Tree K V) (parent : NodeId) (node : Node K V) :
    Except UnknownNode NodeId × Tree K V :=
  let created := t.create node
  match created.attachTo parent t.size with
  | .ok attached => (.ok t.size, attached)
  | .error fault => (.error fault, created)

/-- Takes the last child from a known parent. -/
def popChildOf (t : Tree K V) (parent : NodeId) :
    Except UnknownNode (Option NodeId × Tree K V) :=
  (t.known parent).map fun _ => (t.lastChild? parent, t.popChild parent)

/-- Empties the child list of a known parent. -/
def clearChildrenOf (t : Tree K V) (parent : NodeId) : Except UnknownNode (Tree K V) :=
  (t.known parent).map fun _ => t.clearChildren parent

end Tree

end FeatureTree
