import FeatureTree.Tree.Basic

/-!
# Walk — the nodes below a node, in pre-order

A `Walk` is a traversal under way: the ids still to come, innermost siblings first.  One step takes the
first of them and puts its children in front of the others.

A walk over a tree ends after as many steps as there are paths down from its start.  `Tree.spread`
counts these paths, so `Tree.descendants` drains the walk with exactly the steps that it needs.
-/

namespace FeatureTree

variable {K V : Type}

/-- A traversal under way: the tree and the ids still to come. -/
structure Walk (K V : Type) where
  tree : Tree K V
  pending : List NodeId

namespace Walk

/-- The next id, and the walk after it; none when the walk is over. -/
def next? (w : Walk K V) : Option (NodeId × Walk K V) :=
  match w.pending with
  | [] => none
  | id :: rest => some (id, { w with pending := w.tree.children id ++ rest })

/-- The ids of the first `steps` steps. -/
def take (w : Walk K V) : Nat → List NodeId
  | 0 => []
  | steps + 1 =>
      match w.next? with
      | none => []
      | some (id, w') => id :: w'.take steps

end Walk

namespace Tree

/-- Number of paths that lead from a node downwards, each through at most `depth` child lists. -/
def spread (t : Tree K V) : Nat → NodeId → Nat
  | 0, _ => 0
  | depth + 1, id => (t.children id).foldr (fun child n => 1 + t.spread depth child + n) 0

/-- The walk over everything below a node. -/
def walkBelow (t : Tree K V) (id : NodeId) : Walk K V := ⟨t, t.children id⟩

/-- Everything below a node in pre-order, without the node itself. -/
def descendants (t : Tree K V) (id : NodeId) : List NodeId :=
  (t.walkBelow id).take (t.spread t.size id)

end Tree

end FeatureTree
