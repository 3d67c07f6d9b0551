import FeatureTree.Tree.Walk

/-!
# Spans — positions that follow the tree

Positions are consistent below a node when, at every node, the positioned children come one after the
other without overlap and lie in the span of their parent.  A node without a span is not compared
with its neighbours.
-/

namespace FeatureTree

/-- Each span ends where the next one starts, or before. -/
def inOrder : List Position → Bool
  | p :: q :: rest => p.stop.offset ≤ q.start.offset && inOrder (q :: rest)
  | _ => true

namespace Tree

variable {K V : Type}

/-- Spans of the positioned children of a node, in order. -/
def childPositions (t : Tree K V) (id : NodeId) : List Position :=
  (t.children id).filterMap t.position?

/-- The children of a node are in order, and inside the node's own span. -/
def spansNested (t : Tree K V) (id : NodeId) : Bool :=
  inOrder (t.childPositions id) &&
    match t.position? id with
    | some own => (t.childPositions id).all own.encloses
    | none => true

/-- Positions are consistent at a node and everywhere below it. -/
def positionsConsistent (t : Tree K V) (id : NodeId) : Bool :=
  (id :: t.descendants id).all t.spansNested

end Tree

end FeatureTree
