import FeatureTree.Tree.Basic

/-!
# Term — a finite tree as a value

A `Term` is what a tree shows from one node downwards, with the arena left out: a leaf or a branch with
its children.  `Tree.term?` unfolds a node; it fails where a child list names an unknown node, and
where children lead back to a node above them.

`Tree.ofTerm` goes the other way and numbers the nodes of a term in pre-order.  Printing works on terms,
by recursion on them.
-/

namespace FeatureTree

/-! ## Terms -/

/-- A finite tree with a label at each node; a branch may have no children. -/
inductive Term (α : Type) where
  | leaf (label : α)
  | branch (label : α) (children : List (Term α))
  deriving Repr

namespace Term

variable {α β : Type}

def label : Term α → α
  | leaf a => a
  | branch a _ => a

def children : Term α → List (Term α)
  | leaf _ => []
  | branch _ ts => ts

mutual

def map (f : α → β) : Term α → Term β
  | leaf a => leaf (f a)
  | branch a ts => branch (f a) (mapList f ts)

def mapList (f : α → β) : List (Term α) → List (Term β)
  | [] => []
  | t :: ts => map f t :: mapList f ts

end

mutual

/-- Labels in pre-order. -/
def labels : Term α → List α
  | leaf a => [a]
  | branch a ts => a :: labelsList ts

/-- Labels of several terms in pre-order, one term after the other. -/
def labelsList : List (Term α) → List α
  | [] => []
  | t :: ts => labels t ++ labelsList ts

end

theorem mapList_eq_map (f : α → β) (ts : List (Term α)) : mapList f ts = ts.map (map f) := by
  induction ts with
  | nil => rfl
  | cons t ts ih => simp [mapList, ih]

theorem labelsList_eq_flatMap (ts : List (Term α)) : labelsList ts = ts.flatMap labels := by
  induction ts with
  | nil => rfl
  | cons t ts ih => simp [labelsList, ih]

end Term

/-! ## Labels -/

/-- What a node shows of itself: all but its id and its children. -/
structure Label (K V : Type) where
  kind : K
  value : Option V
  position : Option Position
  deriving DecidableEq, Repr

variable {K V : Type}

def Node.label (n : Node K V) : Label K V := ⟨n.kind, n.value, n.position⟩

def Label.leaf (label : Label K V) : Node K V := ⟨label.kind, label.value, label.position, none⟩

/-- A parent without children with the given label. -/
def Label.parent (label : Label K V) : Node K V := ⟨label.kind, label.value, label.position, some #[]⟩

namespace Tree

/-! ## Unfolding -/

/-- The term below a node, if it has at most `height` levels and names known nodes only. -/
def expand? (t : Tree K V) : Nat → NodeId → Option (Term (NodeId × Label K V))
  | 0, _ => none
  | height + 1, id =>
      match t.get? id with
      | none => none
      | some n =>
          match n.children with
          | none => some (.leaf (id, n.label))
          | some ids => (ids.toList.mapM (t.expand? height)).map (.branch (id, n.label))

/-- The term of a node with the ids of its nodes.  A term that repeats no node on a path has at
most as many levels as the tree has nodes. -/
def idTerm? (t : Tree K V) (id : NodeId) : Option (Term (NodeId × Label K V)) := t.expand? t.size id

def term? (t : Tree K V) (id : NodeId) : Option (Term (Label K V)) :=
  (t.idTerm? id).map (Term.map Prod.snd)

/-! ## Building -/

mutual

/-- Adds the nodes of a term below a parent, in pre-order. -/
def graft (t : Tree K V) (parent : NodeId) : Term (Label K V) → Tree K V
  | .leaf label => t.append parent label.leaf
  | .branch label children => graftList (t.append parent label.parent) t.size children

/-- Adds the nodes of several terms below a parent, one term after the other. -/
def graftList (t : Tree K V) (parent : NodeId) : List (Term (Label K V)) → Tree K V
  | [] => t
  | child :: rest => graftList (graft t parent child) parent rest

end

/-- The tree of a term; ids count its nodes in pre-order. -/
def ofTerm : Term (Label K V) → Tree K V
  | .leaf label => singleton label.leaf
  | .branch label children => graftList (singleton label.parent) root children

end Tree

end FeatureTree
