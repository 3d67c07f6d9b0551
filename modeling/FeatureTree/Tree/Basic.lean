import FeatureTree.Text.Position

/-!
# Tree — nodes in one arena

All nodes of a tree live in one array and are named by their index, the `NodeId`.  Node zero is the
root.  A parent holds the ids of its children in order; there are no parent links, so a node may be
created detached, be taken out of one child list and be attached to another.  The child list is stored
as an array, for adding at its end and for looking up by index, and is spoken of as a list.

The arena does not check where children point.  Operations on an id that the tree never created
change no child list, and such an id has no children.

Ids have 32 bits where they are stored.  Arenas are taken to hold fewer than `2 ^ 32` nodes, so that no
index is cut off when it becomes an id.
-/

namespace FeatureTree

/-- Index of a node in the arena of its tree, which holds fewer than `2 ^ 32` nodes. -/
abbrev NodeId := Nat

/-! ## Nodes -/

/-- A node: its kind, an optional value, an optional span, and its children.  A node without a child
list is a leaf; a parent may have an empty one. -/
structure Node (K V : Type) where
  kind : K
  value : Option V
  position : Option Position
  children : Option (Array NodeId)
  deriving DecidableEq, Repr

namespace Node

variable {K V : Type}

/-- A parent without children, value or span. -/
def parent (kind : K) : Node K V := ⟨kind, none, none, some #[]⟩

def leaf (kind : K) : Node K V := ⟨kind, none, none, none⟩

def literal (kind : K) (value : V) : Node K V := ⟨kind, some value, none, none⟩

/-- The node has a child list, perhaps an empty one. -/
def isParent (n : Node K V) : Bool := n.children.isSome

/-- The stored children; a leaf has none. -/
def childArray (n : Node K V) : Array NodeId :=
  match n.children with
  | some ids => ids
  | none => #[]

/-- The children in order; a leaf has none. -/
def childList (n : Node K V) : List NodeId := n.childArray.toList

/-- The node with one more child at the end; a leaf becomes a parent. -/
def adopt (n : Node K V) (child : NodeId) : Node K V :=
  match n with
  | ⟨kind, value, position, none⟩ => ⟨kind, value, position, some #[child]⟩
  | ⟨kind, value, position, some ids⟩ => ⟨kind, value, position, some (ids.push child)⟩

def dropLast (n : Node K V) : Node K V :=
  match n with
  | ⟨kind, value, position, none⟩ => ⟨kind, value, position, none⟩
  | ⟨kind, value, position, some ids⟩ => ⟨kind, value, position, some ids.pop⟩

/-- The node without any child; a leaf stays a leaf. -/
def clear (n : Node K V) : Node K V :=
  { n with children := n.children.map fun _ => #[] }

@[simp] theorem childList_adopt (n : Node K V) (child : NodeId) :
    (n.adopt child).childList = n.childList ++ [child] := by
  obtain ⟨_, _, _, _ | ids⟩ := n <;> simp [adopt, childList, childArray]

@[simp] theorem childList_dropLast (n : Node K V) :
    n.dropLast.childList = n.childList.dropLast := by
  obtain ⟨_, _, _, _ | ids⟩ := n <;> simp [dropLast, childList, childArray]

@[simp] theorem childList_clear (n : Node K V) : n.clear.childList = [] := by
  obtain ⟨_, _, _, _ | ids⟩ := n <;> simp [clear, childList, childArray]

end Node

/-! ## Trees -/

/-- A tree: an array of nodes, the first of which is the root. -/
structure Tree (K V : Type) where
  nodes : Array (Node K V)
  nonempty : 0 < nodes.size

namespace Tree

variable {K V : Type}

/-- The tree that holds its root only. -/
def singleton (root : Node K V) : Tree K V := ⟨#[root], by simp⟩

/-- The root is the node created first. -/
def root : NodeId := 0

/-- Number of nodes ever created, attached or not. -/
def size (t : Tree K V) : Nat := t.nodes.size

/-- The tree created a node of this id. -/
def contains (t : Tree K V) (id : NodeId) : Bool := id < t.nodes.size

def get? (t : Tree K V) (id : NodeId) : Option (Node K V) := t.nodes[id]?

def rootNode (t : Tree K V) : Node K V :=
  have := t.nonempty
  t.nodes[0]

/-- Stored children of a node; none for a leaf and for an unknown id. -/
def childArray (t : Tree K V) (id : NodeId) : Array NodeId :=
  match t.get? id with
  | some n => n.childArray
  | none => #[]

/-- Children of a node in order; none for a leaf and for an unknown id. -/
def children (t : Tree K V) (id : NodeId) : List NodeId := (t.childArray id).toList

def childCount (t : Tree K V) (id : NodeId) : Nat := (t.childArray id).size

/-- Child of a node by its index. -/
def childAt? (t : Tree K V) (id : NodeId) (index : Nat) : Option NodeId := (t.childArray id)[index]?

def firstChild? (t : Tree K V) (id : NodeId) : Option NodeId := t.childAt? id 0

def lastChild? (t : Tree K V) (id : NodeId) : Option NodeId := (t.childArray id).back?

/-- The child of a node that has exactly one. -/
def onlyChild? (t : Tree K V) (id : NodeId) : Option NodeId :=
  if t.childCount id = 1 then t.firstChild? id else none

def position? (t : Tree K V) (id : NodeId) : Option Position := (t.get? id).bind Node.position

/-- Changes one node; an unknown id changes nothing. -/
def update (t : Tree K V) (id : NodeId) (f : Node K V → Node K V) : Tree K V :=
  ⟨t.nodes.modify id f, by simpa using t.nonempty⟩

/-- Adds a detached node, whose id is the size the tree had before. -/
def create (t : Tree K V) (node : Node K V) : Tree K V :=
  ⟨t.nodes.push node, by simp⟩

/-- Makes `child` the last child of `parent`. -/
def attach (t : Tree K V) (parent child : NodeId) : Tree K V :=
  t.update parent (·.adopt child)

/-- Adds a node as the last child of `parent`. -/
def append (t : Tree K V) (parent : NodeId) (node : Node K V) : Tree K V :=
  let id := t.size
  (t.create node).attach parent id

/-- Takes the last child out of the child list of `parent`; see `lastChild?` for its id. -/
def popChild (t : Tree K V) (parent : NodeId) : Tree K V :=
  t.update parent Node.dropLast

def clearChildren (t : Tree K V) (parent : NodeId) : Tree K V :=
  t.update parent Node.clear

def setPosition (t : Tree K V) (id : NodeId) (position : Position) : Tree K V :=
  t.update id fun n => { n with position := some position }

/-! ## What the queries say about the child list -/

theorem childCount_eq_length (t : Tree K V) (id : NodeId) :
    t.childCount id = (t.children id).length := by
  simp [childCount, children]

theorem childAt?_eq_getElem? (t : Tree K V) (id : NodeId) (index : Nat) :
    t.childAt? id index = (t.children id)[index]? := by
  simp [childAt?, children]

theorem firstChild?_eq_head? (t : Tree K V) (id : NodeId) :
    t.firstChild? id = (t.children id).head? := by
  simp [firstChild?, childAt?_eq_getElem?, List.head?_eq_getElem?]

theorem lastChild?_eq_getLast? (t : Tree K V) (id : NodeId) :
    t.lastChild? id = (t.children id).getLast? := by
  simp [lastChild?, children]

theorem onlyChild?_eq_some_iff (t : Tree K V) (id child : NodeId) :
    t.onlyChild? id = some child ↔ t.children id = [child] := by
  rw [onlyChild?, firstChild?_eq_head?, childCount_eq_length]
  rcases t.children id with _ | ⟨c, _ | ⟨d, l⟩⟩ <;> simp

/-! ## What the operations do to the arena -/

@[simp] theorem size_update (t : Tree K V) (id : NodeId) (f : Node K V → Node K V) :
    (t.update id f).size = t.size := by
  simp [update, size]

@[simp] theorem size_create (t : Tree K V) (node : Node K V) :
    (t.create node).size = t.size + 1 := by
  simp [create, size]

@[simp] theorem size_attach (t : Tree K V) (parent child : NodeId) :
    (t.attach parent child).size = t.size := by
  simp [attach]

@[simp] theorem size_append (t : Tree K V) (parent : NodeId) (node : Node K V) :
    (t.append parent node).size = t.size + 1 := by
  simp [append]

theorem get?_update (t : Tree K V) (id other : NodeId) (f : Node K V → Node K V) :
    (t.update id f).get? other = if id = other then (t.get? other).map f else t.get? other := by
  simp [update, get?, Array.getElem?_modify]

theorem get?_create (t : Tree K V) (node : Node K V) (id : NodeId) :
    (t.create node).get? id = if id = t.size then some node else t.get? id := by
  exact Array.getElem?_push

end Tree

end FeatureTree
