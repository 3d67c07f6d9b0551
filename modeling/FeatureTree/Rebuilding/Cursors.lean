import FeatureTree.Tree.Basic

/-!
# Cursors — one child index per traversed node

While an input node is being traversed, the index of its current child is recorded here.  A node
without a record is at its first child.
-/

namespace FeatureTree

/-- Recorded child indices, at most one for each node. -/
structure Cursors where
  entries : List (NodeId × Nat)
  deriving DecidableEq, Repr

namespace Cursors

def empty : Cursors := ⟨[]⟩

/-- The recorded index of a node, in a list of records. -/
def find? (node : NodeId) : List (NodeId × Nat) → Option Nat
  | [] => none
  | (n, index) :: rest => if n = node then some index else find? node rest

/-- The records with the index of a node replaced. -/
def replace (node : NodeId) (index : Nat) : List (NodeId × Nat) → List (NodeId × Nat)
  | [] => []
  | (n, i) :: rest =>
      if n = node then (n, index) :: rest else (n, i) :: replace node index rest

def get? (c : Cursors) (node : NodeId) : Option Nat := find? node c.entries

/-- The index of a node; zero without a record. -/
def index (c : Cursors) (node : NodeId) : Nat := (c.get? node).getD 0

def set (c : Cursors) (node : NodeId) (index : Nat) : Cursors :=
  match c.get? node with
  | some _ => ⟨replace node index c.entries⟩
  | none => ⟨(node, index) :: c.entries⟩

/-- Goes on to the next child of a node. -/
def bump (c : Cursors) (node : NodeId) : Cursors := c.set node (c.index node + 1)

def erase (c : Cursors) (node : NodeId) : Cursors := ⟨c.entries.filter fun e => e.1 != node⟩

/-! ## Reading what was recorded -/

theorem find?_replace (node other : NodeId) (index : Nat) (entries : List (NodeId × Nat)) :
    find? other (replace node index entries) =
      if node = other then (find? other entries).map fun _ => index else find? other entries := by
  induction entries with
  | nil => simp [find?, replace]
  | cons e rest ih =>
    obtain ⟨n, i⟩ := e
    by_cases hn : n = node
    · subst hn
      by_cases ho : n = other <;> simp [replace, find?, ho]
    · by_cases ho : n = other
      · subst ho
        have hne : node ≠ n := fun h => hn h.symm
        simp [replace, find?, hn, hne]
      · simp [replace, find?, hn, ho, ih]

theorem get?_set (c : Cursors) (node other : NodeId) (index : Nat) :
    (c.set node index).get? other = if node = other then some index else c.get? other := by
  unfold set
  split
  · next i h =>
      by_cases ho : node = other
      · subst ho
        have hfound : find? node c.entries = some i := h
        simp [get?, find?_replace, hfound]
      · simp [get?, find?_replace, ho]
  · by_cases ho : node = other <;> simp [get?, find?, ho]

theorem get?_erase (c : Cursors) (node other : NodeId) :
    (c.erase node).get? other = if node = other then none else c.get? other := by
  obtain ⟨entries⟩ := c
  simp only [erase, get?]
  induction entries with
  | nil => simp [find?]
  | cons e rest ih =>
    obtain ⟨n, i⟩ := e
    by_cases hn : n = node
    · subst hn
      by_cases ho : n = other <;> simp_all [find?]
    · have hkeep : (n != node) = true := by simpa using hn
      by_cases ho : n = other
      · subst ho
        have hne : node ≠ n := fun h => hn h.symm
        simp [hkeep, find?, hne]
      · simp only [List.filter_cons, hkeep, if_true, find?, ho, if_false]
        exact ih

theorem index_set (c : Cursors) (node other : NodeId) (index : Nat) :
    (c.set node index).index other = if node = other then index else c.index other := by
  unfold Cursors.index
  rw [get?_set]
  split <;> rfl

theorem index_bump (c : Cursors) (node other : NodeId) :
    (c.bump node).index other = if node = other then c.index node + 1 else c.index other := by
  rw [bump, index_set]

theorem index_erase (c : Cursors) (node other : NodeId) :
    (c.erase node).index other = if node = other then 0 else c.index other := by
  unfold Cursors.index
  rw [get?_erase]
  split <;> rfl

end Cursors

end FeatureTree
