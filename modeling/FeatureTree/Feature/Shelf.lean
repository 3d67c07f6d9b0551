import FeatureTree.Feature.Bag

/-!
# Shelf — bags shared through handles

Several handles may point at one bag; what is stored through one of them is found through all.  While an
entry is in use, its bag must not be used again: the inner use is refused, but by then the outer one
has already put the default in place of a missing entry.

The engines hand bags on by themselves, without handles: a group of candidates has its bag, and each
call of the group finds what the call before left in it.
-/

namespace FeatureTree

/-- A bag was used while one of its entries was in use. -/
inductive InUse where
  | inUse
  deriving DecidableEq, Repr

/-- Bags, and the bag that each handle points at. -/
structure Shelf (Key : Type) (Entry : Key → Type) where
  bags : Array (Bag Key Entry)
  handles : Array Nat

namespace Shelf

variable {Key : Type} {Entry : Key → Type} [DecidableEq Key]

/-- The shelf with one empty bag and one handle. -/
def single : Shelf Key Entry := ⟨#[Bag.empty 0], #[0]⟩

/-- The bag behind a handle; an unknown handle points at an empty bag. -/
def bag (s : Shelf Key Entry) (handle : Nat) : Bag Key Entry :=
  ((s.handles[handle]?).bind fun i => s.bags[i]?).getD (Bag.empty s.bags.size)

/-- Adds an empty bag with a handle of its own, and returns the handle. -/
def create (s : Shelf Key Entry) : Nat × Shelf Key Entry :=
  (s.handles.size, ⟨s.bags.push (Bag.empty s.bags.size), s.handles.push s.bags.size⟩)

/-- Adds a handle for the bag of another one, and returns it. -/
def share (s : Shelf Key Entry) (handle : Nat) : Nat × Shelf Key Entry :=
  match s.handles[handle]? with
  | some i => (s.handles.size, { s with handles := s.handles.push i })
  | none => s.create

/-- Both handles point at the same bag. -/
def same (s : Shelf Key Entry) (a b : Nat) : Bool := s.handles[a]? == s.handles[b]?

def update (s : Shelf Key Entry) (handle : Nat) (f : Bag Key Entry → Bag Key Entry) :
    Shelf Key Entry :=
  match s.handles[handle]? with
  | some i => { s with bags := s.bags.modify i f }
  | none => s

/-- Uses a bag again while its entry under `key` is in use. -/
def reenter [∀ key, Inhabited (Entry key)] (s : Shelf Key Entry) (handle : Nat) (key : Key) :
    Except InUse Unit × Shelf Key Entry :=
  (.error .inUse, s.update handle fun bag => bag.modify key id)

end Shelf

namespace Bag

variable {Key : Type} {Entry : Key → Type}

/-- The bag in words: how many entries it has. -/
def describe (bag : Bag Key Entry) : String :=
  "Scratch \x7b entries: " ++ toString bag.size ++ " \x7d"

end Bag

end FeatureTree
