/-!
# Bag — scratch storage with one entry per type

A bag holds at most one entry of each entry type.  Entry types are named by keys, and `Entry` says what
is stored under a key, so features that share a bag agree on keys rather than on texts.

Each bag has a number.  An engine gives every group of candidates a fresh bag with a number of its own.
-/

namespace FeatureTree

/-- A numbered bag: its entries, the latest first, each under its key. -/
structure Bag (Key : Type) (Entry : Key → Type) where
  number : Nat
  entries : List (Sigma Entry)

namespace Bag

variable {Key : Type} {Entry : Key → Type} [DecidableEq Key]

def empty (number : Nat) : Bag Key Entry := ⟨number, []⟩

/-- The entry under a key, in a list of entries. -/
def find? (key : Key) : List (Sigma Entry) → Option (Entry key)
  | [] => none
  | ⟨k, entry⟩ :: rest => if h : k = key then some (h ▸ entry) else find? key rest

def get? (bag : Bag Key Entry) (key : Key) : Option (Entry key) := find? key bag.entries

/-- The bag has an entry under the key. -/
def contains (bag : Bag Key Entry) (key : Key) : Bool := (bag.get? key).isSome

/-- Stores an entry in place of the one under the same key; `get?` tells the one before. -/
def insert (bag : Bag Key Entry) (key : Key) (entry : Entry key) : Bag Key Entry :=
  { bag with entries := ⟨key, entry⟩ :: bag.entries.filter fun e => e.1 != key }

/-- Changes the entry under a key; an absent entry is first given its default. -/
def modify [∀ key, Inhabited (Entry key)] (bag : Bag Key Entry) (key : Key)
    (f : Entry key → Entry key) : Bag Key Entry :=
  bag.insert key (f ((bag.get? key).getD default))

def size (bag : Bag Key Entry) : Nat := bag.entries.length

/-! ## One entry per key -/

@[simp] theorem number_insert (bag : Bag Key Entry) (key : Key) (entry : Entry key) :
    (bag.insert key entry).number = bag.number := rfl

@[simp] theorem get?_insert_self (bag : Bag Key Entry) (key : Key) (entry : Entry key) :
    (bag.insert key entry).get? key = some entry := by
  simp [insert, get?, find?]

theorem find?_filter_ne {key other : Key} (h : other ≠ key) (entries : List (Sigma Entry)) :
    find? key (entries.filter fun e => e.1 != other) = find? key entries := by
  induction entries with
  | nil => rfl
  | cons e rest ih =>
    obtain ⟨k, x⟩ := e
    by_cases hk : k = other
    · subst hk
      simp [find?, h, ih]
    · have hkeep : (k != other) = true := by simpa using hk
      simp [find?, hkeep, ih]

theorem get?_insert_of_ne (bag : Bag Key Entry) {key other : Key} (h : other ≠ key)
    (entry : Entry other) : (bag.insert other entry).get? key = bag.get? key := by
  simp [insert, get?, find?, h, find?_filter_ne h]

end Bag

end FeatureTree
