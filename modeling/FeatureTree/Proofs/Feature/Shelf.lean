import FeatureTree.Feature.Shelf
import Mathlib.Data.List.Basic

/-!
# Shelf — what is found through shared handles

Bags are told apart by the handles that point at them.  A use through one handle is seen through all
handles of the same bag, and through no other (`Reached.bag_update`); a new handle points at a bag that no
other handle points at, unless it was made by sharing.
-/

namespace FeatureTree
namespace Shelf

variable {Key : Type} {Entry : Key → Type}
variable {s : Shelf Key Entry} {a b handle : Nat}

/-- Shelves that arise from a single bag. -/
inductive Reached : Shelf Key Entry → Prop where
  | single : Reached single
  | create {s : Shelf Key Entry} (earlier : Reached s) : Reached s.create.2
  | share {s : Shelf Key Entry} (earlier : Reached s) (handle : Nat) : Reached (s.share handle).2
  | update {s : Shelf Key Entry} (earlier : Reached s) (handle : Nat)
      (use : Bag Key Entry → Bag Key Entry) : Reached (s.update handle use)

/-- Every handle points at a bag of the shelf. -/
def Sound (s : Shelf Key Entry) : Prop :=
  ∀ (handle index : Nat), s.handles[handle]? = some index → index < s.bags.size

theorem Sound.create (h : s.Sound) : s.create.2.Sound := by
  intro handle index hindex
  simp only [Shelf.create, Array.size_push, Array.getElem?_push] at hindex ⊢
  split at hindex
  · obtain rfl := Option.some.inj hindex
    exact Nat.lt_succ_self _
  · exact Nat.lt_succ_of_lt (h handle index hindex)

theorem Sound.share (h : s.Sound) (handle : Nat) : (s.share handle).2.Sound := by
  unfold Shelf.share
  split
  · next shared hshared =>
      intro other index hindex
      simp only [Array.getElem?_push] at hindex
      split at hindex
      · obtain rfl := Option.some.inj hindex
        exact h handle shared hshared
      · exact h other index hindex
  · exact h.create

theorem Sound.update (h : s.Sound) (handle : Nat) (use : Bag Key Entry → Bag Key Entry) :
    (s.update handle use).Sound := by
  unfold Shelf.update
  split
  · intro other index hindex
    rw [Array.size_modify]
    exact h other index hindex
  · exact h

theorem Reached.sound (h : Reached s) : s.Sound := by
  induction h with
  | single =>
      intro handle index hindex
      rcases Array.getElem?_eq_some_iff.1 hindex with ⟨hlt, rfl⟩
      obtain rfl : handle = 0 := Nat.lt_one_iff.1 hlt
      exact Nat.one_pos
  | create _ ih => exact ih.create
  | share _ handle ih => exact ih.share handle
  | update _ handle use ih => exact ih.update handle use

theorem exists_bag (h : s.Sound) (ha : a < s.handles.size) :
    ∃ index bag, s.handles[a]? = some index ∧ s.bags[index]? = some bag ∧ s.bag a = bag := by
  have hhandle := Array.getElem?_eq_getElem ha
  have hbag := Array.getElem?_eq_getElem (h a _ hhandle)
  refine ⟨_, _, hhandle, hbag, ?_⟩
  rw [bag, hhandle, Option.bind_some, hbag, Option.getD_some]

/-- A use of the bag behind one handle changes what is found through the handles of the same bag. -/
theorem Reached.bag_update (h : Reached s) (ha : a < s.handles.size) (hb : b < s.handles.size)
    (use : Bag Key Entry → Bag Key Entry) :
    (s.update a use).bag b = if s.same a b then use (s.bag b) else s.bag b := by
  rcases exists_bag h.sound ha with ⟨index, -, hindex, -, -⟩
  rcases exists_bag h.sound hb with ⟨other, found, hother, hfound, hbag⟩
  have hupdate : s.update a use = { s with bags := s.bags.modify index use } := by
    rw [Shelf.update, hindex]
  rw [hupdate, hbag, same, hindex, hother, bag]
  simp only [hother, Option.bind_some, Array.getElem?_modify, hfound]
  -- Both handles point at the same bag exactly if they name the same index.
  by_cases heq : index = other
  · simp [heq]
  · simp [heq]

/-- A new handle points at an empty bag of its own, and the others point where they did. -/
theorem Reached.bag_create (h : Reached s) (hb : b < s.handles.size) :
    s.create.2.bag s.create.1 = Bag.empty s.bags.size ∧
      s.create.2.same s.create.1 b = false ∧ s.create.2.bag b = s.bag b := by
  rcases exists_bag h.sound hb with ⟨index, found, hindex, hfound, hbag⟩
  have hlt := h.sound b index hindex
  have hindex' : s.create.2.handles[b]? = some index := by
    rw [Shelf.create, Array.getElem?_push, if_neg (Nat.ne_of_lt hb), hindex]
  have hnew : s.create.2.handles[s.create.1]? = some s.bags.size := by
    rw [Shelf.create, Array.getElem?_push, if_pos rfl]
  refine ⟨?_, ?_, ?_⟩
  · rw [bag, hnew]
    simp [Shelf.create]
  · rw [same, hnew, hindex']
    simpa using Nat.ne_of_gt hlt
  · rw [hbag, bag, hindex']
    simp [Shelf.create, Array.getElem?_push, Nat.ne_of_lt hlt, hfound]

/-- A shared handle points at the same bag as the one that it was made from. -/
theorem bag_share (ha : a < s.handles.size) :
    (s.share a).2.same (s.share a).1 a = true ∧ (s.share a).2.bag (s.share a).1 = s.bag a := by
  have hhandle := Array.getElem?_eq_getElem ha
  have hshare : s.share a = (s.handles.size, { s with handles := s.handles.push s.handles[a] }) := by
    rw [share, hhandle]
  rw [hshare]
  constructor
  · simp [same, Array.getElem?_push, Nat.ne_of_lt ha, hhandle]
  · simp [bag, hhandle]

end Shelf
end FeatureTree
