import FeatureTree.Feature.Stack
import Mathlib.Data.List.Basic

/-!
# Ledger — what the history of a stack says about its frames

A stack holds its live frames and a count of pushes, and forgets every frame that has left.  The history
of a stack, which is the list of operations with their answers, forgets nothing.  A `Ledger` is drawn
up from the history alone: for each number that was issued, the frame last stored under it, and whether
it is still live.

`Accounts` ties a stack to a ledger, and each operation keeps it.  `history_decides` draws the
conclusions: the live frames are those of the ledger, and the answers to a push and to a release of
any number can be read off the ledger.
-/

namespace FeatureTree
namespace Stack

variable {F : Type}

/-! ## Histories -/

/-- What may be done with a stack. -/
inductive Op (F : Type) where
  | push (frame : F)
  | release (id : FrameId)
  | unwind
  /-- Another frame is stored under the number of the innermost one. -/
  | setTop (frame : F)

/-- What a stack answers to an operation. -/
inductive Answer (F : Type) where
  | pushed (id : FrameId)
  | released (frame : F)
  | refused (v : Violation)
  | done
  deriving DecidableEq

/-- One operation: its answer, and the stack after it.  A refused operation leaves the stack alone. -/
def perform (s : Stack F) : Op F → Answer F × Stack F
  | .push frame =>
      match s.push frame with
      | .ok t => (.pushed s.pushed, t)
      | .error v => (.refused v, s)
  | .release id =>
      match s.release id with
      | .ok (frame, t) => (.released frame, t)
      | .error v => (.refused v, s)
  | .unwind => (.done, s.unwind)
  | .setTop frame => (.done, s.setTop frame)

/-- The stack after some operations. -/
def after (s : Stack F) : List (Op F) → Stack F
  | [] => s
  | op :: ops => (s.perform op).2.after ops

/-- Operations with their answers, in the order in which they were performed. -/
def history (s : Stack F) : List (Op F) → List (Op F × Answer F)
  | [] => []
  | op :: ops => (op, (s.perform op).1) :: (s.perform op).2.history ops

/-- The answer gives out a number. -/
def Answer.issues : Answer F → Bool
  | .pushed _ => true
  | _ => false

/-- How many pushes of a history succeeded. -/
def pushes (events : List (Op F × Answer F)) : Nat := events.countP fun event => event.2.issues

theorem pushed_release {s t : Stack F} {id : FrameId} {frame : F}
    (h : s.release id = .ok (frame, t)) : t.pushed = s.pushed := by
  unfold release at h
  split at h
  · split at h
    · cases h
      rfl
    · split at h
      · cases h
      · split at h <;> cases h
  · split at h <;> cases h

theorem pushed_perform (s : Stack F) (op : Op F) :
    (s.perform op).2.pushed = s.pushed + if (s.perform op).1.issues then 1 else 0 := by
  cases op with
  | push frame =>
      simp only [perform, push]
      split <;> rfl
  | release id =>
      rcases hrelease : s.release id with v | ⟨frame, t⟩
      · simp only [perform, hrelease]
        rfl
      · simp only [perform, hrelease]
        exact pushed_release hrelease
  | unwind => rfl
  | setTop frame =>
      simp only [perform, setTop]
      split <;> rfl

theorem pushed_after (s : Stack F) (ops : List (Op F)) :
    (s.after ops).pushed = s.pushed + pushes (s.history ops) := by
  induction ops generalizing s with
  | nil => rfl
  | cons op ops ih =>
      rw [after, ih, pushed_perform, history, pushes, pushes, List.countP_cons, Nat.add_assoc]
      exact congrArg (s.pushed + ·) (Nat.add_comm _ _)

/-! ## Ledgers -/

/-- A number that was issued: the frame last stored under it, and whether it is live. -/
structure Issue (F : Type) where
  frame : F
  live : Bool
  deriving DecidableEq

/-- The issue after its frame has left. -/
def Issue.close (issue : Issue F) : Issue F := { issue with live := false }

/-- All that were issued, in order; the place of an issue is its number. -/
abbrev Ledger (F : Type) : Type := List (Issue F)

namespace Ledger

def isLive (l : Ledger F) (id : FrameId) : Bool := (l[id]?).any Issue.live

/-- The live number that was issued last. -/
def newest? (l : Ledger F) : Option FrameId := (List.range l.length).reverse.find? l.isLive

/-- The ledger after one more operation. -/
def note (l : Ledger F) : Op F × Answer F → Ledger F
  | (.push frame, .pushed _) => l ++ [⟨frame, true⟩]
  | (.release id, .released _) => l.modify id Issue.close
  | (.unwind, _) => l.map Issue.close
  | (.setTop frame, _) =>
      match l.newest? with
      | some id => l.modify id fun issue => { issue with frame }
      | none => l
  | _ => l

/-- The ledger of a history. -/
def ofHistory (events : List (Op F × Answer F)) : Ledger F := events.foldl note []

theorem isLive_iff {l : Ledger F} {id : FrameId} :
    l.isLive id = true ↔ ∃ frame, l[id]? = some ⟨frame, true⟩ := by
  rw [isLive, Option.any_eq_true]
  constructor
  · rintro ⟨⟨frame, live⟩, hget, rfl⟩
    exact ⟨frame, hget⟩
  · rintro ⟨frame, hget⟩
    exact ⟨_, hget, rfl⟩

theorem lt_length_of_isLive {l : Ledger F} {id : FrameId} (h : l.isLive id = true) :
    id < l.length := by
  rcases isLive_iff.1 h with ⟨frame, hget⟩
  exact (List.getElem?_eq_some_iff.1 hget).1

theorem newest?_eq_some {l : Ledger F} {id : FrameId} :
    l.newest? = some id ↔ l.isLive id = true ∧ ∀ other, l.isLive other = true → other ≤ id := by
  -- Whatever the search finds is live, and stands in front of all smaller numbers.
  have hfound : ∀ {id}, l.newest? = some id →
      l.isLive id = true ∧ ∀ other, l.isLive other = true → other ≤ id := by
    intro id h
    rcases List.find?_eq_some_iff_append.1 h with ⟨hlive, front, back, happend, hfront⟩
    refine ⟨hlive, fun other hother => ?_⟩
    have hsorted : (front ++ id :: back).Pairwise (· > ·) :=
      happend ▸ List.pairwise_reverse.2 List.pairwise_lt_range
    have hmem : other ∈ front ++ id :: back := by
      rw [← happend, List.mem_reverse, List.mem_range]
      exact lt_length_of_isLive hother
    rcases List.mem_append.1 hmem with hmem | hmem
    · exact absurd hother (by simpa using hfront other hmem)
    · rcases List.mem_cons.1 hmem with rfl | hmem
      · exact Nat.le_refl _
      · exact Nat.le_of_lt ((List.pairwise_cons.1 (List.pairwise_append.1 hsorted).2.1).1 _ hmem)
  constructor
  · exact hfound
  · rintro ⟨hlive, hnewest⟩
    cases h : l.newest? with
    | none =>
        have hnone := List.find?_eq_none.1 h id
          (List.mem_reverse.2 (List.mem_range.2 (lt_length_of_isLive hlive)))
        exact absurd hlive hnone
    | some other =>
        rcases hfound h with ⟨hother, hmax⟩
        rw [Nat.le_antisymm (hmax id hlive) (hnewest other hother)]

end Ledger

/-! ## Stacks and their ledgers -/

/-- The stack holds what is live in the ledger, the innermost frame first. -/
structure Accounts (maxDepth : Nat) (s : Stack F) (l : Ledger F) : Prop where
  limit : s.maxDepth = maxDepth
  issued : s.pushed = l.length
  live : ∀ id frame, (id, frame) ∈ s.frames ↔ l[id]? = some ⟨frame, true⟩
  latestFirst : (s.frames.map Prod.fst).Pairwise (· > ·)
  depth_le : s.depth ≤ maxDepth

namespace Accounts

variable {maxDepth : Nat} {s t : Stack F} {l : Ledger F} {id : FrameId} {frame : F}
variable {rest : List (FrameId × F)}

theorem empty (limits : Limits) : Accounts limits.maxDepth (Stack.empty limits : Stack F) [] where
  limit := rfl
  issued := rfl
  live := by simp [Stack.empty]
  latestFirst := List.Pairwise.nil
  depth_le := Nat.zero_le _

theorem isLive_eq (h : Accounts maxDepth s l) (id : FrameId) : s.isLive id = l.isLive id := by
  rw [Bool.eq_iff_iff, Stack.isLive, List.any_eq_true, Ledger.isLive_iff]
  constructor
  · rintro ⟨⟨other, frame⟩, hmem, heq⟩
    obtain rfl : other = id := by simpa using heq
    exact ⟨frame, (h.live _ _).1 hmem⟩
  · rintro ⟨frame, hget⟩
    exact ⟨(id, frame), (h.live _ _).2 hget, by simp⟩

/-- Numbers below the innermost one are smaller. -/
theorem lt_top (h : Accounts maxDepth s l) (hframes : s.frames = (id, frame) :: rest) :
    ∀ other ∈ rest, other.1 < id := by
  have hsorted := h.latestFirst
  rw [hframes] at hsorted
  intro other hmem
  exact (List.pairwise_cons.1 hsorted).1 other.1 (List.mem_map_of_mem hmem)

theorem topId?_eq (h : Accounts maxDepth s l) : s.topId? = l.newest? := by
  cases hframes : s.frames with
  | nil =>
      have hnone : l.newest? = none := by
        rw [Ledger.newest?, List.find?_eq_none]
        intro id _ hlive
        rw [← h.isLive_eq, Stack.isLive, hframes] at hlive
        cases hlive
      rw [hnone, topId?, hframes]
      rfl
  | cons top rest =>
      obtain ⟨id, frame⟩ := top
      have hnewest : l.newest? = some id := by
        refine Ledger.newest?_eq_some.2 ⟨?_, fun other hother => ?_⟩
        · exact Ledger.isLive_iff.2 ⟨frame, (h.live id frame).1 (hframes ▸ List.mem_cons_self)⟩
        · rcases Ledger.isLive_iff.1 hother with ⟨stored, hget⟩
          have hmem := (h.live other stored).2 hget
          rw [hframes] at hmem
          rcases List.mem_cons.1 hmem with heq | hmem
          · exact Nat.le_of_eq (Prod.mk.inj heq).1
          · exact Nat.le_of_lt (h.lt_top hframes _ hmem)
      rw [hnewest, topId?, hframes]
      rfl

/-! ### What the operations do -/

theorem push (h : Accounts maxDepth s l) (frame : F) (hroom : s.depth < maxDepth) :
    Accounts maxDepth { s with frames := (s.pushed, frame) :: s.frames, pushed := s.pushed + 1 }
      (l ++ [⟨frame, true⟩]) where
  limit := h.limit
  issued := by simp [h.issued]
  live := by
    intro id stored
    rw [List.mem_cons, h.live, Prod.mk.injEq, h.issued]
    rcases Nat.lt_trichotomy id l.length with hlt | rfl | hgt
    · simp [List.getElem?_append_left hlt, Nat.ne_of_lt hlt]
    · simp [eq_comm]
    · have hout : ¬ id < l.length := Nat.not_lt.2 (Nat.le_of_lt hgt)
      have hpast : (l ++ [(⟨frame, true⟩ : Issue F)])[id]? = none := by
        rw [List.getElem?_eq_none_iff, List.length_append]
        exact hgt
      rw [hpast, List.getElem?_eq_none_iff.2 (Nat.not_lt.1 hout)]
      simp [Nat.ne_of_gt hgt]
  latestFirst := by
    refine List.pairwise_cons.2 ⟨?_, h.latestFirst⟩
    intro id hid
    rcases List.mem_map.1 hid with ⟨⟨other, stored⟩, hmem, rfl⟩
    rw [h.issued]
    exact (List.getElem?_eq_some_iff.1 ((h.live _ _).1 hmem)).1
  depth_le := hroom

/-- The innermost frame leaves. -/
theorem release (h : Accounts maxDepth s l) (hframes : s.frames = (id, frame) :: rest) :
    Accounts maxDepth { s with frames := rest } (l.modify id Issue.close) where
  limit := h.limit
  issued := by simpa using h.issued
  live := by
    intro other stored
    have hold := h.live other stored
    rw [hframes, List.mem_cons, Prod.mk.injEq] at hold
    rw [List.getElem?_modify]
    by_cases hid : other = id
    · subst hid
      have hgone : (other, stored) ∉ rest := fun hmem =>
        Nat.lt_irrefl _ (h.lt_top hframes _ hmem)
      cases l[other]? <;> simp [hgone, Issue.close]
    · have hne : ¬ id = other := fun heq => hid heq.symm
      simpa [hid, hne] using hold
  latestFirst := by
    have hsorted := h.latestFirst
    rw [hframes] at hsorted
    exact (List.pairwise_cons.1 hsorted).2
  depth_le := by
    refine Nat.le_trans ?_ h.depth_le
    simp [depth, hframes]

theorem unwind (h : Accounts maxDepth s l) : Accounts maxDepth s.unwind (l.map Issue.close) where
  limit := h.limit
  issued := by simpa [Stack.unwind] using h.issued
  live := by
    intro id stored
    cases hget : l[id]? <;> simp [Stack.unwind, hget, Issue.close]
  latestFirst := List.Pairwise.nil
  depth_le := Nat.zero_le _

/-- Another frame is stored under the innermost number. -/
theorem setTop (h : Accounts maxDepth s l) (hframes : s.frames = (id, frame) :: rest)
    (stored : F) :
    Accounts maxDepth { s with frames := (id, stored) :: rest }
      (l.modify id fun issue => { issue with frame := stored }) where
  limit := h.limit
  issued := by simpa using h.issued
  live := by
    intro other found
    have hold := h.live other found
    rw [hframes, List.mem_cons, Prod.mk.injEq] at hold
    rw [List.getElem?_modify, List.mem_cons, Prod.mk.injEq]
    by_cases hid : other = id
    · subst hid
      have hgone : (other, found) ∉ rest := fun hmem =>
        Nat.lt_irrefl _ (h.lt_top hframes _ hmem)
      have hget := (h.live other frame).1 (hframes ▸ List.mem_cons_self)
      simp [hgone, hget, eq_comm]
    · have hne : ¬ id = other := fun heq => hid heq.symm
      simpa [hid, hne] using hold
  latestFirst := by
    have hsorted := h.latestFirst
    rw [hframes] at hsorted
    exact hsorted
  depth_le := by
    refine Nat.le_trans ?_ h.depth_le
    simp [depth, hframes]

/-! ### What the operations answer -/

theorem perform_push (h : Accounts maxDepth s l) (frame : F) :
    s.perform (.push frame) =
      if s.depth < maxDepth then
        (.pushed l.length,
          { s with frames := (s.pushed, frame) :: s.frames, pushed := s.pushed + 1 })
      else (.refused (.depthExceeded maxDepth), s) := by
  by_cases hroom : s.depth < maxDepth
  · simp [perform, Stack.push, h.limit, hroom, Nat.not_le_of_lt hroom, h.issued]
  · simp [perform, Stack.push, h.limit, hroom, Nat.not_lt.1 hroom]

/-- What the ledger says of a number decides what happens when it is released. -/
theorem release_cases (h : Accounts maxDepth s l) (id : FrameId) :
    (∃ frame, l.newest? = some id ∧ l[id]? = some ⟨frame, true⟩ ∧
        s.perform (.release id) = (.released frame, { s with frames := s.frames.tail })) ∨
      (∃ top, l.isLive id = true ∧ l.newest? = some top ∧ top ≠ id ∧
        s.perform (.release id) = (.refused (.notTop id top), s)) ∨
      (id < l.length ∧ l.isLive id = false ∧
        s.perform (.release id) = (.refused (.alreadyReleased id), s)) ∨
      (l.length ≤ id ∧ s.perform (.release id) = (.refused (.unknownFrame id), s)) := by
  have htop := h.topId?_eq
  have hlive := h.isLive_eq id
  have hknown : l.isLive id = true → id < l.length := Ledger.lt_length_of_isLive
  cases hframes : s.frames with
  | nil =>
      -- Nothing is live, and only the count of pushes tells numbers apart.
      have hdead : l.isLive id = false := by rw [← hlive, Stack.isLive, hframes]; rfl
      rcases Nat.lt_or_ge id l.length with hlt | hge
      · exact .inr (.inr (.inl ⟨hlt, hdead, by simp [perform, Stack.release, hframes, h.issued, hlt]⟩))
      · refine .inr (.inr (.inr ⟨hge, ?_⟩))
        simp [perform, Stack.release, hframes, h.issued, Nat.not_lt.2 hge]
  | cons top rest =>
      obtain ⟨top, frame⟩ := top
      rw [topId?, hframes] at htop
      have hnewest : l.newest? = some top := htop.symm
      by_cases hid : top = id
      · subst hid
        refine .inl ⟨frame, hnewest, ?_, ?_⟩
        · exact (h.live top frame).1 (hframes ▸ List.mem_cons_self)
        · simp [perform, Stack.release, hframes]
      · cases hl : l.isLive id with
        | true =>
            have hs : s.isLive id = true := hlive.trans hl
            refine .inr (.inl ⟨top, rfl, hnewest, hid, ?_⟩)
            simp [perform, Stack.release, hframes, hid, hs]
        | false =>
            have hs : s.isLive id = false := hlive.trans hl
            rcases Nat.lt_or_ge id l.length with hlt | hge
            · refine .inr (.inr (.inl ⟨hlt, rfl, ?_⟩))
              simp [perform, Stack.release, hframes, hid, hs, h.issued, hlt]
            · refine .inr (.inr (.inr ⟨hge, ?_⟩))
              simp [perform, Stack.release, hframes, hid, hs, h.issued, Nat.not_lt.2 hge]

/-- Each operation keeps the accounts, when the ledger notes it with its answer. -/
theorem perform (h : Accounts maxDepth s l) (op : Op F) :
    Accounts maxDepth (s.perform op).2 (l.note (op, (s.perform op).1)) := by
  cases op with
  | push frame =>
      rw [h.perform_push]
      split
      · next hroom => exact h.push frame hroom
      · exact h
  | release id =>
      rcases h.release_cases id with ⟨frame, hnewest, -, heq⟩ | ⟨_, -, -, -, heq⟩ | ⟨-, -, heq⟩ | ⟨-, heq⟩
      · rw [heq]
        rw [← h.topId?_eq, topId?] at hnewest
        cases hframes : s.frames with
        | nil => simp [hframes] at hnewest
        | cons top rest =>
            obtain rfl : top.1 = id := by simpa [hframes] using hnewest
            exact h.release hframes
      · rw [heq]
        exact h
      · rw [heq]
        exact h
      · rw [heq]
        exact h
  | unwind => exact h.unwind
  | setTop frame =>
      change Accounts maxDepth (s.setTop frame)
        (match l.newest? with
          | some id => l.modify id fun issue => { issue with frame }
          | none => l)
      rw [← h.topId?_eq]
      cases hframes : s.frames with
      | nil => simpa [Stack.setTop, topId?, hframes] using h
      | cons top rest => simpa [Stack.setTop, topId?, hframes] using h.setTop hframes frame

theorem after (h : Accounts maxDepth s l) (ops : List (Op F)) :
    Accounts maxDepth (s.after ops) ((s.history ops).foldl Ledger.note l) := by
  induction ops generalizing s l with
  | nil => exact h
  | cons op ops ih => exact ih (h.perform op)

end Accounts

/-- A stack and its history, for every limit and every sequence of operations.  The live frames are those
of the ledger, each as it was last stored, with rising numbers below the number of successful pushes, and
no more of them than the limit.  A push succeeds if there is room, and is given the number of successful
pushes before it.  A release of any number hands over the frame and takes it off if that number is the
newest live one; else it leaves the stack as it was and says whether the number is live below the
newest one, was issued and is not live any more, or was never issued. -/
theorem history_decides (limits : Limits) (ops : List (Op F)) :
    let s := (Stack.empty limits).after ops
    let events := (Stack.empty limits).history ops
    let l := Ledger.ofHistory events
    (l.length = pushes events ∧
      (∀ id frame, (id, frame) ∈ s.toList ↔ l[id]? = some ⟨frame, true⟩) ∧
      (s.toList.map Prod.fst).Pairwise (· < ·) ∧
      (s.toList.map Prod.fst).all (· < pushes events) ∧ s.depth ≤ limits.maxDepth) ∧
    (∀ frame, s.perform (.push frame) =
      if s.depth < limits.maxDepth then
        (.pushed (pushes events),
          { s with frames := (pushes events, frame) :: s.frames, pushed := pushes events + 1 })
      else (.refused (.depthExceeded limits.maxDepth), s)) ∧
    ∀ id t,
      (∀ frame, s.perform (.release id) = (.released frame, t) ↔
        l.newest? = some id ∧ l[id]? = some ⟨frame, true⟩ ∧ t = { s with frames := s.frames.tail }) ∧
      (∀ top, s.perform (.release id) = (.refused (.notTop id top), t) ↔
        l.isLive id ∧ l.newest? = some top ∧ top ≠ id ∧ t = s) ∧
      (s.perform (.release id) = (.refused (.alreadyReleased id), t) ↔
        id < pushes events ∧ l.isLive id = false ∧ t = s) ∧
      (s.perform (.release id) = (.refused (.unknownFrame id), t) ↔ pushes events ≤ id ∧ t = s) := by
  intro s events l
  have h : Accounts limits.maxDepth s l := (Accounts.empty limits).after ops
  have hpushes : l.length = pushes events := by
    rw [← h.issued]
    exact (pushed_after (Stack.empty limits) ops).trans (Nat.zero_add _)
  refine ⟨⟨hpushes, ?_, ?_, ?_, h.depth_le⟩, ?_, ?_⟩
  · intro id frame
    rw [toList, List.mem_reverse]
    exact h.live id frame
  · rw [toList, List.map_reverse, List.pairwise_reverse]
    exact h.latestFirst
  · rw [List.all_eq_true]
    intro id hid
    rcases List.mem_map.1 hid with ⟨⟨id, frame⟩, hmem, rfl⟩
    rw [toList, List.mem_reverse] at hmem
    rw [← hpushes, decide_eq_true_eq]
    exact Ledger.lt_length_of_isLive (Ledger.isLive_iff.2 ⟨frame, (h.live _ _).1 hmem⟩)
  · intro frame
    rw [h.perform_push, h.issued, hpushes]
  · intro id t
    -- The four cases exclude each other.
    rw [← hpushes]
    rcases h.release_cases id with ⟨frame, hnewest, hget, heq⟩ | ⟨top, hlive, hnewest, hne, heq⟩ |
      ⟨hlt, hdead, heq⟩ | ⟨hge, heq⟩
    · have hlive : l.isLive id = true := Ledger.isLive_iff.2 ⟨frame, hget⟩
      have hlt := Ledger.lt_length_of_isLive hlive
      rw [heq]
      grind
    · have hlt := Ledger.lt_length_of_isLive hlive
      rw [heq]
      grind
    · have hnew : l.newest? ≠ some id := fun hnew =>
        absurd (Ledger.newest?_eq_some.1 hnew).1 (by simp [hdead])
      rw [heq]
      grind
    · have hdead : l.isLive id ≠ true := fun hlive =>
        Nat.not_lt.2 hge (Ledger.lt_length_of_isLive hlive)
      have hnew : l.newest? ≠ some id := fun hnew => hdead (Ledger.newest?_eq_some.1 hnew).1
      rw [heq]
      grind

end Stack
end FeatureTree
