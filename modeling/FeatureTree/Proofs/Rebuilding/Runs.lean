import FeatureTree.Proofs.Rebuilding.Control

/-!
# Runs — rounds one after the other

`Machine.Reachable` are the states that rounds lead to from the start of a run.  All of them are sound:
a round that does not fail keeps `Machine.Sound`.
-/

namespace FeatureTree
namespace Rebuilding
namespace Machine

variable {D F I J K V Key W : Type} {Entry : Key → Type}
variable {g : Grammar D F I J K V Entry W} {source : Tree I J} {start : D}
variable {m m' : Machine D F K V Entry W}

/-! ## Runs -/

/-- One round of a run that is not finished. -/
def Round (g : Grammar D F I J K V Entry W) (source : Tree I J) (start : D)
    (m m' : Machine D F K V Entry W) : Prop :=
  m.isFinished source = false ∧ advance g source start m = .ok () m'

/-- A state that some rounds lead to from the start of a run. -/
inductive Reachable (g : Grammar D F I J K V Entry W) (source : Tree I J) (start : D) :
    Machine D F K V Entry W → Prop where
  | initial (root : Node K V) (world : W) (limits : Limits) :
      Reachable g source start (Machine.initial root world limits)
  | round {m m' : Machine D F K V Entry W} :
      Reachable g source start m → Round g source start m m' → Reachable g source start m'

/-! ## Reachable states are sound -/

theorem push_frames {s t : Stack (Frame D F Entry)} {frame : Frame D F Entry} :
    s.push frame = .ok t → t.frames = (s.pushed, frame) :: s.frames ∧ t.pushed = s.pushed + 1 := by
  intro hpush
  unfold Stack.push at hpush
  split at hpush
  · cases hpush
  · have ht := Except.ok.inj hpush
    subst ht
    exact ⟨rfl, rfl⟩

theorem issued_push {s t : Stack (Frame D F Entry)} {frame : Frame D F Entry}
    (hissued : ∀ entry ∈ s.frames, entry.1 < s.pushed) :
    s.push frame = .ok t → ∀ entry ∈ t.frames, entry.1 < t.pushed := by
  intro hpush entry hmem
  rcases push_frames hpush with ⟨hframes, hpushed⟩
  rw [hframes] at hmem
  rw [hpushed]
  rcases List.mem_cons.1 hmem with rfl | hold
  · exact Nat.lt_succ_self _
  · exact Nat.lt_succ_of_lt (hissued entry hold)

theorem Released.issued {id : FrameId} {frame : Frame D F Entry}
    {rest : List (FrameId × Frame D F Entry)} (h : Released m m' id frame rest)
    (hissued : ∀ entry ∈ m.stack.frames, entry.1 < m.stack.pushed) :
    ∀ entry ∈ m'.stack.frames, entry.1 < m'.stack.pushed := by
  intro entry hmem
  rw [h.stack] at hmem ⊢
  exact hissued entry (h.frames ▸ List.mem_cons_of_mem _ hmem)

theorem Followed.sound {input : NodeId} (h : Followed input m m') (hidle : m.waiting = none)
    (hinput : m.input = input) (hissued : ∀ entry ∈ m.stack.frames, entry.1 < m.stack.pushed) :
    Sound m' := by
  cases h with
  | proceeded stack waiting cursors =>
      refine ⟨?_, stack ▸ hissued⟩
      simp [waiting, hidle]
  | declined id frame rest released =>
      refine ⟨?_, released.issued hissued⟩
      simp [released.waiting, hidle]
  | offered group stack waiting traverses cursors =>
      refine ⟨?_, stack ▸ hissued⟩
      intro other hother
      rw [waiting] at hother
      cases hother
      -- The candidates wait at the node that was being traversed, and the stack is the same.
      rw [traverses, ← hinput, input_eq_inputOf, input_eq_inputOf, stack]
  | descended frame index region elsewhere stack waiting cursors =>
      refine ⟨?_, issued_push hissued stack⟩
      simp [waiting, hidle]

theorem releaseWhile_sound {input : NodeId} :
    ∀ {frames : List (FrameId × Frame D F Entry)} {m : Machine D F K V Entry W},
      m.stack.frames = frames → m.waiting = none →
        (∀ entry ∈ m.stack.frames, entry.1 < m.stack.pushed) →
          releaseWhile g source input frames m = .ok () m' → Sound m'
  | [], m => by
      intro hframes hidle hissued h
      cases h
      exact ⟨by simp [hidle], hissued⟩
  | (id, frame) :: rest, m => by
      intro hframes hidle hissued h
      rcases releaseWhile_cons hframes h with ⟨-, between, hreleased, hrest⟩ | ⟨-, rfl⟩
      · exact releaseWhile_sound (by rw [hreleased.stack]) (hreleased.waiting.trans hidle)
          (hreleased.issued hissued) hrest
      · exact ⟨by simp [hidle], hissued⟩

theorem Turn.sound (h : Turn source m m') (hsound : Sound m) : Sound m' := by
  cases h with
  | exhausted g past released =>
      exact releaseWhile_sound (m := { m with waiting := none }) rfl rfl hsound.issued released
  | claimed feature bag output between stack waiting cursors followed =>
      refine followed.sound waiting ?_ (issued_push hsound.issued stack)
      rw [input_eq_inputOf, (push_frames stack).1, inputOf]
  | proposed group stack waiting traverses cursors =>
      refine ⟨?_, stack ▸ hsound.issued⟩
      intro other hother
      rw [waiting] at hother
      cases hother
      rw [traverses, input_eq_inputOf, input_eq_inputOf, stack]
  | answered feature bag top rest between frames acts stack idle waiting cursors followed =>
      refine followed.sound waiting ?_ ?_
      · rw [input_eq_inputOf, input_eq_inputOf, stack, frames]
        rfl
      · intro entry hmem
        rw [stack] at hmem ⊢
        rcases List.mem_cons.1 hmem with rfl | hold
        · exact hsound.issued top (frames ▸ List.mem_cons_self)
        · exact hsound.issued entry (frames ▸ List.mem_cons_of_mem _ hold)

theorem Reachable.sound (h : Reachable g source start m) : Sound m := by
  induction h with
  | initial root world limits =>
      refine ⟨?_, ?_⟩
      · intro group hgroup
        cases hgroup
      · intro entry hmem
        cases hmem
  | round hm hround ih =>
      exact (advance_turn ih hround.2).sound ih

/-! ## The states of one run -/

/-- The state after a round, failed or not. -/
def next (g : Grammar D F I J K V Entry W) (source : Tree I J) (start : D)
    (m : Machine D F K V Entry W) : Machine D F K V Entry W :=
  match advance g source start m with
  | .ok _ m' => m'
  | .error _ m' => m'

/-- The round is part of a run and does not fail. -/
def succeeds (g : Grammar D F I J K V Entry W) (source : Tree I J) (start : D)
    (m : Machine D F K V Entry W) : Bool :=
  !m.isFinished source &&
    match advance g source start m with
    | .ok _ _ => true
    | .error _ _ => false

/-- The state after a number of rounds. -/
def stateAfter (g : Grammar D F I J K V Entry W) (source : Tree I J) (start : D)
    (m : Machine D F K V Entry W) : Nat → Machine D F K V Entry W
  | 0 => m
  | n + 1 => next g source start (stateAfter g source start m n)

theorem round_of_succeeds (h : succeeds g source start m = true) :
    Round g source start m (next g source start m) := by
  unfold succeeds at h
  unfold Round next
  rcases hadvance : advance g source start m with ⟨_, m'⟩ | ⟨e, m'⟩
  · simp only [hadvance, Bool.and_true, Bool.not_eq_true'] at h
    exact ⟨h, rfl⟩
  · simp [hadvance] at h

theorem reachable_stateAfter {n : Nat} (hm : Reachable g source start m)
    (h : ∀ j < n, succeeds g source start (stateAfter g source start m j) = true) :
    Reachable g source start (stateAfter g source start m n) := by
  induction n with
  | zero => exact hm
  | succ n ih =>
      exact (ih fun j hj => h j (Nat.lt_succ_of_lt hj)).round
        (round_of_succeeds (h n (Nat.lt_succ_self n)))

end Machine
end Rebuilding
end FeatureTree
