import FeatureTree.Proofs.Reading.Rounds

/-!
# Iterations — how many rounds and releases a reading takes

A reading is two loops: rounds as long as there is a current character, and then releases as long as
features are active.  `Iterates` counts the iterations of a loop that do not fail, and `Ends` says how
many iterations there are in all, and what they end with.

`read_ends` bounds both loops for every grammar.  Each character pays for a fixed number of rounds:
first features leave, as long as nothing waits, and then features become active, as long as candidates
wait.  The limit bounds both, and `Machine.backlog` counts what is left of it.
-/

namespace FeatureTree
namespace Reading

/-! ## Counting the iterations of a loop -/

section Loops

variable {ε σ : Type} {step : σ → Option (EStateM.Result ε σ Unit)}
variable {n : Nat} {s s' s'' : σ} {r : EStateM.Result ε σ Unit}

/-- That many iterations lead from one state to the other, and none of them fails.  Where the loop is
over, `step` gives nothing. -/
inductive Iterates (step : σ → Option (EStateM.Result ε σ Unit)) : Nat → σ → σ → Prop where
  | start (s : σ) : Iterates step 0 s s
  | more {n : Nat} {s s' s'' : σ} (before : Iterates step n s s')
      (last : step s' = some (.ok () s'')) : Iterates step (n + 1) s s''

/-- The loop ends after that many iterations, the failed one counted, with the result. -/
inductive Ends (step : σ → Option (EStateM.Result ε σ Unit)) :
    Nat → σ → EStateM.Result ε σ Unit → Prop where
  | finished {n : Nat} {s s' : σ} (before : Iterates step n s s') (ended : step s' = none) :
      Ends step n s (.ok () s')
  | failed {n : Nat} {s s' s'' : σ} {e : ε} (before : Iterates step n s s')
      (last : step s' = some (.error e s'')) : Ends step (n + 1) s (.error e s'')

theorem Iterates.cons (hfirst : step s = some (.ok () s')) :
    Iterates step n s' s'' → Iterates step (n + 1) s s'' := by
  intro h
  induction h with
  | start s => exact .more (.start _) hfirst
  | more before last ih => exact .more (ih hfirst) last

theorem Ends.cons (hfirst : step s = some (.ok () s')) :
    Ends step n s' r → Ends step (n + 1) s r := by
  intro h
  cases h with
  | finished before ended => exact .finished (before.cons hfirst) ended
  | failed before last => exact .failed (before.cons hfirst) last

end Loops

namespace Machine

variable {D F K V Key W : Type} {Entry : Key → Type}
variable {g : Grammar D F K V Entry W} {text : SourceText} {start : D} {c : Char}
variable {m m' : Machine F K V Entry W} {limit n : Nat}

/-- One iteration of the first loop; none past the end of the text. -/
def round (g : Grammar D F K V Entry W) (text : SourceText) (start : D)
    (m : Machine F K V Entry W) : Option (EStateM.Result Error (Machine F K V Entry W) Unit) :=
  (text.char? m.offset).map fun c => advance g text start c m

/-- One iteration of the second loop; none when nothing is active. -/
def release (g : Grammar D F K V Entry W) (text : SourceText) (m : Machine F K V Entry W) :
    Option (EStateM.Result Error (Machine F K V Entry W) Unit) :=
  if m.stack.isEmpty then none else some (releaseTop g text m)

theorem round_eq_some {r : EStateM.Result Error (Machine F K V Entry W) Unit} :
    round g text start m = some r →
      ∃ c, text.char? m.offset = some c ∧ advance g text start c m = r :=
  Option.map_eq_some_iff.1

/-! ## The limit holds in every round -/

/-- The machine has this limit, and no more features are active. -/
structure Fits (limit : Nat) (m : Machine F K V Entry W) : Prop where
  maxDepth : m.stack.maxDepth = limit
  depth : m.stack.depth ≤ limit

theorem Fits.of_stack (h : Fits limit m) (hstack : m'.stack = m.stack) : Fits limit m' :=
  ⟨hstack ▸ h.maxDepth, hstack ▸ h.depth⟩

theorem Fits.push {frame : Frame F Entry} (h : Fits limit m) :
    push frame m = .ok () m' → Fits limit m' := by
  intro hpush
  obtain ⟨hdepth, hroom, hmax⟩ := Stack.depth_push (push_control hpush).2.2
  rw [h.maxDepth] at hroom hmax
  refine ⟨hmax, ?_⟩
  rw [hdepth]
  exact hroom

theorem Fits.releaseTop (h : Fits limit m) : releaseTop g text m = .ok () m' →
    Fits limit m' ∧ m'.stack.depth = m.stack.depth - 1 := by
  intro hrelease
  rcases (releaseTop_control hrelease).2.2 with hnone | ⟨frame, hsome⟩
  · -- Nothing is active, and the state stays as it is.
    have hsame : m' = m := by
      obtain ⟨tree, world, stack, waiting, offset, bags⟩ := m
      have hempty : stack.pop? = none := hnone
      simp only [Machine.releaseTop, hempty] at hrelease
      cases hrelease
      rfl
    subst hsame
    refine ⟨h, ?_⟩
    rcases hframes : m'.stack.frames with _ | ⟨entry, rest⟩
    · simp [Stack.depth, hframes]
    · rw [Stack.pop?_of_cons hframes] at hnone
      cases hnone
  · obtain ⟨hdepth, hmax⟩ := Stack.depth_pop? hsome
    have hle : m'.stack.depth ≤ limit := Nat.le_trans (by omega) h.depth
    exact ⟨⟨hmax.trans h.maxDepth, hle⟩, by omega⟩

theorem Fits.follow {step : Step (Redirect D)} {ancestor : NodeId} (h : Fits limit m) :
    follow g text step ancestor m = .ok () m' → Fits limit m' := by
  intro hfollow
  cases step with
  | proceed =>
      cases hfollow
      exact h.of_stack rfl
  | decline => exact (h.releaseTop hfollow).1
  | redirect target => exact h.of_stack (redirect_control hfollow).2.2

theorem Fits.offer {ancestor : NodeId} {features : List F} {bag : Bag Key Entry} :
    Fits limit m → offer g text c ancestor features bag m = .ok () m' → Fits limit m' := by
  -- By induction on the candidates: those that refuse leave the stack alone.
  induction features generalizing bag m with
  | nil =>
      intro h hoffer
      cases hoffer
      exact h.of_stack rfl
  | cons feature rest ih =>
      intro h hoffer
      simp only [Machine.offer, bind, EStateM.bind] at hoffer
      split at hoffer
      · next answer m₁ hask =>
          obtain ⟨frame, step⟩ := answer
          have h₁ : Fits limit m₁ := h.of_stack (ask_control hask).1
          by_cases hclaims : step.claims
          · simp only [hclaims, if_true, EStateM.bind] at hoffer
            split at hoffer
            · next m₂ hpush => exact (h₁.push hpush).follow hoffer
            · cases hoffer
          · simp only [hclaims] at hoffer
            exact ih h₁ hoffer
      · cases hoffer

theorem Fits.stepTop (h : Fits limit m) : stepTop g text c m = .ok () m' → Fits limit m' := by
  intro hstep
  simp only [Machine.stepTop] at hstep
  split at hstep
  · cases hstep
    exact h
  · split at hstep
    · next answer frame step m₁ hask =>
        have h₁ : Fits limit m₁ := h.of_stack (ask_control hask).1
        -- The frame stays where it is, with the state that the feature turned into.
        have hset : Fits limit { m₁ with stack := m₁.stack.setTop frame } := by
          refine ⟨?_, ?_⟩
          · rw [Stack.maxDepth_setTop]
            exact h₁.maxDepth
          · rw [Stack.depth_setTop]
            exact h₁.depth
        exact hset.follow hstep
    · cases hstep

theorem Fits.advance (h : Fits limit m) : advance g text start c m = .ok () m' → Fits limit m' := by
  intro hadvance
  unfold Machine.advance at hadvance
  split at hadvance
  · exact Fits.offer (m := { m with waiting := none }) (h.of_stack rfl) hadvance
  · split at hadvance
    · exact Fits.offer (m := { (m.propose g text start Tree.root).2 with waiting := none })
        (h.of_stack rfl) hadvance
    · exact h.stepTop hadvance

theorem fits_initial (root : Node K V) (world : W) (limits : Limits) :
    Fits limits.maxDepth (initial root world limits : Machine F K V Entry W) :=
  ⟨rfl, Nat.zero_le _⟩

/-! ## What a character pays for -/

/-- Rounds that the current character may still see before it is used up. -/
def backlog (m : Machine F K V Entry W) : Nat :=
  match m.waiting with
  | none => m.stack.maxDepth + 1 + m.stack.depth
  | some _ => m.stack.maxDepth - m.stack.depth

theorem Fits.backlog_le (h : Fits limit m) : m.backlog ≤ 2 * limit + 1 := by
  have hmax := h.maxDepth
  have hdepth := h.depth
  unfold backlog
  split <;> omega

/-- Rounds that the rest of the text may still see. -/
def debt (text : SourceText) (m : Machine F K V Entry W) : Nat :=
  (text.length - m.offset) * (2 * m.stack.maxDepth + 2) + m.backlog

/-- A round that brings the end of reading nearer takes at least one off. -/
theorem debt_lt (h : Fits limit m) (h' : Fits limit m')
    (hnearer : Nearer (m'.measure text) (m.measure text)) : m'.debt text < m.debt text := by
  have hfirst : ∀ x : Machine F K V Entry W, (x.measure text).1 = text.length - x.offset := by
    intro x
    unfold measure
    split <;> rfl
  have hmax := h.maxDepth
  have hmax' := h'.maxDepth
  have hdepth := h.depth
  unfold debt
  rcases hnearer with hoffset | ⟨hoffset, hrest⟩
  -- A character is used up, and the next one pays for its own rounds.
  · rw [hfirst, hfirst] at hoffset
    have hbacklog := h'.backlog_le
    have hless : (text.length - m'.offset + 1) * (2 * limit + 2) ≤
        (text.length - m.offset) * (2 * limit + 2) := Nat.mul_le_mul_right _ hoffset
    rw [Nat.add_mul] at hless
    rw [hmax, hmax']
    omega
  -- The character is the same, and its backlog shrinks.
  · rw [hfirst, hfirst] at hoffset
    have hbacklog : m'.backlog < m.backlog := by
      unfold measure at hrest
      unfold backlog
      rcases hwaiting : m.waiting with _ | group <;> rcases hwaiting' : m'.waiting with _ | group' <;>
        simp only [hwaiting, hwaiting'] at hrest ⊢ <;> omega
    rw [hoffset, hmax, hmax']
    omega

theorem Fits.iterates (h : Fits limit m) (hiterates : Iterates (round g text start) n m m') :
    Fits limit m' ∧ n + m'.debt text ≤ m.debt text := by
  induction hiterates with
  | start m => exact ⟨h, Nat.le_of_eq (Nat.zero_add _)⟩
  | more before last ih =>
      rcases ih h with ⟨hfits, hdebt⟩
      rcases round_eq_some last with ⟨c, hc, hadvance⟩
      have hnext := hfits.advance hadvance
      have hless := debt_lt hfits hnext
        (advance_progress (Array.getElem?_eq_some_iff.1 hc).1 hadvance)
      exact ⟨hnext, by omega⟩

/-- Rounds on one character are bounded by the limit alone. -/
theorem Fits.iterates_le (h : Fits limit m) (hiterates : Iterates (round g text start) n m m')
    (hoffset : m'.offset = m.offset) : n ≤ 2 * limit + 1 := by
  rcases h.iterates hiterates with ⟨h', hdebt⟩
  have hbacklog := h.backlog_le
  unfold debt at hdebt
  rw [hoffset, h.maxDepth, h'.maxDepth] at hdebt
  omega

/-! ## The first loop -/

/-- The rounds come to an end. -/
theorem Fits.exists_ends (h : Fits limit m) : ∃ n r, Ends (round g text start) n m r := by
  -- By induction on the debt.
  induction hdebt : m.debt text using Nat.strongRecOn generalizing m with
  | ind debt ih =>
      rcases hround : round g text start m with _ | ⟨⟨⟩, m'⟩ | ⟨e, failed⟩
      · exact ⟨0, _, .finished (.start m) hround⟩
      · rcases round_eq_some hround with ⟨c, hc, hadvance⟩
        have h' := h.advance hadvance
        have hless := debt_lt h h'
          (advance_progress (Array.getElem?_eq_some_iff.1 hc).1 hadvance)
        rcases ih _ (hdebt ▸ hless) h' rfl with ⟨n, r, hends⟩
        exact ⟨n + 1, r, hends.cons hround⟩
      · exact ⟨1, _, .failed (.start m) hround⟩

/-- Every round takes place on a character, which pays for it. -/
theorem Fits.round_count (h : Fits limit m) (hwaiting : m.waiting = none)
    (hstack : m.stack.depth = 0) (hoffset : m.offset = 0)
    (hiterates : Iterates (round g text start) n m m') (hround : round g text start m' ≠ none) :
    n + 1 ≤ text.length * (2 * limit + 2) := by
  rcases h.iterates hiterates with ⟨h', hdebt⟩
  rcases Option.ne_none_iff_exists'.1 hround with ⟨r, hsome⟩
  rcases round_eq_some hsome with ⟨c, hc, -⟩
  have hlength : m'.offset < text.length := (Array.getElem?_eq_some_iff.1 hc).1
  have hpaid : 1 * (2 * limit + 2) ≤ (text.length - m'.offset) * (2 * limit + 2) :=
    Nat.mul_le_mul_right _ (by omega)
  have hfirst : m.backlog = limit + 1 := by
    rw [backlog, hwaiting, hstack, h.maxDepth]
  unfold debt at hdebt
  rw [hoffset, hfirst, h.maxDepth, h'.maxDepth, Nat.sub_zero] at hdebt
  omega

theorem ends_round_le {root : Node K V} {world : W} {limits : Limits}
    {r : EStateM.Result Error (Machine F K V Entry W) Unit}
    (hends : Ends (round g text start) n (initial root world limits) r) :
    n ≤ text.length * (2 * limits.maxDepth + 2) := by
  have h : Fits limits.maxDepth (initial root world limits : Machine F K V Entry W) :=
    fits_initial root world limits
  cases hends with
  | finished before ended =>
      cases before with
      | start => exact Nat.zero_le _
      | more before last => exact h.round_count rfl rfl rfl before (by simp [last])
  | failed before last => exact h.round_count rfl rfl rfl before (by simp [last])

/-! ## The second loop -/

theorem isEmpty_eq_false (hdepth : 0 < m.stack.depth) : m.stack.isEmpty = false := by
  rcases hframes : m.stack.frames with _ | ⟨entry, rest⟩
  · simp [Stack.depth, hframes] at hdepth
  · exact Stack.isEmpty_of_cons hframes

theorem releaseEach_ends (frames : List (FrameId × Frame F Entry)) :
    Fits limit m → m.stack.depth = frames.length →
      ∃ k ≤ frames.length, Ends (release g text) k m (releaseEach g text frames m) := by
  -- By induction on the frames that are left: each release takes one of them off.
  induction frames generalizing m with
  | nil =>
      intro _ hdepth
      have hempty : m.stack.isEmpty = true :=
        Stack.isEmpty_of_nil (List.length_eq_zero_iff.1 hdepth)
      exact ⟨0, Nat.le_refl _, .finished (.start m) (if_pos hempty)⟩
  | cons entry rest ih =>
      intro h hdepth
      have hactive : release g text m = some (Machine.releaseTop g text m) := by
        rw [release, isEmpty_eq_false (hdepth ▸ Nat.succ_pos _)]
        rfl
      simp only [releaseEach, bind, EStateM.bind]
      rcases hrelease : Machine.releaseTop g text m with ⟨⟨⟩, m'⟩ | ⟨e, failed⟩
      · rcases h.releaseTop hrelease with ⟨h', hdepth'⟩
        have hlength : m'.stack.depth = rest.length := by
          rw [hdepth', hdepth]
          rfl
        rcases ih h' hlength with ⟨k, hk, hends⟩
        exact ⟨k + 1, Nat.succ_le_succ hk, hends.cons (hactive.trans (congrArg some hrelease))⟩
      · exact ⟨1, Nat.succ_le_succ (Nat.zero_le _),
          .failed (.start m) (hactive.trans (congrArg some hrelease))⟩

theorem run_of_iterates (h : Iterates (round g text start) n m m') :
    run g text start m = run g text start m' := by
  induction h with
  | start m => rfl
  | more before last ih =>
      rcases round_eq_some last with ⟨c, hc, hadvance⟩
      exact ih.trans (run_of_round hc hadvance)

end Machine

/-! ## The whole reading -/

section Whole

variable {D F K V Key W : Type} {Entry : Key → Type}

/-- What a reading answers when a loop has ended with the result. -/
def answerOf {σ : Type} : EStateM.Result Error σ Unit → Except Error Unit
  | .ok _ _ => .ok ()
  | .error e _ => .error e

theorem read_eq_answerOf (g : Grammar D F K V Entry W) (start : D) (text : SourceText)
    (root : Node K V) (world : W) (limits : Limits) :
    (Reader.new g start text root world limits).read.1 =
      answerOf ((Machine.initial root world limits).run g text start) := by
  unfold Reader.read Reader.new
  dsimp only
  split <;> next hrun => rw [hrun]; rfl

/-- Reading ends for every grammar, text and limit.  There are at most `2 * maxDepth + 2` rounds for
each character, and then, if none failed, at most `maxDepth` releases; and in no part of the run do more
than `2 * maxDepth + 1` rounds leave the offset where it is. -/
theorem read_ends (g : Grammar D F K V Entry W) (start : D) (text : SourceText) (root : Node K V)
    (world : W) (limits : Limits) :
    (∃ rounds ≤ text.length * (2 * limits.maxDepth + 2), ∃ r,
      Ends (Machine.round g text start) rounds (Machine.initial root world limits) r ∧
        match r with
        | .error e _ => (Reader.new g start text root world limits).read.1 = .error e
        | .ok _ m => ∃ releases ≤ limits.maxDepth, ∃ r',
            Ends (Machine.release g text) releases m r' ∧
              (Reader.new g start text root world limits).read.1 = answerOf r') ∧
    ∀ i j m m', Iterates (Machine.round g text start) i (Machine.initial root world limits) m →
      Iterates (Machine.round g text start) j m m' → m'.offset = m.offset →
        j ≤ 2 * limits.maxDepth + 1 := by
  have hfits : Machine.Fits limits.maxDepth
      (Machine.initial root world limits : Machine F K V Entry W) :=
    Machine.fits_initial root world limits
  refine ⟨?_, fun i j m m' hm hm' hoffset => (hfits.iterates hm).1.iterates_le hm' hoffset⟩
  obtain ⟨n, r, hends⟩ : ∃ n r, Ends (Machine.round g text start) n
      (Machine.initial root world limits) r := hfits.exists_ends
  refine ⟨n, Machine.ends_round_le hends, r, hends, ?_⟩
  rw [read_eq_answerOf]
  cases hends with
  | failed before last =>
      rcases Machine.round_eq_some last with ⟨c, hc, hadvance⟩
      have hrun := (Machine.run_of_iterates before).trans (Machine.run_of_failure hc hadvance)
      rw [hrun]
      rfl
  | @finished _ _ m before ended =>
      -- Past the last character all frames are released, and the limit bounds their number.
      have hend : text.char? m.offset = none := Option.map_eq_none_iff.1 ended
      have hrun := (Machine.run_of_iterates before).trans (Machine.run_of_end hend)
      have hm := (hfits.iterates before).1
      obtain ⟨k, hk, hreleases⟩ : ∃ k ≤ m.stack.frames.length, Ends (Machine.release g text) k m
          (Machine.releaseEach g text m.stack.frames m) :=
        Machine.releaseEach_ends m.stack.frames hm rfl
      refine ⟨k, Nat.le_trans hk hm.depth, _, hreleases, ?_⟩
      rw [hrun]
      rfl

end Whole

end Reading
end FeatureTree
