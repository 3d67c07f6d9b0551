import FeatureTree.Reading.Machine

/-!
# Progress — every round brings the end of reading nearer

`Machine.advance_progress` says that a round that does not fail makes `Machine.measure` smaller, for
every grammar and from every state.  Three kinds of round are told apart by what they do to the
control of the machine: a character is used up, a feature leaves, or candidates come to wait.
-/

namespace FeatureTree
namespace Reading
namespace Machine

variable {D F K V Key W : Type} {Entry : Key → Type}
variable {g : Grammar D F K V Entry W} {text : SourceText}
variable {m m' : Machine F K V Entry W}

/-! ## What the parts of a round keep -/

theorem ask_control {feature : F} {ancestor : NodeId} {bag : Bag Key Entry} {c : Char}
    {answer : Frame F Entry × Step (Redirect D)}
    (h : ask g text feature ancestor bag c m = .ok answer m') :
    m'.stack = m.stack ∧ m'.waiting = m.waiting ∧ m'.offset = m.offset := by
  obtain ⟨tree, world, stack, waiting, offset, bags⟩ := m
  simp only [ask] at h
  split at h
  · cases h
    exact ⟨rfl, rfl, rfl⟩
  · cases h

theorem releaseTop_control (h : releaseTop g text m = .ok () m') :
    m'.waiting = m.waiting ∧ m'.offset = m.offset ∧
      (m.stack.pop? = none ∨ ∃ frame, m.stack.pop? = some (frame, m'.stack)) := by
  obtain ⟨tree, world, stack, waiting, offset, bags⟩ := m
  simp only [releaseTop] at h
  split at h
  · next hpop =>
      cases h
      exact ⟨rfl, rfl, .inl hpop⟩
  · next frame rest hpop =>
      split at h
      · cases h
        exact ⟨rfl, rfl, .inr ⟨frame, hpop⟩⟩
      · cases h

theorem push_control {frame : Frame F Entry} (h : push frame m = .ok () m') :
    m'.waiting = m.waiting ∧ m'.offset = m.offset ∧ m.stack.push frame = .ok m'.stack := by
  simp only [push] at h
  split at h
  · next stack hpush =>
      cases h
      exact ⟨rfl, rfl, hpush⟩
  · cases h

theorem redirect_control {target : Redirect D} {ancestor : NodeId}
    (h : redirect g text target ancestor m = .ok () m') :
    m'.waiting.isSome ∧ m'.offset = m.offset ∧ m'.stack = m.stack := by
  simp only [redirect] at h
  split at h
  · cases h
    exact ⟨rfl, rfl, rfl⟩
  · cases h

/-- What following an answer does when it does not fail: the character is used up, or candidates come to
wait, or the innermost feature leaves. -/
theorem follow_control {step : Step (Redirect D)} {ancestor : NodeId}
    (h : follow g text step ancestor m = .ok () m') :
    m'.offset = m.offset + 1 ∨
      (m'.offset = m.offset ∧ ((m'.waiting.isSome ∧ m'.stack = m.stack) ∨
        (step = .decline ∧ m'.waiting = m.waiting ∧
          (m.stack.pop? = none ∨ ∃ frame, m.stack.pop? = some (frame, m'.stack))))) := by
  cases step with
  | proceed =>
      cases h
      exact .inl rfl
  | decline =>
      obtain ⟨hw, ho, hpop⟩ := releaseTop_control h
      exact .inr ⟨ho, .inr ⟨rfl, hw, hpop⟩⟩
  | redirect target =>
      obtain ⟨hw, ho, hs⟩ := redirect_control h
      exact .inr ⟨ho, .inl ⟨hw, hs⟩⟩

/-! ## The measure -/

/-- Lexicographic order of the measure. -/
def Nearer (a b : Nat × Nat × Nat) : Prop :=
  a.1 < b.1 ∨ (a.1 = b.1 ∧ (a.2.1 < b.2.1 ∨ (a.2.1 = b.2.1 ∧ a.2.2 < b.2.2)))

theorem Nearer.rel {a b : Nat × Nat × Nat} (h : Nearer a b) : WellFoundedRelation.rel a b := by
  obtain ⟨a₁, a₂, a₃⟩ := a
  obtain ⟨b₁, b₂, b₃⟩ := b
  rcases h with h | ⟨h₁, h | ⟨h₂, h₃⟩⟩
  · exact Prod.Lex.left _ _ h
  · cases h₁
    exact Prod.Lex.right _ (Prod.Lex.left _ _ h)
  · cases h₁
    cases h₂
    exact Prod.Lex.right _ (Prod.Lex.right _ h₃)

theorem measure_of_none (h : m.waiting = none) :
    m.measure text = (text.length - m.offset, 1, m.stack.depth) := by
  simp only [measure, h]

theorem measure_of_isSome (h : m.waiting.isSome) :
    m.measure text = (text.length - m.offset, 0, m.stack.maxDepth - m.stack.depth) := by
  obtain ⟨group, h⟩ := Option.isSome_iff_exists.1 h
  simp only [measure, h]

/-- Using up a character brings the end nearer, whatever else happens. -/
theorem nearer_of_offset (hc : m.offset < text.length) (h : m'.offset = m.offset + 1) :
    Nearer (m'.measure text) (m.measure text) := by
  refine .inl ?_
  have hfirst : ∀ x : Machine F K V Entry W, (x.measure text).1 = text.length - x.offset := by
    intro x
    unfold measure
    split <;> rfl
  rw [hfirst, hfirst, h]
  omega

/-- Candidates that come to wait at the same offset bring the end nearer. -/
theorem nearer_of_waiting (hm : m.waiting = none) (hw : m'.waiting.isSome)
    (ho : m'.offset = m.offset) : Nearer (m'.measure text) (m.measure text) := by
  rw [measure_of_isSome hw, measure_of_none hm, ho]
  exact .inr ⟨rfl, .inl Nat.zero_lt_one⟩

/-- A feature that leaves while nothing waits brings the end nearer. -/
theorem nearer_of_release (hm : m.waiting = none) (hw : m'.waiting = none)
    (ho : m'.offset = m.offset) (hd : m'.stack.depth < m.stack.depth) :
    Nearer (m'.measure text) (m.measure text) := by
  rw [measure_of_none hw, measure_of_none hm, ho]
  exact .inr ⟨rfl, .inr ⟨rfl, hd⟩⟩

/-- A feature that becomes active while candidates go on waiting brings the end nearer. -/
theorem nearer_of_push (hm : m.waiting.isSome) (hw : m'.waiting.isSome)
    (ho : m'.offset = m.offset) (hmax : m'.stack.maxDepth = m.stack.maxDepth)
    (hd : m'.stack.depth = m.stack.depth + 1) (hlim : m.stack.depth < m.stack.maxDepth) :
    Nearer (m'.measure text) (m.measure text) := by
  rw [measure_of_isSome hw, measure_of_isSome hm, ho, hmax, hd]
  exact .inr ⟨rfl, .inr ⟨rfl, Nat.sub_lt_sub_left hlim (Nat.lt_succ_self _)⟩⟩

/-! ## Offers and answers -/

/-- What an offer does when it does not fail: the character is used up, or one more feature is
active and candidates wait. -/
theorem offer_control {c : Char} {ancestor : NodeId} {features : List F} {bag : Bag Key Entry}
    (h : offer g text c ancestor features bag m = .ok () m') :
    m'.offset = m.offset + 1 ∨
      (m'.offset = m.offset ∧ m'.waiting.isSome ∧ m'.stack.maxDepth = m.stack.maxDepth ∧
        m'.stack.depth = m.stack.depth + 1 ∧ m.stack.depth < m.stack.maxDepth) := by
  -- By induction on the candidates; one that declines leaves the control to the next ones.
  induction features generalizing bag m with
  | nil =>
    simp only [offer, skip] at h
    cases h
    exact .inl rfl
  | cons feature rest ih =>
    simp only [offer, bind, EStateM.bind] at h
    split at h
    · next answer m₁ hask =>
        obtain ⟨frame, step⟩ := answer
        obtain ⟨hs, -, ho⟩ := ask_control hask
        by_cases hclaims : step.claims
        · simp only [hclaims, if_true, EStateM.bind] at h
          split at h
          · next m₂ hpush =>
              obtain ⟨-, ho₂, hpush⟩ := push_control hpush
              obtain ⟨hdepth, hlim, hmax⟩ := Stack.depth_push hpush
              rw [hs] at hdepth hlim hmax
              rcases follow_control h with ho₃ | ⟨ho₃, ⟨hw, hs₃⟩ | ⟨hdecline, -⟩⟩
              · exact .inl (by rw [ho₃, ho₂, ho])
              · exact .inr ⟨by rw [ho₃, ho₂, ho], hw, by rw [hs₃, hmax], by rw [hs₃, hdepth], hlim⟩
              · rw [hdecline] at hclaims
                cases hclaims
          · cases h
        · simp only [hclaims] at h
          rcases ih h with ho₂ | ⟨ho₂, hw, hmax, hdepth, hlim⟩
          · exact .inl (by rw [ho₂, ho])
          · rw [hs] at hmax hdepth hlim
            exact .inr ⟨by rw [ho₂, ho], hw, hmax, hdepth, hlim⟩
    · cases h

/-- What asking the innermost feature does when nothing waits and it does not fail. -/
theorem stepTop_control {c : Char} (hm : m.waiting = none) (hne : m.stack.isEmpty = false)
    (h : stepTop g text c m = .ok () m') :
    m'.offset = m.offset + 1 ∨
      (m'.offset = m.offset ∧
        (m'.waiting.isSome ∨ (m'.waiting = none ∧ m'.stack.depth < m.stack.depth))) := by
  rcases hframes : m.stack.frames with _ | ⟨⟨id, top⟩, rest⟩
  · rw [Stack.isEmpty_of_nil hframes] at hne
    cases hne
  · simp only [stepTop, Stack.top?_of_cons hframes] at h
    split at h
    · next answer frame step m₁ hask =>
        obtain ⟨hs, hw, ho⟩ := ask_control hask
        rcases follow_control h with ho₂ | ⟨ho₂, ⟨hw₂, -⟩ | ⟨-, hw₂, hpop⟩⟩
        · exact .inl (ho₂.trans (congrArg (· + 1) ho))
        · exact .inr ⟨ho₂.trans ho, .inl hw₂⟩
        · -- The feature leaves, and only those below it are left.
          refine .inr ⟨ho₂.trans ho, .inr ⟨hw₂.trans (hw.trans hm), ?_⟩⟩
          rw [hs, Stack.setTop_of_cons hframes, Stack.pop?_of_cons rfl] at hpop
          rcases hpop with hnone | ⟨popped, hsome⟩
          · cases hnone
          · obtain ⟨-, hstack⟩ := Prod.mk.inj (Option.some.inj hsome)
            rw [← hstack, Stack.depth, Stack.depth, hframes]
            exact Nat.lt_succ_self _
    · cases h

/-- A round that does not fail brings the end of reading nearer. -/
theorem advance_progress {start : D} {c : Char} (hc : m.offset < text.length)
    (h : advance g text start c m = .ok () m') :
    Nearer (m'.measure text) (m.measure text) := by
  unfold advance at h
  cases hm : m.waiting with
  | some group =>
    simp only [hm] at h
    rcases offer_control h with ho | ⟨ho, hw, hmax, hdepth, hlim⟩
    · exact nearer_of_offset hc ho
    · exact nearer_of_push (by simp [hm]) hw ho hmax hdepth hlim
  | none =>
    simp only [hm] at h
    split at h
    · rcases offer_control h with ho | ⟨ho, hw, -⟩
      · exact nearer_of_offset hc ho
      · exact nearer_of_waiting hm hw ho
    · next hne =>
        rcases stepTop_control hm (by simpa using hne) h with ho | ⟨ho, hw | ⟨hw, hdepth⟩⟩
        · exact nearer_of_offset hc ho
        · exact nearer_of_waiting hm hw ho
        · exact nearer_of_release hm hw ho hdepth

end Machine
end Reading
end FeatureTree
