import FeatureTree.Proofs.Rebuilding.Runs

/-!
# Answers — which answer a round gets, and what becomes of it

A round asks the waiting candidates or the innermost feature, and then follows the answer.
`Machine.answer?` is this answer; a round in which a region proposes candidates, or in which the frames
of a node leave, gets none.

`Machine.advance_exchange` lists the rounds by their answers.  It says more than `Machine.Turn`: a
candidate that becomes active does not decline, and the start index of a region is the one that the
answer names.
-/

namespace FeatureTree
namespace Rebuilding
namespace Machine

variable {D F I J K V Key W : Type} {Entry : Key → Type}

/-! ## The answer of a round -/

section Answers

variable (g : Grammar D F I J K V Entry W) (source : Tree I J) (start : D)

/-- The answer of the first candidate that claims the child. -/
def claim? (cx : Context I J) (node : NodeId) : List F → Bag Key Entry →
    Machine D F K V Entry W → Option (Step (Redirect D))
  | [], _, _ => none
  | feature :: rest, bag, m =>
      match ask g feature cx bag node m with
      | .ok (_, bag, step) m => if step.claims then some step else claim? cx node rest bag m
      | .error _ _ => none

/-- The answer that the round gets from a feature, if it asks one. -/
def answer? (m : Machine D F K V Entry W) : Option (Step (Redirect D)) :=
  match m.node? source with
  | none => none
  | some node =>
      match m.waiting with
      | some group =>
          claim? g ⟨source, group.input, group.output, m.index⟩ node group.features group.bag
            { m with waiting := none }
      | none =>
          match m.stack.top? with
          | none =>
              let (group, m) := m.propose g source start Tree.root Tree.root node
              claim? g ⟨source, group.input, group.output, m.index⟩ node group.features group.bag
                { m with waiting := none }
          | some top =>
              match top.handler with
              | .region _ => none
              | .feature feature bag =>
                  match ask g feature ⟨source, top.input, top.output, m.cursors.index top.input⟩ bag
                    node m with
                  | .ok (_, _, step) _ => some step
                  | .error _ _ => none

end Answers

variable {g : Grammar D F I J K V Entry W} {source : Tree I J} {start : D}
variable {m m' : Machine D F K V Entry W}

/-! ## Following an answer -/

/-- What following an answer does to the control; `input` is the node that is traversed. -/
inductive Heeds (source : Tree I J) (input : NodeId) (m m' : Machine D F K V Entry W) :
    Step (Redirect D) → Prop where
  | proceed (stack : m'.stack = m.stack) (waiting : m'.waiting = m.waiting)
      (cursors : m'.cursors = m.cursors.bump input) : Heeds source input m m' .proceed
  | decline (id : FrameId) (frame : Frame D F Entry) (rest : List (FrameId × Frame D F Entry))
      (released : Released m m' id frame rest) : Heeds source input m m' .decline
  | output (target : Redirect D) (group : Candidates F Entry) (stack : m'.stack = m.stack)
      (waiting : m'.waiting = some group) (traverses : group.input = input)
      (cursors : m'.cursors = m.cursors) : Heeds source input m m' (.redirect target)
  | descend (target : Redirect D) (nested : NodeId) (named : target.input = some nested)
      (elsewhere : nested ≠ input) (known : nested < source.size)
      (stack : m.stack.push ⟨.region target.dispatch, nested, target.output⟩ = .ok m'.stack)
      (waiting : m'.waiting = m.waiting)
      (cursors : m'.cursors =
        m.cursors.set nested (target.start.getD (m.cursors.index nested))) :
      Heeds source input m m' (.redirect target)

theorem descend_heeds {target : Redirect D} {input nested : NodeId}
    (hnamed : target.input.getD input = nested) (hne : nested ≠ input) :
    descend source target nested m = .ok () m' → Heeds source input m m' (.redirect target) := by
  intro h
  have hinput : target.input = some nested := by
    cases htarget : target.input with
    | none =>
        rw [htarget] at hnamed
        exact absurd hnamed.symm hne
    | some other =>
        rw [htarget] at hnamed
        exact congrArg some hnamed
  unfold descend at h
  split at h
  · cases h
  · next node hget =>
      split at h
      · obtain ⟨hpush, hwaiting, hcursors⟩ := push_control h
        have hknown : nested < source.size := by
          rcases Array.getElem?_eq_some_iff.1 hget with ⟨hlt, -⟩
          exact hlt
        exact .descend target nested hinput hne hknown hpush hwaiting hcursors
      · cases h

theorem follow_heeds {step : Step (Redirect D)} {input node : NodeId}
    (hne : m.stack.frames ≠ []) :
    follow g source step input node m = .ok () m' → Heeds source input m m' step := by
  intro h
  cases step with
  | proceed =>
      cases h
      exact .proceed rfl rfl rfl
  | decline =>
      rcases hframes : m.stack.frames with _ | ⟨⟨id, frame⟩, rest⟩
      · exact absurd hframes hne
      · exact .decline id frame rest (releaseTop_control hframes h)
  | redirect target =>
      change redirect g source target input node m = .ok () m' at h
      unfold redirect at h
      split at h
      · simp only at h
        split at h
        · cases h
          exact .output target _ rfl rfl rfl rfl
        · next hother => exact descend_heeds rfl hother h
      · cases h

/-- An offer that does not fail ends with one candidate active, whose answer is followed. -/
theorem offer_heeds {cx : Context I J} {node : NodeId} {features : List F}
    {bag : Bag Key Entry} :
    offer g source cx node features bag m = .ok () m' →
      ∃ step feature bag', claim? g cx node features bag m = some step ∧ step.claims = true ∧
        ∃ between : Machine D F K V Entry W,
          m.stack.push ⟨.feature feature bag', cx.input, cx.output⟩ = .ok between.stack ∧
          between.waiting = m.waiting ∧ between.cursors = m.cursors ∧
          Heeds source cx.input between m' step := by
  -- By induction on the candidates: those that refuse change neither stack nor cursors.
  induction features generalizing bag m with
  | nil =>
      intro h
      cases h
  | cons feature rest ih =>
      intro h
      simp only [offer, bind, EStateM.bind] at h
      rw [claim?]
      split at h
      · next answer m₁ hask =>
          obtain ⟨feature, bag₁, step⟩ := answer
          obtain ⟨hstack, hwaiting, hcursors⟩ := ask_control hask
          simp only [hask]
          by_cases hclaims : step.claims = true
          · simp only [hclaims, if_true, EStateM.bind] at h
            split at h
            · next m₂ hpush =>
                obtain ⟨hpush, hwaiting₂, hcursors₂⟩ := push_control hpush
                have hne : m₂.stack.frames ≠ [] := by
                  rw [(push_frames hpush).1]
                  exact List.cons_ne_nil _ _
                rw [hstack] at hpush
                refine ⟨step, feature, bag₁, if_pos hclaims, hclaims, m₂, hpush,
                  hwaiting₂.trans hwaiting, hcursors₂.trans hcursors, follow_heeds hne h⟩
            · cases h
          · simp only [hclaims] at h
            rcases ih h with ⟨step', feature', bag', hclaim, hclaims', between, hpush, hwaiting₂,
              hcursors₂, hheeds⟩
            rw [hstack] at hpush
            refine ⟨step', feature', bag', ?_, hclaims', between, hpush,
              hwaiting₂.trans hwaiting, hcursors₂.trans hcursors, hheeds⟩
            rw [if_neg hclaims]
            exact hclaim
      · cases h

/-! ## Rounds -/

/-- A round that does not fail, with the answer that it gets. -/
inductive Exchange (g : Grammar D F I J K V Entry W) (source : Tree I J) (start : D)
    (m m' : Machine D F K V Entry W) : Prop where
  /-- Past the last child, the frames of the traversed node leave. -/
  | exhausted (past : m.node? source = none) (silent : answer? g source start m = none)
      (released : releaseWhile g source m.input m.stack.frames { m with waiting := none } =
        .ok () m')
  /-- The rule of a region proposes candidates. -/
  | proposed (node : NodeId) (child : m.node? source = some node)
      (silent : answer? g source start m = none) (idle : m.waiting = none)
      (group : Candidates F Entry) (stack : m'.stack = m.stack) (waiting : m'.waiting = some group)
      (traverses : group.input = m.input) (cursors : m'.cursors = m.cursors)
  /-- A candidate becomes active: one that waited, or one of the start rule if nothing is active. -/
  | claimed (node : NodeId) (child : m.node? source = some node) (step : Step (Redirect D))
      (answer : answer? g source start m = some step) (claims : step.claims = true)
      (called : m.waiting = none → m.stack.frames = []) (feature : F) (bag : Bag Key Entry)
      (output : NodeId) (between : Machine D F K V Entry W)
      (stack : m.stack.push ⟨.feature feature bag, m.input, output⟩ = .ok between.stack)
      (idle : between.waiting = none) (cursors : between.cursors = m.cursors)
      (heeds : Heeds source m.input between m' step)
  /-- The innermost feature answers. -/
  | answered (node : NodeId) (child : m.node? source = some node) (step : Step (Redirect D))
      (answer : answer? g source start m = some step) (idle : m.waiting = none) (id : FrameId)
      (before after : F) (bag bag' : Bag Key Entry) (output : NodeId)
      (rest : List (FrameId × Frame D F Entry))
      (frames : m.stack.frames = (id, ⟨.feature before bag, m.input, output⟩) :: rest)
      (between : Machine D F K V Entry W)
      (stack : between.stack =
        { m.stack with frames := (id, ⟨.feature after bag', m.input, output⟩) :: rest })
      (waiting : between.waiting = none) (cursors : between.cursors = m.cursors)
      (heeds : Heeds source m.input between m' step)

theorem stepTop_exchange {node : NodeId} (hchild : m.node? source = some node)
    (hidle : m.waiting = none) (hne : m.stack.frames ≠ []) :
    stepTop g source node m = .ok () m' → Exchange g source start m m' := by
  intro h
  -- The innermost frame is a region, which proposes, or a feature, which answers.
  rcases List.exists_cons_of_ne_nil hne with ⟨⟨id, ⟨handler, input, output⟩⟩, rest, hframes⟩
  have htop : m.stack.top? = some ⟨handler, input, output⟩ := Stack.top?_of_cons hframes
  obtain rfl : m.input = input := by rw [input_eq_inputOf, hframes, inputOf]
  unfold stepTop at h
  simp only [htop] at h
  cases handler with
  | region rule =>
      have hsilent : answer? g source start m = none := by
        simp only [answer?, hchild, hidle, htop]
      cases h
      exact .proposed node hchild hsilent hidle _ rfl rfl rfl rfl
  | feature before bag =>
      dsimp only at h
      split at h
      · next answer after bag' step m₁ hask =>
          obtain ⟨hstack, hwaiting, hcursors⟩ := ask_control hask
          have hanswer : answer? g source start m = some step := by
            simp only [answer?, hchild, hidle, htop, hask]
          -- The frame stays where it is, with the state that the feature turned into.
          have hset : m₁.stack.setTop ⟨.feature after bag', m.input, output⟩ =
              { m.stack with
                frames := (id, ⟨.feature after bag', m.input, output⟩) :: rest } := by
            rw [hstack, Stack.setTop_of_cons hframes]
          have hheeds := follow_heeds (by simp [hset]) h
          exact .answered node hchild step hanswer hidle id before after bag bag' output rest hframes
            { m₁ with stack := m₁.stack.setTop ⟨.feature after bag', m.input, output⟩ } hset
            (hwaiting.trans hidle) hcursors hheeds
      · cases h

/-- A round that does not fail is one of those listed. -/
theorem advance_exchange (hsound : Sound m) :
    advance g source start m = .ok () m' → Exchange g source start m m' := by
  intro h
  unfold advance at h
  split at h
  · next hnode =>
      refine .exhausted hnode ?_ h
      simp only [answer?, hnode]
  · next node hnode =>
      split at h
      -- Candidates wait, and they belong to the node that is being traversed.
      · next group hwaiting =>
          rcases offer_heeds h with ⟨step, feature, bag, hclaim, hclaims, between, hpush, hidle,
            hcursors, hheeds⟩
          have hanswer : answer? g source start m = some step := by
            simp only [answer?, hnode, hwaiting]
            exact hclaim
          have htraverses : group.input = m.input := hsound.traverses group hwaiting
          simp only [htraverses] at hpush hheeds
          exact .claimed node hnode step hanswer hclaims (fun hnone => by simp [hwaiting] at hnone)
            feature bag group.output between hpush hidle hcursors hheeds
      · next hidle =>
          split at h
          -- Nothing is active, so the start rule offers candidates at the root.
          · next hempty =>
              have hframes : m.stack.frames = [] := List.isEmpty_iff.1 hempty
              have htop : m.stack.top? = none := Stack.top?_of_nil hframes
              have hroot : m.input = Tree.root := by
                rw [input_eq_inputOf, hframes]
                rfl
              rcases offer_heeds h with ⟨step, feature, bag, hclaim, hclaims, between, hpush,
                hwaiting, hcursors, hheeds⟩
              have hanswer : answer? g source start m = some step := by
                simp only [answer?, hnode, hidle, htop]
                exact hclaim
              refine .claimed node hnode step hanswer hclaims (fun _ => hframes) feature bag
                Tree.root between ?_ hwaiting hcursors ?_
              · rw [hroot]
                exact hpush
              · rw [hroot]
                exact hheeds
          · next hfull =>
              exact stepTop_exchange hnode hidle (fun hnil => hfull (Stack.isEmpty_of_nil hnil)) h

end Machine
end Rebuilding
end FeatureTree
