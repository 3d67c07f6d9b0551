import FeatureTree.Rebuilding.Machine

/-!
# Control — what one round of rebuilding can do

A round changes the output tree as its features like, but there are few things that it can do to the
control of the machine: the stack, the cursors and the waiting candidates.  `Machine.Turn` lists them,
and `Machine.advance_turn` says that a round which does not fail does one of them.

`Machine.Sound` is what every reachable state has in common: waiting candidates belong to the node that
is being traversed, and every active frame has a number that was given out.
-/

namespace FeatureTree
namespace Rebuilding

variable {D F I J K V Key W : Type} {Entry : Key → Type}

/-- The frame belongs to a region. -/
def Frame.isRegion (frame : Frame D F Entry) : Bool :=
  match frame.handler with
  | .region _ => true
  | .feature _ _ => false

namespace Machine

variable {g : Grammar D F I J K V Entry W} {source : Tree I J} {start : D}
variable {m m' : Machine D F K V Entry W}

/-- The input node that is traversed while the given frames are active. -/
def inputOf : List (FrameId × Frame D F Entry) → NodeId
  | [] => Tree.root
  | (_, frame) :: _ => frame.input

theorem input_eq_inputOf (m : Machine D F K V Entry W) : m.input = inputOf m.stack.frames := by
  unfold input Stack.top?
  rcases m.stack.frames with _ | ⟨⟨id, frame⟩, rest⟩ <;> rfl

/-! ## The parts of a round -/

/-- The innermost frame has left. -/
structure Released (m m' : Machine D F K V Entry W) (id : FrameId) (frame : Frame D F Entry)
    (rest : List (FrameId × Frame D F Entry)) : Prop where
  frames : m.stack.frames = (id, frame) :: rest
  stack : m'.stack = { m.stack with frames := rest }
  waiting : m'.waiting = m.waiting
  cursors : m'.cursors =
    if inputOf rest = frame.input then m.cursors
    else (m.cursors.erase frame.input).bump (inputOf rest)

/-- What following an answer does; `input` is the node that is traversed. -/
inductive Followed (input : NodeId) (m m' : Machine D F K V Entry W) : Prop where
  | proceeded (stack : m'.stack = m.stack) (waiting : m'.waiting = m.waiting)
      (cursors : m'.cursors = m.cursors.bump input)
  | declined (id : FrameId) (frame : Frame D F Entry)
      (rest : List (FrameId × Frame D F Entry)) (released : Released m m' id frame rest)
  | offered (group : Candidates F Entry) (stack : m'.stack = m.stack)
      (waiting : m'.waiting = some group) (traverses : group.input = input)
      (cursors : m'.cursors = m.cursors)
  | descended (frame : Frame D F Entry) (index : Nat) (region : frame.isRegion = true)
      (elsewhere : frame.input ≠ input) (stack : m.stack.push frame = .ok m'.stack)
      (waiting : m'.waiting = m.waiting) (cursors : m'.cursors = m.cursors.set frame.input index)

/-- What a round that does not fail does. -/
inductive Turn (source : Tree I J) (m m' : Machine D F K V Entry W) : Prop where
  /-- Past the last child, the frames of the traversed node leave. -/
  | exhausted (g : Grammar D F I J K V Entry W) (past : m.node? source = none)
      (released : releaseWhile g source m.input m.stack.frames { m with waiting := none } =
        .ok () m')
  /-- A candidate becomes active, and its answer is followed. -/
  | claimed (feature : F) (bag : Bag Key Entry) (output : NodeId)
      (between : Machine D F K V Entry W)
      (stack : m.stack.push ⟨.feature feature bag, m.input, output⟩ = .ok between.stack)
      (waiting : between.waiting = none) (cursors : between.cursors = m.cursors)
      (followed : Followed m.input between m')
  /-- The rule of a region proposes candidates. -/
  | proposed (group : Candidates F Entry) (stack : m'.stack = m.stack)
      (waiting : m'.waiting = some group) (traverses : group.input = m.input)
      (cursors : m'.cursors = m.cursors)
  /-- The innermost feature answers, and its answer is followed. -/
  | answered (feature : F) (bag : Bag Key Entry) (top : FrameId × Frame D F Entry)
      (rest : List (FrameId × Frame D F Entry)) (between : Machine D F K V Entry W)
      (frames : m.stack.frames = top :: rest) (acts : top.2.isRegion = false)
      (stack : between.stack =
        { m.stack with frames := (top.1, ⟨.feature feature bag, top.2.input, top.2.output⟩) :: rest })
      (idle : m.waiting = none) (waiting : between.waiting = none)
      (cursors : between.cursors = m.cursors) (followed : Followed m.input between m')

theorem ask_control {feature : F} {cx : Context I J} {bag : Bag Key Entry} {node : NodeId}
    {answer : F × Bag Key Entry × Step (Redirect D)} :
    ask g feature cx bag node m = .ok answer m' →
      m'.stack = m.stack ∧ m'.waiting = m.waiting ∧ m'.cursors = m.cursors := by
  intro h
  obtain ⟨tree, world, stack, waiting, cursors, bags⟩ := m
  simp only [ask] at h
  split at h
  · cases h
    exact ⟨rfl, rfl, rfl⟩
  · cases h

theorem finish_control {feature : F} {bag : Bag Key Entry} {input output : NodeId} :
    finish g source feature bag input output m = .ok () m' →
      m'.stack = m.stack ∧ m'.waiting = m.waiting ∧ m'.cursors = m.cursors := by
  intro h
  obtain ⟨tree, world, stack, waiting, cursors, bags⟩ := m
  simp only [finish] at h
  split at h
  · cases h
    exact ⟨rfl, rfl, rfl⟩
  · cases h

theorem ascend_control (input : NodeId) (m : Machine D F K V Entry W) :
    (ascend input m).stack = m.stack ∧ (ascend input m).waiting = m.waiting ∧
      (ascend input m).cursors =
        if inputOf m.stack.frames = input then m.cursors
        else (m.cursors.erase input).bump (inputOf m.stack.frames) := by
  unfold ascend
  rw [input_eq_inputOf]
  split
  · exact ⟨rfl, rfl, rfl⟩
  · exact ⟨rfl, rfl, rfl⟩

theorem releaseTop_control {id : FrameId} {frame : Frame D F Entry}
    {rest : List (FrameId × Frame D F Entry)} :
    m.stack.frames = (id, frame) :: rest → releaseTop g source m = .ok () m' →
      Released m m' id frame rest := by
  intro hframes h
  have hpop : m.stack.pop? = some (frame, { m.stack with frames := rest }) :=
    Stack.pop?_of_cons hframes
  simp only [releaseTop, hpop] at h
  split at h
  · cases h
    obtain ⟨hstack, hwaiting, hcursors⟩ :=
      ascend_control frame.input { m with stack := { m.stack with frames := rest } }
    exact ⟨hframes, hstack, hwaiting, hcursors⟩
  · split at h
    · next after hfinish =>
        cases h
        obtain ⟨hstack₁, hwaiting₁, hcursors₁⟩ := finish_control hfinish
        obtain ⟨hstack, hwaiting, hcursors⟩ := ascend_control frame.input after
        refine ⟨hframes, hstack.trans hstack₁, hwaiting.trans hwaiting₁, ?_⟩
        rw [hcursors, hstack₁, hcursors₁]
    · cases h

theorem push_control {frame : Frame D F Entry} :
    push frame m = .ok () m' →
      m.stack.push frame = .ok m'.stack ∧ m'.waiting = m.waiting ∧ m'.cursors = m.cursors := by
  intro h
  simp only [push] at h
  split at h
  · next stack hpush =>
      cases h
      exact ⟨hpush, rfl, rfl⟩
  · cases h

/-- Releasing goes on as long as frames traverse the same node. -/
theorem releaseWhile_cons {input : NodeId} {id : FrameId} {frame : Frame D F Entry}
    {rest : List (FrameId × Frame D F Entry)} :
    m.stack.frames = (id, frame) :: rest →
      releaseWhile g source input ((id, frame) :: rest) m = .ok () m' →
        (frame.input = input ∧ ∃ between, Released m between id frame rest ∧
            releaseWhile g source input rest between = .ok () m') ∨
          (frame.input ≠ input ∧ m' = m) := by
  intro hframes h
  unfold releaseWhile at h
  split at h
  · next heq =>
      simp only [bind, EStateM.bind] at h
      split at h
      · next between htop =>
          exact .inl ⟨heq, between, releaseTop_control hframes htop, h⟩
      · cases h
  · next hne =>
      cases h
      exact .inr ⟨hne, rfl⟩

theorem redirect_control {target : Redirect D} {input node : NodeId} :
    redirect g source target input node m = .ok () m' → Followed input m m' := by
  intro h
  unfold redirect at h
  split at h
  · simp only at h
    split at h
    · cases h
      exact .offered _ rfl rfl rfl rfl
    · next hne =>
        unfold descend at h
        split at h
        · cases h
        · split at h
          · obtain ⟨hpush, hwaiting, hcursors⟩ := push_control h
            exact .descended _ _ rfl hne hpush hwaiting hcursors
          · cases h
  · cases h

theorem follow_control {step : Step (Redirect D)} {input node : NodeId}
    (hne : m.stack.frames ≠ []) :
    follow g source step input node m = .ok () m' → Followed input m m' := by
  intro h
  cases step with
  | proceed =>
      cases h
      exact .proceeded rfl rfl rfl
  | decline =>
      rcases hframes : m.stack.frames with _ | ⟨⟨id, frame⟩, rest⟩
      · exact absurd hframes hne
      · exact .declined id frame rest (releaseTop_control hframes h)
  | redirect target =>
      exact redirect_control h

/-- An offer that does not fail ends with one candidate active, whose answer is followed. -/
theorem offer_control {cx : Context I J} {node : NodeId} {features : List F}
    {bag : Bag Key Entry} :
    offer g source cx node features bag m = .ok () m' →
      ∃ (feature : F) (bag : Bag Key Entry) (between : Machine D F K V Entry W),
        m.stack.push ⟨.feature feature bag, cx.input, cx.output⟩ = .ok between.stack ∧
          between.waiting = m.waiting ∧ between.cursors = m.cursors ∧
          Followed cx.input between m' := by
  -- By induction on the candidates: those that refuse change neither stack nor cursors.
  induction features generalizing bag m with
  | nil =>
      intro h
      cases h
  | cons feature rest ih =>
      intro h
      simp only [offer, bind, EStateM.bind] at h
      split at h
      · next answer m₁ hask =>
          obtain ⟨feature, bag, step⟩ := answer
          obtain ⟨hstack, hwaiting, hcursors⟩ := ask_control hask
          by_cases hclaims : step.claims
          · simp only [hclaims, if_true, EStateM.bind] at h
            split at h
            · next m₂ hpush =>
                obtain ⟨hpush, hwaiting₂, hcursors₂⟩ := push_control hpush
                have hne : m₂.stack.frames ≠ [] := by
                  intro hnil
                  have hdepth := (Stack.depth_push hpush).1
                  simp [Stack.depth, hnil] at hdepth
                rw [hstack] at hpush
                exact ⟨feature, bag, m₂, hpush, hwaiting₂.trans hwaiting,
                  hcursors₂.trans hcursors, follow_control hne h⟩
            · cases h
          · simp only [hclaims] at h
            obtain ⟨feature, bag, between, hpush, hwaiting₂, hcursors₂, hfollowed⟩ := ih h
            rw [hstack] at hpush
            exact ⟨feature, bag, between, hpush, hwaiting₂.trans hwaiting,
              hcursors₂.trans hcursors, hfollowed⟩
      · cases h

/-! ## Sound states -/

/-- Waiting candidates belong to the traversed node, and frames have numbers given out before. -/
structure Sound (m : Machine D F K V Entry W) : Prop where
  traverses : ∀ group, m.waiting = some group → group.input = m.input
  issued : ∀ entry ∈ m.stack.frames, entry.1 < m.stack.pushed

/-- The innermost frame proposes candidates, or it answers. -/
theorem stepTop_turn {node : NodeId} (hidle : m.waiting = none) (hne : m.stack.frames ≠ []) :
    stepTop g source node m = .ok () m' → Turn source m m' := by
  intro h
  rcases List.exists_cons_of_ne_nil hne with ⟨⟨id, frame⟩, rest, hframes⟩
  have htop : m.stack.top? = some frame := Stack.top?_of_cons hframes
  have hinput : m.input = frame.input := by rw [input_eq_inputOf, hframes, inputOf]
  unfold stepTop at h
  simp only [htop] at h
  split at h
  · cases h
    exact .proposed _ rfl rfl hinput.symm rfl
  · next feature bag hhandler =>
      split at h
      · next answer feature bag step m₁ hask =>
          obtain ⟨hstack, hwaiting, hcursors⟩ := ask_control hask
          -- The frame stays where it is, with the state that the feature turned into.
          have hset : m₁.stack.setTop ⟨.feature feature bag, frame.input, frame.output⟩ =
              { m.stack with
                frames := (id, ⟨.feature feature bag, frame.input, frame.output⟩) :: rest } := by
            rw [hstack, Stack.setTop_of_cons hframes]
          have hfollowed := follow_control (by simp [hset]) h
          refine .answered feature bag (id, frame) rest
            { m₁ with stack := m₁.stack.setTop ⟨.feature feature bag, frame.input, frame.output⟩ }
            hframes ?_ hset hidle (hwaiting.trans hidle) hcursors (hinput ▸ hfollowed)
          simp only [Frame.isRegion, hhandler]
      · cases h

/-- A round that does not fail does one of the things that are listed. -/
theorem advance_turn (hsound : Sound m) :
    advance g source start m = .ok () m' → Turn source m m' := by
  intro h
  unfold advance at h
  split at h
  -- Past the last child frames are released.
  · next hnode =>
      exact .exhausted g hnode h
  · next node hnode =>
      split at h
      -- Candidates wait, and they belong to the node that is being traversed.
      · next group hwaiting =>
          obtain ⟨feature, bag, between, hpush, hidle, hcursors, hfollowed⟩ := offer_control h
          have htraverses : group.input = m.input := hsound.traverses group hwaiting
          simp only [htraverses] at hpush hfollowed
          exact .claimed feature bag group.output between hpush hidle hcursors hfollowed
      · next hidle =>
          split at h
          -- Nothing is active, so the start rule offers candidates at the root.
          · next hempty =>
              have hroot : m.input = Tree.root := by
                rw [input_eq_inputOf, List.isEmpty_iff.1 hempty]
                rfl
              obtain ⟨feature, bag, between, hpush, hwaiting, hcursors, hfollowed⟩ :=
                offer_control h
              refine .claimed feature bag Tree.root between ?_ hwaiting hcursors ?_
              · rw [hroot]
                exact hpush
              · rw [hroot]
                exact hfollowed
          · next hfull =>
              exact stepTop_turn hidle (fun hnil => hfull (Stack.isEmpty_of_nil hnil)) h

end Machine
end Rebuilding
end FeatureTree
