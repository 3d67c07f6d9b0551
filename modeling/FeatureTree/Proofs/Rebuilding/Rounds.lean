import FeatureTree.Rebuilding.Machine

/-!
# Rounds — what one round of rebuilding does, case by case

A round asks the innermost feature, or candidates, and then follows the answer.  Each lemma names one
way to ask or one answer, and the state or the error that it leads to.  Past the last child the frames
of the traversed node are released, which is a round of its own.
-/

namespace FeatureTree
namespace Rebuilding
namespace Machine

variable {D F I J K V Key W : Type} {Entry : Key → Type}
variable {g : Grammar D F I J K V Entry W} {source : Tree I J} {start rule : D}
variable {m m' : Machine D F K V Entry W} {s : Scene K V Entry W}
variable {id : FrameId} {rest : List (FrameId × Frame D F Entry)}
variable {feature next : F} {features : List F} {bag : Bag Key Entry} {world : W}
variable {input output node : NodeId} {step : Step (Redirect D)} {target : Redirect D}

/-! ## Who is asked -/

/-- The innermost feature is asked. -/
theorem advance_active (hnode : m.node? source = some node) (hidle : m.waiting = none)
    (hframes : m.stack.frames = (id, ⟨.feature feature bag, input, output⟩) :: rest)
    (hhandle : g.handle feature ⟨source, input, output, m.cursors.index input⟩ node
      ⟨m.tree, bag, m.world⟩ = .ok (next, step) s) :
    advance g source start m = follow g source step input node
      { m with
        tree := s.tree
        world := s.world
        stack := { m.stack with
          frames := (id, ⟨.feature next s.bag, input, output⟩) :: rest } } := by
  simp [advance, hnode, hidle, Stack.isEmpty, hframes, stepTop, Stack.top?, ask, hhandle,
    Stack.setTop]

/-- The rule of a region proposes candidates, which wait for the next round. -/
theorem advance_region (hnode : m.node? source = some node) (hidle : m.waiting = none)
    (hframes : m.stack.frames = (id, ⟨.region rule, input, output⟩) :: rest)
    (hdispatch : g.dispatch rule ⟨source, input, output, m.cursors.index input⟩ node
      ⟨m.tree, Bag.empty m.bags, m.world⟩ = (features, bag, world)) :
    advance g source start m = .ok ()
      { m with
        world := world
        waiting := some ⟨features, input, output, bag⟩
        bags := m.bags + 1 } := by
  simp [advance, hnode, hidle, Stack.isEmpty, hframes, stepTop, Stack.top?, propose, hdispatch]

/-- Waiting candidates are asked. -/
theorem advance_waiting (hnode : m.node? source = some node)
    (hwaiting : m.waiting = some ⟨features, input, output, bag⟩) :
    advance g source start m = offer g source ⟨source, input, output, m.index⟩ node features bag
      { m with waiting := none } := by
  simp [advance, hnode, hwaiting, offerGroup]

/-- When nothing is active, the start rule proposes candidates under the root. -/
theorem advance_start (hnode : m.node? source = some node) (hidle : m.waiting = none)
    (hframes : m.stack.frames = [])
    (hdispatch : g.dispatch start ⟨source, Tree.root, Tree.root, m.cursors.index Tree.root⟩ node
      ⟨m.tree, Bag.empty m.bags, m.world⟩ = (features, bag, world)) :
    advance g source start m =
      offer g source ⟨source, Tree.root, Tree.root, m.index⟩ node features bag
        { m with world := world, bags := m.bags + 1 } := by
  simp [advance, hnode, hidle, Stack.isEmpty, hframes, propose, hdispatch, offerGroup]
  rfl

/-! ## Candidates -/

section Offers

variable {cx : Context I J}

/-- The first candidate claims the child, and becomes active. -/
theorem offer_claim (hhandle : g.handle feature cx node ⟨m.tree, bag, m.world⟩ =
      .ok (next, step) s) (hclaims : step.claims = true)
    (hroom : m.stack.depth < m.stack.maxDepth) :
    offer g source cx node (feature :: features) bag m = follow g source step cx.input node
      { m with
        tree := s.tree
        world := s.world
        stack := { m.stack with
          frames := (m.stack.pushed, ⟨.feature next s.bag, cx.input, cx.output⟩) :: m.stack.frames
          pushed := m.stack.pushed + 1 } } := by
  have hpush : ¬ m.stack.maxDepth ≤ m.stack.depth := Nat.not_le.2 hroom
  simp [offer, bind, EStateM.bind, ask, hhandle, hclaims, push, Stack.push, hpush]

/-- The first candidate claims the child, but it is one too many. -/
theorem offer_overflow (hhandle : g.handle feature cx node ⟨m.tree, bag, m.world⟩ =
      .ok (next, step) s) (hclaims : step.claims = true)
    (hfull : m.stack.maxDepth ≤ m.stack.depth) :
    ∃ m', offer g source cx node (feature :: features) bag m =
      .error (.violation (.depthExceeded m.stack.maxDepth)) m' := by
  simp [offer, bind, EStateM.bind, ask, hhandle, hclaims, push, Stack.push, hfull]

/-- No candidate claims the child. -/
theorem offer_decline (hhandle : g.handle feature cx node ⟨m.tree, bag, m.world⟩ =
      .ok (next, .decline) s) :
    ∃ m', offer g source cx node [feature] bag m = .error (.unclaimed node cx.index) m' := by
  simp [offer, bind, EStateM.bind, ask, hhandle, Step.claims, Step.isDecline]

end Offers

/-! ## Answers -/

theorem follow_proceed : follow g source .proceed input node m =
    .ok () { m with cursors := m.cursors.bump input } := rfl

/-- The innermost feature leaves and finishes. -/
theorem releaseTop_feature
    (hframes : m.stack.frames = (id, ⟨.feature feature bag, input, output⟩) :: rest)
    (hexit : g.exit feature ⟨source, input, output, m.cursors.index input⟩
      ⟨m.tree, bag, m.world⟩ = .ok () s) :
    releaseTop g source m = .ok () (ascend input
      { m with
        tree := s.tree
        world := s.world
        stack := { m.stack with frames := rest } }) := by
  simp [releaseTop, Stack.pop?, hframes, finish, hexit]

theorem releaseTop_region
    (hframes : m.stack.frames = (id, ⟨.region rule, input, output⟩) :: rest) :
    releaseTop g source m =
      .ok () (ascend input { m with stack := { m.stack with frames := rest } }) := by
  simp [releaseTop, Stack.pop?, hframes]

/-- The child is handed to candidates that build under another output node. -/
theorem follow_output (hinput : target.input = none)
    (hknown : m.tree.contains target.output = true)
    (hdispatch : g.dispatch target.dispatch
      ⟨source, input, target.output, m.cursors.index input⟩ node
      ⟨m.tree, Bag.empty m.bags, m.world⟩ = (features, bag, world)) :
    follow g source (.redirect target) input node m = .ok ()
      { m with
        world := world
        waiting := some ⟨features, input, target.output, bag⟩
        bags := m.bags + 1 } := by
  simp [follow, redirect, hknown, hinput, propose, hdispatch]

section Nested

variable {nested : NodeId} {n : Node I J}

theorem follow_nested (hinput : target.input = some nested) (hother : nested ≠ input)
    (hknown : m.tree.contains target.output = true) :
    follow g source (.redirect target) input node m = descend source target nested m := by
  simp [follow, redirect, hknown, hinput, hother]

/-- A region opens. -/
theorem descend_parent (hget : source.get? nested = some n) (hparent : n.isParent = true)
    (hstart : target.start = none) (hroom : m.stack.depth < m.stack.maxDepth) :
    descend source target nested m = .ok ()
      { m with
        stack := { m.stack with
          frames := (m.stack.pushed, ⟨.region target.dispatch, nested, target.output⟩) ::
            m.stack.frames
          pushed := m.stack.pushed + 1 }
        cursors := m.cursors.set nested (m.cursors.index nested) } := by
  have hpush : ¬ m.stack.maxDepth ≤ m.stack.depth := Nat.not_le.2 hroom
  simp [descend, hget, hparent, hstart, push, Stack.push, hpush]

theorem descend_overflow (hget : source.get? nested = some n) (hparent : n.isParent = true)
    (hfull : m.stack.maxDepth ≤ m.stack.depth) :
    ∃ m', descend source target nested m =
      .error (.violation (.depthExceeded m.stack.maxDepth)) m' := by
  simp [descend, hget, hparent, push, Stack.push, hfull]

theorem descend_leaf (hget : source.get? nested = some n) (hleaf : n.isParent = false) :
    descend source target nested m =
      .error (.violation (.invalidRedirect (.leafInput nested))) m := by
  simp [descend, hget, hleaf]

end Nested

/-! ## Runs -/

theorem isFinished_of_node? (hnode : m.node? source = some node) :
    m.isFinished source = false := by
  simp [isFinished, hnode]

theorem isFinished_of_frames {frame : Frame D F Entry}
    (hframes : m.stack.frames = (id, frame) :: rest) : m.isFinished source = false := by
  simp [isFinished, Stack.isEmpty, hframes]

theorem run_of_round {rounds : Nat} (hactive : m.isFinished source = false)
    (hround : advance g source start m = .ok () m') :
    run g source start (rounds + 1) m = run g source start rounds m' := by
  rw [run, hactive, hround]
  rfl

theorem run_of_failure {e : Error} {rounds : Nat} (hactive : m.isFinished source = false)
    (hround : advance g source start m = .error e m') :
    run g source start (rounds + 1) m = (.failure e, m') := by
  rw [run, hactive, hround]
  rfl

theorem run_of_finished {rounds : Nat} (hfinished : m.isFinished source = true) :
    run g source start rounds m = (.success (), m) := by
  cases rounds <;> rw [run, hfinished] <;> rfl

/-- A run that is cut off goes on with the rounds that are added; one that has ended stays as it is. -/
theorem run_add (first more : Nat) (m : Machine D F K V Entry W) :
    run g source start (first + more) m =
      match run g source start first m with
      | (.unfinished, between) => run g source start more between
      | ended => ended := by
  induction first generalizing m with
  | zero =>
      cases hfinished : m.isFinished source with
      | true => rw [run_of_finished hfinished, run_of_finished hfinished]
      | false => simp [run, hfinished]
  | succ first ih =>
      rw [Nat.add_right_comm]
      cases hfinished : m.isFinished source with
      | true => rw [run_of_finished hfinished, run_of_finished hfinished]
      | false =>
          cases hround : advance g source start m with
          | ok _ next => rw [run_of_round hfinished hround, run_of_round hfinished hround, ih]
          | error e failed => rw [run_of_failure hfinished hround, run_of_failure hfinished hround]

/-- On the way to a success a run is cut off, or it has come there already. -/
theorem run_prefix {rounds : Nat} {last : Machine D F K V Entry W}
    (h : run g source start rounds m = (.success (), last)) (n : Nat) :
    run g source start n m = (.success (), last) ∨ ∃ between more,
      run g source start n m = (.unfinished, between) ∧
        run g source start more between = (.success (), last) := by
  rcases Nat.le_total n rounds with hle | hle
  · obtain ⟨more, rfl⟩ := Nat.exists_eq_add_of_le hle
    rw [run_add] at h
    rcases hfirst : run g source start n m with ⟨outcome, between⟩
    rw [hfirst] at h
    cases outcome with
    | success _ => exact .inl h
    | failure e => cases h
    | unfinished => exact .inr ⟨between, more, rfl, h⟩
  · obtain ⟨more, rfl⟩ := Nat.exists_eq_add_of_le hle
    rw [run_add, h]
    exact .inl rfl

end Machine
end Rebuilding
end FeatureTree
