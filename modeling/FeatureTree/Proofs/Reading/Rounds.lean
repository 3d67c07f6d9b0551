import FeatureTree.Reading.Reader

/-!
# Rounds — what one round of reading does, case by case

Each lemma names one answer that a feature can give, and the state or the error that the round then ends
with.  A run is one round, and then the run from the state after it.
-/

namespace FeatureTree
namespace Reading
namespace Machine

variable {D F K V Key W : Type} {Entry : Key → Type}
variable {g : Grammar D F K V Entry W} {text : SourceText} {start : D} {c : Char}
variable {m m' : Machine F K V Entry W} {s s' : Scene K V Entry W}

/-! ## The innermost feature answers -/

section Active

variable {id : FrameId} {frame : Frame F Entry} {rest : List (FrameId × Frame F Entry)}
variable {feature : F}

theorem advance_eq_stepTop (hidle : m.waiting = none)
    (hframes : m.stack.frames = (id, frame) :: rest) :
    advance g text start c m = stepTop g text c m := by
  unfold advance
  rw [hidle]
  simp [Stack.isEmpty, hframes]

theorem advance_proceed (hidle : m.waiting = none)
    (hframes : m.stack.frames = (id, frame) :: rest)
    (hhandle : g.handle frame.feature ⟨text, frame.ancestor, m.offset⟩ c
      ⟨m.tree, frame.bag, m.world⟩ = .ok (feature, .proceed) s) :
    advance g text start c m = .ok ()
      { m with
        tree := s.tree
        world := s.world
        stack := { m.stack with frames := (id, ⟨feature, frame.ancestor, s.bag⟩) :: rest }
        offset := m.offset + 1 } := by
  rw [advance_eq_stepTop hidle hframes]
  simp [stepTop, Stack.top?, hframes, ask, hhandle, follow, skip, Stack.setTop]

/-- A feature that refuses leaves the stack and finishes. -/
theorem advance_decline (hidle : m.waiting = none)
    (hframes : m.stack.frames = (id, frame) :: rest)
    (hhandle : g.handle frame.feature ⟨text, frame.ancestor, m.offset⟩ c
      ⟨m.tree, frame.bag, m.world⟩ = .ok (feature, .decline) s)
    (hexit : g.exit feature ⟨text, frame.ancestor, m.offset⟩ s = .ok () s') :
    advance g text start c m = .ok ()
      { m with
        tree := s'.tree
        world := s'.world
        stack := { m.stack with frames := rest } } := by
  rw [advance_eq_stepTop hidle hframes]
  simp [stepTop, Stack.top?, hframes, ask, hhandle, follow, releaseTop, Stack.setTop, Stack.pop?,
    hexit]

/-- A feature that refuses leaves the stack, and rejects the text when it finishes. -/
theorem advance_decline_failure {e : Error} (hidle : m.waiting = none)
    (hframes : m.stack.frames = (id, frame) :: rest)
    (hhandle : g.handle frame.feature ⟨text, frame.ancestor, m.offset⟩ c
      ⟨m.tree, frame.bag, m.world⟩ = .ok (feature, .decline) s)
    (hexit : g.exit feature ⟨text, frame.ancestor, m.offset⟩ s = .error e s') :
    ∃ m', advance g text start c m = .error e m' := by
  rw [advance_eq_stepTop hidle hframes]
  simp [stepTop, Stack.top?, hframes, ask, hhandle, follow, releaseTop, Stack.setTop, Stack.pop?,
    hexit]

theorem advance_redirect {target : Redirect D} {node : NodeId} (hidle : m.waiting = none)
    (hframes : m.stack.frames = (id, frame) :: rest)
    (hhandle : g.handle frame.feature ⟨text, frame.ancestor, m.offset⟩ c
      ⟨m.tree, frame.bag, m.world⟩ = .ok (feature, .redirect target) s)
    (hnode : target.ancestor = some node) (hknown : s.tree.contains node = true)
    {features : List F} {bag : Bag Key Entry} {world : W}
    (hdispatch : g.dispatch target.dispatch ⟨text, node, m.offset⟩
      ⟨s.tree, Bag.empty m.bags, s.world⟩ = (features, bag, world)) :
    advance g text start c m = .ok ()
      { m with
        tree := s.tree
        world := world
        stack := { m.stack with frames := (id, ⟨feature, frame.ancestor, s.bag⟩) :: rest }
        waiting := some ⟨features, node, bag⟩
        bags := m.bags + 1 } := by
  rw [advance_eq_stepTop hidle hframes]
  simp [stepTop, Stack.top?, hframes, ask, hhandle, follow, redirect, hnode, hknown, propose,
    hdispatch, Stack.setTop]

end Active

/-! ## Candidates are asked -/

section Offers

variable {features : List F} {bag : Bag Key Entry} {ancestor : NodeId} {feature next : F}

/-- When nothing is active, the start rule proposes candidates under the root. -/
theorem advance_start (hidle : m.waiting = none) (hframes : m.stack.frames = []) {world : W}
    (hdispatch : g.dispatch start ⟨text, Tree.root, m.offset⟩
      ⟨m.tree, Bag.empty m.bags, m.world⟩ = (features, bag, world)) :
    advance g text start c m =
      offer g text c Tree.root features bag { m with world := world, bags := m.bags + 1 } := by
  unfold advance
  rw [hidle]
  simp [Stack.isEmpty, hframes, propose, hdispatch, offerGroup, hidle]

/-- The first candidate uses the character. -/
theorem offer_proceed (rest : List F)
    (hhandle : g.handle feature ⟨text, ancestor, m.offset⟩ c ⟨m.tree, bag, m.world⟩ =
      .ok (next, .proceed) s) (hroom : m.stack.depth < m.stack.maxDepth) :
    offer g text c ancestor (feature :: rest) bag m = .ok ()
      { m with
        tree := s.tree
        world := s.world
        stack := { m.stack with
          frames := (m.stack.pushed, ⟨next, ancestor, s.bag⟩) :: m.stack.frames
          pushed := m.stack.pushed + 1 }
        offset := m.offset + 1 } := by
  have hpush : ¬ m.stack.maxDepth ≤ m.stack.depth := by omega
  simp [offer, bind, EStateM.bind, ask, hhandle, Step.claims, Step.isDecline, push, Stack.push,
    hpush, follow, skip]

/-- The first candidate uses the character, but it is one too many. -/
theorem offer_overflow (rest : List F)
    (hhandle : g.handle feature ⟨text, ancestor, m.offset⟩ c ⟨m.tree, bag, m.world⟩ =
      .ok (next, .proceed) s) (hfull : m.stack.maxDepth ≤ m.stack.depth) :
    ∃ m', offer g text c ancestor (feature :: rest) bag m =
      .error (.violation (.depthExceeded m.stack.maxDepth)) m' ∧ m'.tree = s.tree := by
  simp [offer, bind, EStateM.bind, ask, hhandle, Step.claims, Step.isDecline, push, Stack.push,
    hfull]

/-- The first candidate rejects the text. -/
theorem offer_failure {e : Error} (rest : List F)
    (hhandle : g.handle feature ⟨text, ancestor, m.offset⟩ c ⟨m.tree, bag, m.world⟩ =
      .error e s) :
    ∃ m', offer g text c ancestor (feature :: rest) bag m = .error e m' ∧ m'.tree = s.tree := by
  simp [offer, bind, EStateM.bind, ask, hhandle]

end Offers

/-! ## Features leave at the end -/

section Release

variable {id : FrameId} {frame : Frame F Entry} {rest : List (FrameId × Frame F Entry)}

theorem releaseAll_nil (hframes : m.stack.frames = []) : releaseAll g text m = .ok () m := by
  simp [releaseAll, hframes, releaseEach, pure, EStateM.pure]

theorem releaseAll_cons (hframes : m.stack.frames = (id, frame) :: rest)
    (hexit : g.exit frame.feature ⟨text, frame.ancestor, m.offset⟩ ⟨m.tree, frame.bag, m.world⟩ =
      .ok () s) :
    releaseAll g text m = releaseAll g text
      { m with
        tree := s.tree
        world := s.world
        stack := { m.stack with frames := rest } } := by
  simp [releaseAll, hframes, releaseEach, bind, EStateM.bind, releaseTop, Stack.pop?, hexit]

theorem releaseAll_failure {e : Error} (hframes : m.stack.frames = (id, frame) :: rest)
    (hexit : g.exit frame.feature ⟨text, frame.ancestor, m.offset⟩ ⟨m.tree, frame.bag, m.world⟩ =
      .error e s) : ∃ m', releaseAll g text m = .error e m' ∧ m'.tree = s.tree := by
  simp [releaseAll, hframes, releaseEach, bind, EStateM.bind, releaseTop, Stack.pop?, hexit]

end Release

/-! ## Runs -/

theorem run_of_end (hend : text.char? m.offset = none) :
    run g text start m = releaseAll g text m := by
  rw [run]
  split
  · rfl
  · next hc => simp [hend] at hc

/-- What a run makes of the result of its first round. -/
def goOn (g : Grammar D F K V Entry W) (text : SourceText) (start : D) :
    EStateM.Result Error (Machine F K V Entry W) Unit →
      EStateM.Result Error (Machine F K V Entry W) Unit
  | .ok _ next => run g text start next
  | .error e failed => .error e failed

theorem run_of_char (hc : text.char? m.offset = some c) :
    run g text start m = goOn g text start (advance g text start c m) := by
  rw [run]
  split
  · next hend => simp [hc] at hend
  · next other hother =>
      obtain rfl : c = other := Option.some.inj (hc.symm.trans hother)
      split <;> next hround => rw [hround, goOn]

theorem run_of_round (hc : text.char? m.offset = some c)
    (hround : advance g text start c m = .ok () m') :
    run g text start m = run g text start m' := by
  rw [run_of_char hc, hround, goOn]

theorem run_of_failure {e : Error} (hc : text.char? m.offset = some c)
    (hround : advance g text start c m = .error e m') :
    run g text start m = .error e m' := by
  rw [run_of_char hc, hround, goOn]

end Machine
end Reading
end FeatureTree
