import FeatureTree.Proofs.Feature.Chronicle
import FeatureTree.Proofs.Reading.Images

/-!
# Logged — a reading grammar that keeps a record of its calls

`Grammar.logged` behaves like the grammar it is made from, gives a tag to each feature that is proposed,
and writes every call into the world: where it happened, what it was given, and what it answered.
`Grammar.unlogged` forgets the record again, and maps runs to runs.

`Machine.Told.run` says what the record of a run looks like: its acts are a chronicle whose frames are
those on the stack, and a run that fails is halted for a reason that its error names.
-/

namespace FeatureTree
namespace Reading

variable {D F K V Key W : Type} {Entry : Key → Type}

/-! ## The record -/

/-- One call of a grammar: what it was given, and what came of it. -/
inductive Call (D F K V : Type) {Key : Type} (Entry : Key → Type) (W : Type) where
  | dispatched (rule : D) (cx : Context) (scene : Scene K V Entry W)
      (result : List F × Bag Key Entry × W)
  | handled (tag : Tag) (feature : F) (cx : Context) (c : Char) (scene : Scene K V Entry W)
      (result : EStateM.Result Error (Scene K V Entry W) (F × Step (Redirect D)))
  | exited (tag : Tag) (feature : F) (cx : Context) (scene : Scene K V Entry W)
      (result : EStateM.Result Error (Scene K V Entry W) Unit)

namespace Call

/-- What the call means for the order of calls. -/
def act : Call D F K V Entry W → Act
  | dispatched _ _ scene result => .proposed scene.bag.number result.1.length
  | handled tag _ _ _ _ (.ok (_, step) _) => .asked tag step.answer
  | handled tag _ _ _ _ (.error _ _) => .asked tag .failed
  | exited tag _ _ _ (.ok _ _) => .finished tag true
  | exited tag _ _ _ (.error _ _) => .finished tag false

/-- The error that the call ended with. -/
def error? : Call D F K V Entry W → Option Error
  | handled _ _ _ _ _ (.error e _) => some e
  | exited _ _ _ _ (.error e _) => some e
  | _ => none

end Call

/-- The world of a grammar with the record of its calls, the latest in front. -/
abbrev Record (D F K V : Type) {Key : Type} (Entry : Key → Type) (W : Type) : Type :=
  W × List (Call D F K V Entry W)

/-- The grammar with a record of its calls. -/
def Grammar.logged (g : Grammar D F K V Entry W) :
    Grammar D (Tagged F) K V Entry (Record D F K V Entry W) where
  dispatch rule cx scene :=
    let plain := scene.mapWorld Prod.fst
    let result := g.dispatch rule cx plain
    (result.1.mapIdx fun place feature => ⟨⟨scene.bag.number, place⟩, feature⟩, result.2.1,
      result.2.2, .dispatched rule cx plain result :: scene.world.2)
  handle f cx c scene :=
    let plain := scene.mapWorld Prod.fst
    let result := g.handle f.feature cx c plain
    mapResult (Scene.mapWorld fun world =>
        (world, .handled f.tag f.feature cx c plain result :: scene.world.2))
      (fun answer => (⟨f.tag, answer.1⟩, answer.2)) result
  exit f cx scene :=
    let plain := scene.mapWorld Prod.fst
    let result := g.exit f.feature cx plain
    mapResult (Scene.mapWorld fun world =>
        (world, .exited f.tag f.feature cx plain result :: scene.world.2)) id result

/-- Without the record, the grammar is as it was. -/
def Grammar.unlogged (g : Grammar D F K V Entry W) : g.logged.Hom g where
  feature := Tagged.feature
  world := Prod.fst
  dispatch rule cx s := by
    have hfeatures : ∀ features : List F,
        (features.mapIdx fun place feature => Tagged.mk ⟨s.bag.number, place⟩ feature).map
          Tagged.feature = features :=
      fun features => List.ext_getElem (by simp) (by simp)
    simp only [Grammar.logged, hfeatures]
  handle f cx c s := by
    simp only [Grammar.logged]
    rcases g.handle f.feature cx c (s.mapWorld Prod.fst) with ⟨answer, s'⟩ | ⟨e, s'⟩
    · rfl
    · rfl
  exit f cx s := by
    simp only [Grammar.logged]
    rcases g.exit f.feature cx (s.mapWorld Prod.fst) with ⟨answer, s'⟩ | ⟨e, s'⟩
    · rfl
    · rfl

namespace Machine

/-- A machine that keeps a record. -/
abbrev Logged (D F K V : Type) {Key : Type} (Entry : Key → Type) (W : Type) : Type :=
  Machine (Tagged F) K V Entry (Record D F K V Entry W)

/-- The tags of the active frames, the innermost in front. -/
def tags (m : Logged D F K V Entry W) : List (Option Tag) :=
  m.stack.frames.map fun entry => some entry.2.feature.tag

/-- What was called so far, the latest in front. -/
def acts (m : Logged D F K V Entry W) : List Act := m.world.2.map Call.act

/-- The error was raised by the last call. -/
def RaisedIn (m : Logged D F K V Entry W) (e : Error) : Prop :=
  ∃ call earlier, m.world.2 = call :: earlier ∧ call.error? = some e

/-! ## Calls in the record -/

section Calls

variable {g : Grammar D F K V Entry W} {text : SourceText} {c : Char}
variable {m m' : Logged D F K V Entry W} {limit : Nat}

variable {f : Tagged F} {ancestor : NodeId} {bag : Bag Key Entry} {e : Error}
variable {frame : Frame (Tagged F) Entry} {step : Step (Redirect D)} {id : FrameId}
variable {rest : List (FrameId × Frame (Tagged F) Entry)}

theorem ask_recorded (h : ask g.logged text f ancestor bag c m = .ok (frame, step) m') :
    frame.feature.tag = f.tag ∧ frame.ancestor = ancestor ∧ m'.stack = m.stack ∧
      m'.waiting = m.waiting ∧ m'.bags = m.bags ∧
      m'.acts = .asked f.tag step.answer :: m.acts := by
  obtain ⟨tree, ⟨world, calls⟩, stack, waiting, offset, bags⟩ := m
  simp only [ask, Grammar.logged, Scene.mapWorld] at h
  rcases hhandle : g.handle f.feature ⟨text, ancestor, offset⟩ c ⟨tree, bag, world⟩ with
    ⟨⟨feature, answer⟩, s⟩ | ⟨e, s⟩
  · simp only [hhandle, mapResult, Scene.mapWorld] at h
    cases h
    exact ⟨rfl, rfl, rfl, rfl, rfl, rfl⟩
  · simp only [hhandle, mapResult, Scene.mapWorld] at h
    cases h

theorem ask_recorded_error (h : ask g.logged text f ancestor bag c m = .error e m') :
    m'.stack = m.stack ∧ m'.acts = .asked f.tag .failed :: m.acts ∧ m'.RaisedIn e := by
  obtain ⟨tree, ⟨world, calls⟩, stack, waiting, offset, bags⟩ := m
  simp only [ask, Grammar.logged, Scene.mapWorld] at h
  rcases hhandle : g.handle f.feature ⟨text, ancestor, offset⟩ c ⟨tree, bag, world⟩ with
    ⟨answer, s⟩ | ⟨e, s⟩
  · simp only [hhandle, mapResult, Scene.mapWorld] at h
    cases h
  · simp only [hhandle, mapResult, Scene.mapWorld] at h
    cases h
    exact ⟨rfl, rfl, _, _, rfl, rfl⟩

theorem releaseTop_recorded (hframes : m.stack.frames = (id, frame) :: rest)
    (h : releaseTop g.logged text m = .ok () m') :
    m'.stack = { m.stack with frames := rest } ∧ m'.waiting = m.waiting ∧ m'.bags = m.bags ∧
      m'.acts = .finished frame.feature.tag true :: m.acts := by
  obtain ⟨tree, ⟨world, calls⟩, ⟨frames, pushed, maxDepth⟩, waiting, offset, bags⟩ := m
  obtain rfl : frames = (id, frame) :: rest := hframes
  simp only [releaseTop, Stack.pop?, Grammar.logged, Scene.mapWorld] at h
  rcases hexit : g.exit frame.feature.feature ⟨text, frame.ancestor, offset⟩
    ⟨tree, frame.bag, world⟩ with ⟨_, s⟩ | ⟨e, s⟩
  · simp only [hexit, mapResult, Scene.mapWorld] at h
    cases h
    exact ⟨rfl, rfl, rfl, rfl⟩
  · simp only [hexit, mapResult, Scene.mapWorld] at h
    cases h

theorem releaseTop_recorded_error (hframes : m.stack.frames = (id, frame) :: rest)
    (h : releaseTop g.logged text m = .error e m') :
    m'.stack = { m.stack with frames := rest } ∧
      m'.acts = .finished frame.feature.tag false :: m.acts ∧ m'.RaisedIn e := by
  obtain ⟨tree, ⟨world, calls⟩, ⟨frames, pushed, maxDepth⟩, waiting, offset, bags⟩ := m
  obtain rfl : frames = (id, frame) :: rest := hframes
  simp only [releaseTop, Stack.pop?, Grammar.logged, Scene.mapWorld] at h
  rcases hexit : g.exit frame.feature.feature ⟨text, frame.ancestor, offset⟩
    ⟨tree, frame.bag, world⟩ with ⟨_, s⟩ | ⟨e, s⟩
  · simp only [hexit, mapResult, Scene.mapWorld] at h
    cases h
  · simp only [hexit, mapResult, Scene.mapWorld] at h
    cases h
    exact ⟨rfl, rfl, _, _, rfl, rfl⟩

end Calls

/-! ## The record as a chronicle -/

/-- The record is a chronicle of the frames on the stack. -/
structure Kept (limit : Nat) (m : Logged D F K V Entry W) : Prop where
  maxDepth : m.stack.maxDepth = limit
  chronicle : Chronicle limit m.tags m.acts
  numbered : NumberedBelow m.bags m.acts

/-- The record is a chronicle, and candidates that wait have not been asked. -/
structure Told (limit : Nat) (m : Logged D F K V Entry W) : Prop extends Kept limit m where
  waiting : ∀ candidates, m.waiting = some candidates →
    ∃ group count, Offered group count 0 (candidates.features.map Tagged.tag) m.acts

/-- The error of a run names the reason why it was halted. -/
def Explains (limit : Nat) (m : Logged D F K V Entry W) (e : Error) : Ending → Prop
  | .raised => m.RaisedIn e
  | .claimOverflow => e = .violation (.depthExceeded limit)
  | .misdirected => ∃ node, e = .violation (.invalidRedirect (.ancestor node))
  | .openOverflow => False
  | .unclaimed => False

/-- The run was halted for a reason that its error names. -/
def Halted (limit : Nat) (e : Error) (m : Logged D F K V Entry W) : Prop :=
  ∃ ending, Halts limit m.tags m.acts ending ∧ m.Explains limit e ending

/-- A result with a record in order: the run goes on, or it was halted. -/
def Recorded (limit : Nat) :
    EStateM.Result Error (Logged D F K V Entry W) Unit → Prop
  | .ok _ m => Told limit m
  | .error e m => Halted limit e m

section Rounds

variable {g : Grammar D F K V Entry W} {text : SourceText} {start : D} {c : Char}
variable {m m' : Logged D F K V Entry W} {limit : Nat} {ancestor : NodeId} {id : FrameId}
variable {frame : Frame (Tagged F) Entry} {rest : List (FrameId × Frame (Tagged F) Entry)}

theorem tags_of_frames (hframes : m.stack.frames = (id, frame) :: rest) :
    m.tags = some frame.feature.tag :: rest.map fun entry => some entry.2.feature.tag := by
  rw [tags, hframes]
  rfl

theorem Kept.told (h : Kept limit m) (hidle : m.waiting = none) : Told limit m :=
  ⟨h, fun _ hwaiting => absurd hwaiting (by simp [hidle])⟩

/-- The record does not tell whether candidates wait. -/
theorem Kept.withWaiting (h : Kept limit m) (waiting : Option (Candidates (Tagged F) Entry)) :
    Kept limit { m with waiting } :=
  ⟨h.maxDepth, h.chronicle, h.numbered⟩

/-- A dispatch rule is called: its candidates may wait, or be asked at once. -/
theorem Kept.propose (h : Kept limit m) (g : Grammar D F K V Entry W) (text : SourceText) (rule : D)
    (ancestor : NodeId) :
    let proposal := m.propose g.logged text rule ancestor
    Kept limit proposal.2 ∧
      ∃ group count, Offered group count 0 (proposal.1.features.map Tagged.tag) proposal.2.acts := by
  intro proposal
  let features := (g.dispatch rule ⟨text, ancestor, m.offset⟩ ⟨m.tree, Bag.empty m.bags, m.world.1⟩).1
  have hacts : proposal.2.acts = .proposed m.bags features.length :: m.acts := rfl
  have htags : proposal.1.features.map Tagged.tag =
      (List.range features.length).map (Tag.mk m.bags) :=
    List.ext_getElem (by simp [proposal, Machine.propose, Grammar.logged, features, Scene.mapWorld])
      (by simp [proposal, Machine.propose, Grammar.logged, Bag.empty])
  refine ⟨⟨h.maxDepth, ?_, ?_⟩, m.bags, features.length, ?_⟩
  · rw [hacts]
    exact h.chronicle.proposed _ h.numbered.fresh
  · rw [hacts]
    exact h.numbered.proposed _
  · rw [hacts, htags]
    exact Offered.start h.chronicle h.numbered.fresh _

/-- The innermost feature redirects. -/
theorem Kept.redirect {tag : Tag} {frames : List (Option Tag)} {earlier : List Act} (h : Kept limit m)
    (htags : m.tags = some tag :: frames) (hacts : m.acts = .asked tag .claimed :: earlier)
    (target : Redirect D) : Recorded limit (redirect g.logged text target ancestor m) := by
  simp only [Machine.redirect]
  split
  · rcases h.propose g text target.dispatch (target.ancestor.getD ancestor) with
      ⟨hkept, group, count, hoffered⟩
    refine ⟨hkept.withWaiting _, ?_⟩
    rintro _ ⟨rfl⟩
    exact ⟨group, count, hoffered⟩
  · refine ⟨.misdirected, ?_, _, rfl⟩
    have hchronicle := h.chronicle
    rw [htags, hacts] at hchronicle
    rw [htags, hacts]
    exact .misdirected hchronicle

/-- The innermost feature has claimed the character, and its answer is followed. -/
theorem Kept.follow {tag : Tag} {frames : List (Option Tag)} {earlier : List Act} (h : Kept limit m)
    (hidle : m.waiting = none) (htags : m.tags = some tag :: frames)
    (hacts : m.acts = .asked tag .claimed :: earlier) {step : Step (Redirect D)}
    (hclaims : step.claims) : Recorded limit (follow g.logged text step ancestor m) := by
  cases step with
  | proceed => exact Kept.told ⟨h.maxDepth, h.chronicle, h.numbered⟩ hidle
  | decline => cases hclaims
  | redirect target => exact h.redirect htags hacts target

/-- The innermost feature has declined, leaves and finishes. -/
theorem Recorded.leave {earlier : List Act} (hmax : m.stack.maxDepth = limit)
    (hnumbered : NumberedBelow m.bags m.acts) (hidle : m.waiting = none)
    (hframes : m.stack.frames = (id, frame) :: rest)
    (hacts : m.acts = .asked frame.feature.tag .declined :: earlier)
    (hchronicle : Chronicle limit m.tags earlier) :
    Recorded limit (releaseTop g.logged text m) := by
  rw [tags_of_frames hframes] at hchronicle
  rcases hrelease : releaseTop g.logged text m with ⟨⟨⟩, m'⟩ | ⟨e, m'⟩
  · obtain ⟨hstack, hwaiting, hbags, hacts'⟩ := releaseTop_recorded hframes hrelease
    refine Kept.told ⟨by rw [hstack]; exact hmax, ?_, ?_⟩ (hwaiting.trans hidle)
    · rw [tags, hstack, hacts', hacts]
      exact hchronicle.left
    · rw [hbags, hacts']
      exact hnumbered.called ⟨_, rfl⟩
  · obtain ⟨hstack, hacts', hraised⟩ := releaseTop_recorded_error hframes hrelease
    refine ⟨.raised, ?_, hraised⟩
    rw [tags, hstack, hacts', hacts]
    exact .leaveFailed hchronicle

/-- A candidate that claimed the character becomes active, unless the stack is full. -/
theorem Recorded.claim {earlier : List Act} {step : Step (Redirect D)}
    (hmax : m.stack.maxDepth = limit) (hnumbered : NumberedBelow m.bags m.acts)
    (hidle : m.waiting = none) (hacts : m.acts = .asked frame.feature.tag .claimed :: earlier)
    (hchronicle : Chronicle limit m.tags earlier) (hnew : IsNew frame.feature.tag earlier)
    (hclaims : step.claims) :
    Recorded limit ((push frame >>= fun _ => follow g.logged text step ancestor) m) := by
  have hlength : m.tags.length = m.stack.depth := List.length_map _
  simp only [bind, EStateM.bind]
  rcases Nat.lt_or_ge m.stack.depth limit with hroom | hfull
  · let m' : Logged D F K V Entry W := { m with stack := { m.stack with
      frames := (m.stack.pushed, frame) :: m.stack.frames
      pushed := m.stack.pushed + 1 } }
    have hpush : push frame m = .ok () m' := by
      simp [m', push, Stack.push, hmax, Nat.not_le_of_lt hroom]
    have htags : m'.tags = some frame.feature.tag :: m.tags := rfl
    have hactive : Chronicle limit m'.tags m'.acts := by
      change Chronicle limit m'.tags m.acts
      rw [htags, hacts]
      exact hchronicle.claimed hnew (hlength ▸ hroom)
    rw [hpush]
    exact Kept.follow (m := m') ⟨hmax, hactive, hnumbered⟩ hidle htags hacts hclaims
  · have hpush : push frame m = .error (.violation (.depthExceeded limit)) m := by
      simp [push, Stack.push, hmax, hfull]
    rw [hpush]
    refine ⟨.claimOverflow, ?_, rfl⟩
    rw [hacts]
    exact .claimOverflow hchronicle hnew (Nat.le_antisymm hchronicle.length_le (hlength ▸ hfull))

/-- Candidates are asked, one after the other. -/
theorem Kept.offer {group count place : Nat} {features : List (Tagged F)} {bag : Bag Key Entry} :
    Kept limit m → m.waiting = none → Offered group count place (features.map Tagged.tag) m.acts →
      Recorded limit (offer g.logged text c ancestor features bag m) := by
  -- By induction on the candidates; each that declines leaves the next ones in line.
  induction features generalizing place bag m with
  | nil =>
      intro h hidle _
      exact Kept.told ⟨h.maxDepth, h.chronicle, h.numbered⟩ hidle
  | cons feature features ih =>
      intro h hidle hoffered
      have hnew := hoffered.isNew
      simp only [Machine.offer, bind, EStateM.bind]
      rcases hask : ask g.logged text feature ancestor bag c m with ⟨⟨frame, step⟩, m₁⟩ | ⟨e, m₁⟩
      · obtain ⟨htag, -, hstack, hwaiting, hbags, hacts⟩ := ask_recorded hask
        have htags : m₁.tags = m.tags := by rw [tags, hstack, tags]
        have hmax : m₁.stack.maxDepth = limit := by rw [hstack]; exact h.maxDepth
        have hnumbered : NumberedBelow m₁.bags m₁.acts := by
          rw [hbags, hacts]
          exact h.numbered.called ⟨_, rfl⟩
        have hchronicle := h.chronicle
        rw [← htags] at hchronicle
        by_cases hclaims : step.claims
        · rw [Step.answer, if_pos hclaims] at hacts
          rw [← htag] at hacts hnew
          simp only [hclaims, if_true]
          exact Recorded.claim hmax hnumbered (hwaiting.trans hidle) hacts hchronicle hnew hclaims
        · rw [Step.answer, if_neg hclaims] at hacts
          simp only [hclaims]
          have hkept : Kept limit m₁ := by
            refine ⟨hmax, ?_, hnumbered⟩
            rw [hacts]
            exact hchronicle.declined hnew
          have hnext : Offered group count (place + 1) (features.map Tagged.tag) m₁.acts := by
            rw [hacts]
            exact hoffered.next
          exact ih hkept (hwaiting.trans hidle) hnext
      · obtain ⟨hstack, hacts, hraised⟩ := ask_recorded_error hask
        refine ⟨.raised, ?_, hraised⟩
        rw [tags, hstack, hacts]
        exact .candidateFailed h.chronicle hnew

/-- The innermost feature is asked. -/
theorem Kept.stepTop (h : Kept limit m) (hidle : m.waiting = none)
    (hframes : m.stack.frames = (id, frame) :: rest) :
    Recorded limit (stepTop g.logged text c m) := by
  have htop : m.stack.top? = some frame := Stack.top?_of_cons hframes
  have hchronicle := h.chronicle
  rw [tags_of_frames hframes] at hchronicle
  simp only [Machine.stepTop, htop]
  rcases hask : ask g.logged text frame.feature frame.ancestor frame.bag c m with
    ⟨⟨next, step⟩, m₁⟩ | ⟨e, m₁⟩
  · obtain ⟨htag, -, hstack, hwaiting, hbags, hacts⟩ := ask_recorded hask
    let m₂ : Logged D F K V Entry W := { m₁ with stack := m₁.stack.setTop next }
    have hframes₂ : m₂.stack.frames = (id, next) :: rest := by
      simp only [m₂, hstack, Stack.setTop_of_cons hframes]
    have hmax : m₂.stack.maxDepth = limit := by
      rw [Stack.maxDepth_setTop, hstack]
      exact h.maxDepth
    have htags : m₂.tags =
        some frame.feature.tag :: rest.map fun entry => some entry.2.feature.tag := by
      rw [tags_of_frames hframes₂, htag]
    have hnumbered : NumberedBelow m₁.bags m₁.acts := by
      rw [hbags, hacts]
      exact h.numbered.called ⟨_, rfl⟩
    by_cases hclaims : step.claims
    · rw [Step.answer, if_pos hclaims] at hacts
      refine Kept.follow (m := m₂) ⟨hmax, ?_, hnumbered⟩ (hwaiting.trans hidle) htags hacts hclaims
      change Chronicle limit m₂.tags m₁.acts
      rw [htags, hacts]
      exact hchronicle.stayed
    · obtain rfl := Step.eq_decline hclaims
      rw [Step.answer, if_neg hclaims] at hacts
      refine Recorded.leave (m := m₂) hmax hnumbered (hwaiting.trans hidle) hframes₂ (htag ▸ hacts) ?_
      rw [htags]
      exact hchronicle
  · obtain ⟨hstack, hacts, hraised⟩ := ask_recorded_error hask
    refine ⟨.raised, ?_, hraised⟩
    rw [tags, hstack, hframes, hacts]
    exact .featureFailed hchronicle

/-- One round. -/
theorem Told.advance (h : Told limit m) (g : Grammar D F K V Entry W) (text : SourceText) (start : D)
    (c : Char) : Recorded limit (advance g.logged text start c m) := by
  unfold Machine.advance
  rcases hwaiting : m.waiting with _ | candidates
  · dsimp only
    rcases hframes : m.stack.frames with _ | ⟨⟨id, frame⟩, rest⟩
    · rw [if_pos (Stack.isEmpty_of_nil hframes)]
      rcases h.toKept.propose g text start Tree.root with ⟨hkept, group, count, hoffered⟩
      exact (hkept.withWaiting none).offer rfl hoffered
    · rw [Stack.isEmpty_of_cons hframes, if_neg Bool.false_ne_true]
      exact h.toKept.stepTop hwaiting hframes
  · rcases h.waiting candidates hwaiting with ⟨group, count, hoffered⟩
    exact (h.toKept.withWaiting none).offer rfl hoffered

/-- At the end all frames leave, the innermost first. -/
theorem Kept.releaseEach {frames : List (FrameId × Frame (Tagged F) Entry)} :
    Kept limit m → m.stack.frames = frames →
      match releaseEach g.logged text frames m with
      | .ok _ m' => Kept limit m' ∧ m'.stack.frames = []
      | .error e m' => Halted limit e m' := by
  induction frames generalizing m with
  | nil => exact fun h hframes => ⟨h, hframes⟩
  | cons entry rest ih =>
      intro h hframes
      obtain ⟨id, frame⟩ := entry
      have hchronicle := h.chronicle
      rw [tags_of_frames hframes] at hchronicle
      simp only [Machine.releaseEach, bind, EStateM.bind]
      rcases hrelease : releaseTop g.logged text m with ⟨⟨⟩, m'⟩ | ⟨e, m'⟩
      · obtain ⟨hstack, -, hbags, hacts⟩ := releaseTop_recorded hframes hrelease
        have hnext : Chronicle limit m'.tags m'.acts := by
          rw [tags, hstack, hacts]
          exact hchronicle.finished
        have hmax : m'.stack.maxDepth = limit := by rw [hstack]; exact h.maxDepth
        have hnumbered : NumberedBelow m'.bags m'.acts := by
          rw [hbags, hacts]
          exact h.numbered.called ⟨_, rfl⟩
        exact ih ⟨hmax, hnext, hnumbered⟩ (by rw [hstack])
      · obtain ⟨hstack, hacts, hraised⟩ := releaseTop_recorded_error hframes hrelease
        refine ⟨.raised, ?_, hraised⟩
        rw [tags, hstack, hacts]
        exact .finishFailed hchronicle

variable (g text start) in
/-- A run that succeeds keeps its record in order and leaves no frame; a run that fails was halted. -/
theorem Told.run (h : Told limit m) (hfits : Fits limit m) :
    match run g.logged text start m with
    | .ok _ m' => Kept limit m' ∧ m'.stack.frames = []
    | .error e m' => Halted limit e m' := by
  -- By induction on the rounds that are left.
  induction hdebt : m.debt text using Nat.strongRecOn generalizing m with
  | ind debt ih =>
      rcases hc : text.char? m.offset with _ | c
      · rw [run_of_end hc]
        exact h.toKept.releaseEach rfl
      · rw [run_of_char hc]
        have hround := h.advance g text start c
        rcases hadvance : Machine.advance g.logged text start c m with ⟨⟨⟩, next⟩ | ⟨e, failed⟩
        · rw [hadvance] at hround
          have hnext := hfits.advance hadvance
          have hless := debt_lt hfits hnext
            (advance_progress (Array.getElem?_eq_some_iff.1 hc).1 hadvance)
          exact ih _ (hdebt ▸ hless) hround hnext rfl
        · rw [hadvance] at hround
          exact hround

theorem told_initial (root : Node K V) (world : W) (limits : Limits) :
    Told limits.maxDepth (initial root (world, []) limits : Logged D F K V Entry W) :=
  Kept.told ⟨rfl, .start, by simp [NumberedBelow, acts, initial]⟩ rfl

end Rounds

end Machine

end Reading
end FeatureTree
