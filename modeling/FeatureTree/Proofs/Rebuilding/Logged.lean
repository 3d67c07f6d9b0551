import FeatureTree.Proofs.Feature.Chronicle
import FeatureTree.Proofs.Rebuilding.Images
import FeatureTree.Proofs.Rebuilding.Rounds

/-!
# Logged — a rebuilding grammar that keeps a record of its calls

`Grammar.logged` behaves like the grammar it is made from, gives a tag to each feature that is proposed,
and writes every call into the world: where it happened, what it was given, and what it answered.
`Grammar.unlogged` forgets the record again, and maps runs to runs.

`Machine.Told.run` says what the record of a run looks like: its acts are a chronicle whose frames are
those on the stack, where the frame of a region has no tag, and a run that fails is halted for a reason
that its error names.
-/

namespace FeatureTree
namespace Rebuilding

variable {D F I J K V Key W : Type} {Entry : Key → Type}

/-! ## The record -/

/-- One call of a grammar: what it was given, and what came of it. -/
inductive Call (D F I J K V : Type) {Key : Type} (Entry : Key → Type) (W : Type) where
  | dispatched (rule : D) (cx : Context I J) (node : NodeId) (scene : Scene K V Entry W)
      (result : List F × Bag Key Entry × W)
  | handled (tag : Tag) (feature : F) (cx : Context I J) (node : NodeId) (scene : Scene K V Entry W)
      (result : EStateM.Result Error (Scene K V Entry W) (F × Step (Redirect D)))
  | exited (tag : Tag) (feature : F) (cx : Context I J) (scene : Scene K V Entry W)
      (result : EStateM.Result Error (Scene K V Entry W) Unit)

namespace Call

/-- What the call means for the order of calls. -/
def act : Call D F I J K V Entry W → Act
  | dispatched _ _ _ scene result => .proposed scene.bag.number result.1.length
  | handled tag _ _ _ _ (.ok (_, step) _) => .asked tag step.answer
  | handled tag _ _ _ _ (.error _ _) => .asked tag .failed
  | exited tag _ _ _ (.ok _ _) => .finished tag true
  | exited tag _ _ _ (.error _ _) => .finished tag false

/-- The error that the call ended with. -/
def error? : Call D F I J K V Entry W → Option Error
  | handled _ _ _ _ _ (.error e _) => some e
  | exited _ _ _ _ (.error e _) => some e
  | _ => none

/-- Where a call of a feature redirected to, and from where. -/
def redirect? : Call D F I J K V Entry W → Option (Context I J × Redirect D)
  | handled _ _ cx _ _ (.ok (_, .redirect target) _) => some (cx, target)
  | _ => none

end Call

/-- The world of a grammar with the record of its calls, the latest in front. -/
abbrev Record (D F I J K V : Type) {Key : Type} (Entry : Key → Type) (W : Type) : Type :=
  W × List (Call D F I J K V Entry W)

/-- The grammar with a record of its calls. -/
def Grammar.logged (g : Grammar D F I J K V Entry W) :
    Grammar D (Tagged F) I J K V Entry (Record D F I J K V Entry W) where
  dispatch rule cx node scene :=
    let plain := scene.mapWorld Prod.fst
    let result := g.dispatch rule cx node plain
    (result.1.mapIdx fun place feature => ⟨⟨scene.bag.number, place⟩, feature⟩, result.2.1,
      result.2.2, .dispatched rule cx node plain result :: scene.world.2)
  handle f cx node scene :=
    let plain := scene.mapWorld Prod.fst
    let result := g.handle f.feature cx node plain
    mapResult (Scene.mapWorld fun world =>
        (world, .handled f.tag f.feature cx node plain result :: scene.world.2))
      (fun answer => (⟨f.tag, answer.1⟩, answer.2)) result
  exit f cx scene :=
    let plain := scene.mapWorld Prod.fst
    let result := g.exit f.feature cx plain
    mapResult (Scene.mapWorld fun world =>
        (world, .exited f.tag f.feature cx plain result :: scene.world.2)) id result

/-- Without the record, the grammar is as it was. -/
def Grammar.unlogged (g : Grammar D F I J K V Entry W) : g.logged.Hom g where
  feature := Tagged.feature
  world := Prod.fst
  dispatch rule cx node s := by
    have hfeatures : ∀ features : List F,
        (features.mapIdx fun place feature => Tagged.mk ⟨s.bag.number, place⟩ feature).map
          Tagged.feature = features :=
      fun features => List.ext_getElem (by simp) (by simp)
    simp only [Grammar.logged, hfeatures]
  handle f cx node s := by
    simp only [Grammar.logged]
    rcases g.handle f.feature cx node (s.mapWorld Prod.fst) with ⟨answer, s'⟩ | ⟨e, s'⟩
    · rfl
    · rfl
  exit f cx s := by
    simp only [Grammar.logged]
    rcases g.exit f.feature cx (s.mapWorld Prod.fst) with ⟨answer, s'⟩ | ⟨e, s'⟩
    · rfl
    · rfl

/-- The tag of the feature that acts for the frame; none in a region. -/
def Frame.tag? (frame : Frame D (Tagged F) Entry) : Option Tag :=
  match frame.handler with
  | .feature feature _ => some feature.tag
  | .region _ => none

namespace Machine

/-- A machine that keeps a record. -/
abbrev Logged (D F I J K V : Type) {Key : Type} (Entry : Key → Type) (W : Type) : Type :=
  Machine D (Tagged F) K V Entry (Record D F I J K V Entry W)

/-- The tags of the active frames, the innermost in front. -/
def tags (m : Logged D F I J K V Entry W) : List (Option Tag) :=
  m.stack.frames.map fun entry => entry.2.tag?

/-- What was called so far, the latest in front. -/
def acts (m : Logged D F I J K V Entry W) : List Act := m.world.2.map Call.act

/-- The error was raised by the last call. -/
def RaisedIn (m : Logged D F I J K V Entry W) (e : Error) : Prop :=
  ∃ call earlier, m.world.2 = call :: earlier ∧ call.error? = some e

/-- The last call redirected. -/
def RedirectedBy (m : Logged D F I J K V Entry W) (cx : Context I J) (target : Redirect D) : Prop :=
  ∃ call earlier, m.world.2 = call :: earlier ∧ call.redirect? = some (cx, target)

/-! ## Calls in the record -/

section Calls

variable {g : Grammar D F I J K V Entry W} {source : Tree I J} {node : NodeId}
variable {m m' : Logged D F I J K V Entry W} {f next : Tagged F} {cx : Context I J}
variable {bag bag' : Bag Key Entry} {step : Step (Redirect D)} {e : Error} {id : FrameId}
variable {frame : Frame D (Tagged F) Entry} {rest : List (FrameId × Frame D (Tagged F) Entry)}
variable {input output : NodeId} {rule : D}

theorem ask_recorded (h : ask g.logged f cx bag node m = .ok (next, bag', step) m') :
    next.tag = f.tag ∧ m'.stack = m.stack ∧ m'.waiting = m.waiting ∧ m'.bags = m.bags ∧
      m'.acts = .asked f.tag step.answer :: m.acts ∧
      ∀ target, step = .redirect target → m'.RedirectedBy cx target := by
  obtain ⟨tree, ⟨world, calls⟩, stack, waiting, cursors, bags⟩ := m
  simp only [ask, Grammar.logged, Scene.mapWorld] at h
  rcases hhandle : g.handle f.feature cx node ⟨tree, bag, world⟩ with ⟨⟨feature, answer⟩, s⟩ | ⟨e, s⟩
  · simp only [hhandle, mapResult, Scene.mapWorld] at h
    cases h
    refine ⟨rfl, rfl, rfl, rfl, rfl, ?_⟩
    rintro target rfl
    exact ⟨_, _, rfl, rfl⟩
  · simp only [hhandle, mapResult, Scene.mapWorld] at h
    cases h

theorem ask_recorded_error (h : ask g.logged f cx bag node m = .error e m') :
    m'.stack = m.stack ∧ m'.acts = .asked f.tag .failed :: m.acts ∧ m'.RaisedIn e := by
  obtain ⟨tree, ⟨world, calls⟩, stack, waiting, cursors, bags⟩ := m
  simp only [ask, Grammar.logged, Scene.mapWorld] at h
  rcases hhandle : g.handle f.feature cx node ⟨tree, bag, world⟩ with ⟨answer, s⟩ | ⟨e, s⟩
  · simp only [hhandle, mapResult, Scene.mapWorld] at h
    cases h
  · simp only [hhandle, mapResult, Scene.mapWorld] at h
    cases h
    exact ⟨rfl, rfl, _, _, rfl, rfl⟩

theorem finish_recorded (h : finish g.logged source f bag input output m = .ok () m') :
    m'.stack = m.stack ∧ m'.waiting = m.waiting ∧ m'.bags = m.bags ∧
      m'.acts = .finished f.tag true :: m.acts := by
  obtain ⟨tree, ⟨world, calls⟩, stack, waiting, cursors, bags⟩ := m
  simp only [finish, Grammar.logged, Scene.mapWorld] at h
  rcases hexit : g.exit f.feature ⟨source, input, output, cursors.index input⟩ ⟨tree, bag, world⟩ with
    ⟨_, s⟩ | ⟨e, s⟩
  · simp only [hexit, mapResult, Scene.mapWorld] at h
    cases h
    exact ⟨rfl, rfl, rfl, rfl⟩
  · simp only [hexit, mapResult, Scene.mapWorld] at h
    cases h

theorem finish_recorded_error (h : finish g.logged source f bag input output m = .error e m') :
    m'.stack = m.stack ∧ m'.acts = .finished f.tag false :: m.acts ∧ m'.RaisedIn e := by
  obtain ⟨tree, ⟨world, calls⟩, stack, waiting, cursors, bags⟩ := m
  simp only [finish, Grammar.logged, Scene.mapWorld] at h
  rcases hexit : g.exit f.feature ⟨source, input, output, cursors.index input⟩ ⟨tree, bag, world⟩ with
    ⟨_, s⟩ | ⟨e, s⟩
  · simp only [hexit, mapResult, Scene.mapWorld] at h
    cases h
  · simp only [hexit, mapResult, Scene.mapWorld] at h
    cases h
    exact ⟨rfl, rfl, _, _, rfl, rfl⟩

theorem ascend_recorded (input : NodeId) (m : Logged D F I J K V Entry W) :
    (ascend input m).stack = m.stack ∧ (ascend input m).waiting = m.waiting ∧
      (ascend input m).bags = m.bags ∧ (ascend input m).acts = m.acts := by
  unfold ascend
  split
  · exact ⟨rfl, rfl, rfl, rfl⟩
  · exact ⟨rfl, rfl, rfl, rfl⟩

/-- A feature leaves the stack and finishes. -/
theorem releaseTop_recorded
    (hframes : m.stack.frames = (id, ⟨.feature f bag, input, output⟩) :: rest)
    (h : releaseTop g.logged source m = .ok () m') :
    m'.stack = { m.stack with frames := rest } ∧ m'.waiting = m.waiting ∧ m'.bags = m.bags ∧
      m'.acts = .finished f.tag true :: m.acts := by
  have hpop : m.stack.pop? =
      some (⟨.feature f bag, input, output⟩, { m.stack with frames := rest }) :=
    Stack.pop?_of_cons hframes
  simp only [releaseTop, hpop] at h
  split at h
  · next after hfinish =>
      cases h
      obtain ⟨hstack, hwaiting, hbags, hacts⟩ := finish_recorded hfinish
      obtain ⟨hstack', hwaiting', hbags', hacts'⟩ := ascend_recorded input after
      exact ⟨hstack'.trans hstack, hwaiting'.trans hwaiting, hbags'.trans hbags, hacts'.trans hacts⟩
  · cases h

theorem releaseTop_recorded_error
    (hframes : m.stack.frames = (id, ⟨.feature f bag, input, output⟩) :: rest)
    (h : releaseTop g.logged source m = .error e m') :
    m'.stack = { m.stack with frames := rest } ∧ m'.acts = .finished f.tag false :: m.acts ∧
      m'.RaisedIn e := by
  have hpop : m.stack.pop? =
      some (⟨.feature f bag, input, output⟩, { m.stack with frames := rest }) :=
    Stack.pop?_of_cons hframes
  simp only [releaseTop, hpop] at h
  split at h
  · cases h
  · next hfinish =>
      cases h
      exact finish_recorded_error hfinish

/-- The frame of a region leaves the stack without a call. -/
theorem releaseTop_region_recorded (g : Grammar D F I J K V Entry W) (source : Tree I J)
    (hframes : m.stack.frames = (id, ⟨.region rule, input, output⟩) :: rest) :
    ∃ m', releaseTop g.logged source m = .ok () m' ∧ m'.stack = { m.stack with frames := rest } ∧
      m'.waiting = m.waiting ∧ m'.bags = m.bags ∧ m'.acts = m.acts := by
  rw [releaseTop_region hframes]
  exact ⟨_, rfl, ascend_recorded input { m with stack := { m.stack with frames := rest } }⟩

end Calls

/-! ## The record as a chronicle -/

/-- The record is a chronicle of the frames on the stack, and dispatch calls are numbered as the bags
are. -/
structure Kept (limit : Nat) (m : Logged D F I J K V Entry W) : Prop where
  maxDepth : m.stack.maxDepth = limit
  chronicle : Chronicle limit m.tags m.acts
  numbered : NumberedBelow m.bags m.acts

/-- The record is a chronicle, and candidates that wait have not been asked. -/
structure Told (limit : Nat) (m : Logged D F I J K V Entry W) : Prop extends Kept limit m where
  waiting : ∀ candidates, m.waiting = some candidates →
    ∃ group count, Offered group count 0 (candidates.features.map Tagged.tag) m.acts

/-- The redirection leads into another input node, which is a parent, and to a known output node. -/
def OpensRegion (source : Tree I J) (m : Logged D F I J K V Entry W) (cx : Context I J)
    (target : Redirect D) : Prop :=
  m.tree.contains target.output = true ∧ ∃ nested node, target.input = some nested ∧
    nested ≠ cx.input ∧ source.get? nested = some node ∧ node.isParent = true

/-- The redirection leads to an unknown output node, or into an input node that is unknown or a leaf, and
the error says which. -/
def LeadsNowhere (source : Tree I J) (m : Logged D F I J K V Entry W) (cx : Context I J)
    (target : Redirect D) (e : Error) : Prop :=
  (m.tree.contains target.output = false ∧
      e = .violation (.invalidRedirect (.output target.output))) ∨
    ∃ nested, target.input = some nested ∧ nested ≠ cx.input ∧
      ((source.get? nested = none ∧ e = .violation (.invalidRedirect (.input nested))) ∨
        ∃ node, source.get? nested = some node ∧ node.isParent = false ∧
          e = .violation (.invalidRedirect (.leafInput nested)))

/-- The error of a run names the reason why it was halted. -/
def Explains (source : Tree I J) (limit : Nat) (m : Logged D F I J K V Entry W) (e : Error) :
    Ending → Prop
  | .raised => m.RaisedIn e
  | .claimOverflow => e = .violation (.depthExceeded limit)
  | .openOverflow => e = .violation (.depthExceeded limit) ∧
      ∃ cx target, m.RedirectedBy cx target ∧ m.OpensRegion source cx target
  | .misdirected => ∃ cx target, m.RedirectedBy cx target ∧ m.LeadsNowhere source cx target e
  | .unclaimed => ∃ node index, e = .unclaimed node index

/-- The run was halted for a reason that its error names. -/
def Halted (source : Tree I J) (limit : Nat) (e : Error) (m : Logged D F I J K V Entry W) : Prop :=
  ∃ ending, Halts limit m.tags m.acts ending ∧ m.Explains source limit e ending

/-- A result with a record in order: the run goes on, or it was halted. -/
def Recorded (source : Tree I J) (limit : Nat) :
    EStateM.Result Error (Logged D F I J K V Entry W) Unit → Prop
  | .ok _ m => Told limit m
  | .error e m => Halted source limit e m

section Rounds

variable {g : Grammar D F I J K V Entry W} {source : Tree I J} {start : D} {node : NodeId}
variable {m m' : Logged D F I J K V Entry W} {limit : Nat} {id : FrameId} {input output : NodeId}
variable {feature : Tagged F} {bag : Bag Key Entry} {cx : Context I J} {tag : Tag}
variable {frames : List (Option Tag)} {earlier : List Act}
variable {rest : List (FrameId × Frame D (Tagged F) Entry)}

theorem tags_of_feature
    (hframes : m.stack.frames = (id, ⟨.feature feature bag, input, output⟩) :: rest) :
    m.tags = some feature.tag :: rest.map fun entry => entry.2.tag? := by
  rw [tags, hframes]
  rfl

theorem Kept.told (h : Kept limit m) (hidle : m.waiting = none) : Told limit m :=
  ⟨h, fun _ hwaiting => absurd hwaiting (by simp [hidle])⟩

/-- The record does not tell whether candidates wait. -/
theorem Kept.withWaiting (h : Kept limit m) (waiting : Option (Candidates (Tagged F) Entry)) :
    Kept limit { m with waiting } :=
  ⟨h.maxDepth, h.chronicle, h.numbered⟩

/-- A dispatch rule is called: its candidates may wait, or be asked at once. -/
theorem Kept.propose (h : Kept limit m) (g : Grammar D F I J K V Entry W) (source : Tree I J)
    (rule : D) (input output node : NodeId) :
    let proposal := m.propose g.logged source rule input output node
    Kept limit proposal.2 ∧
      ∃ group count, Offered group count 0 (proposal.1.features.map Tagged.tag) proposal.2.acts := by
  intro proposal
  let features := (g.dispatch rule ⟨source, input, output, m.cursors.index input⟩ node
    ⟨m.tree, Bag.empty m.bags, m.world.1⟩).1
  have hacts : proposal.2.acts = .proposed m.bags features.length :: m.acts := rfl
  have htags : proposal.1.features.map Tagged.tag =
      (List.range features.length).map (Tag.mk m.bags) :=
    List.ext_getElem (by simp [proposal, Machine.propose, Grammar.logged, features, Scene.mapWorld])
      (by simp [proposal, Machine.propose, Grammar.logged, Bag.empty])
  refine ⟨⟨h.maxDepth, ?_, ?_⟩, m.bags, features.length, ?_⟩
  · rw [hacts]
    exact h.chronicle.proposed _ h.numbered.fresh
  · rw [hacts]
    exact h.numbered.proposed _
  · rw [hacts, htags]
    exact Offered.start h.chronicle h.numbered.fresh _

/-- A dispatch rule is called, and its candidates wait. -/
theorem Kept.proposeWaiting (h : Kept limit m) (g : Grammar D F I J K V Entry W) (source : Tree I J)
    (rule : D) (input output node : NodeId) :
    let proposal := m.propose g.logged source rule input output node
    Told limit { proposal.2 with waiting := some proposal.1 } := by
  intro proposal
  rcases h.propose g source rule input output node with ⟨hkept, group, count, hoffered⟩
  refine ⟨hkept.withWaiting _, ?_⟩
  rintro _ ⟨rfl⟩
  exact ⟨group, count, hoffered⟩

/-! ### Pushes -/

/-- A frame is pushed, or as many as the limit allows are active. -/
theorem push_recorded (hmax : m.stack.maxDepth = limit) (hle : m.tags.length ≤ limit)
    (frame : Frame D (Tagged F) Entry) :
    (m.tags.length < limit ∧ ∃ m', push frame m = .ok () m' ∧ m'.tags = frame.tag? :: m.tags ∧
        m'.stack.maxDepth = limit ∧ m'.bags = m.bags ∧ m'.waiting = m.waiting ∧ m'.world = m.world) ∨
      m.tags.length = limit ∧ push frame m = .error (.violation (.depthExceeded limit)) m := by
  have hlength : m.tags.length = m.stack.depth := List.length_map _
  rcases Nat.lt_or_ge m.stack.depth limit with hroom | hfull
  · have hpush : ¬ limit ≤ m.stack.depth := Nat.not_le_of_lt hroom
    refine .inl ⟨hlength ▸ hroom, ?_⟩
    simp only [push, Stack.push, hmax, hpush, if_false]
    exact ⟨_, rfl, rfl, rfl, rfl, rfl, rfl⟩
  · refine .inr ⟨Nat.le_antisymm hle (hlength ▸ hfull), ?_⟩
    simp only [push, Stack.push, hmax, hfull, if_true]

/-! ### Answers -/

/-- The innermost feature redirects into another input node. -/
theorem Kept.descend {target : Redirect D} {nested : NodeId} (h : Kept limit m)
    (hidle : m.waiting = none) (htags : m.tags = some tag :: frames)
    (hacts : m.acts = .asked tag .claimed :: earlier) (hredirected : m.RedirectedBy cx target)
    (hknown : m.tree.contains target.output = true) (hinput : target.input = some nested)
    (hother : nested ≠ cx.input) : Recorded source limit (descend source target nested m) := by
  have hchronicle := h.chronicle
  rw [htags, hacts] at hchronicle
  unfold Machine.descend
  split
  · next hnone =>
      refine ⟨.misdirected, ?_, cx, target, hredirected,
        .inr ⟨nested, hinput, hother, .inl ⟨hnone, rfl⟩⟩⟩
      rw [htags, hacts]
      exact .misdirected hchronicle
  · next node hnode =>
      by_cases hparent : node.isParent = true
      · rw [if_pos hparent]
        -- The index is set before the frame is pushed; the record does not see it.
        let m₁ : Logged D F I J K V Entry W := { m with
          cursors := m.cursors.set nested (target.start.getD (m.cursors.index nested)) }
        have hold : Chronicle limit m₁.tags m₁.acts := h.chronicle
        rcases push_recorded (m := m₁) h.maxDepth hold.length_le
            ⟨.region target.dispatch, nested, target.output⟩ with
          ⟨hroom, m₂, hpush, htags₂, hmax, hbags, hwaiting, hworld⟩ | ⟨hfull, hpush⟩
        · have hacts₂ : m₂.acts = m₁.acts := by rw [acts, hworld, acts]
          rw [hpush]
          refine Kept.told ⟨hmax, ?_, ?_⟩ (hwaiting.trans hidle)
          · rw [htags₂, hacts₂]
            exact hold.opened hroom
          · rw [hbags, hacts₂]
            exact h.numbered
        · rw [hpush]
          refine ⟨.openOverflow, ?_, rfl, cx, target, hredirected, hknown, nested, node, hinput, hother,
            hnode, hparent⟩
          have htags₁ : m₁.tags = some tag :: frames := htags
          have hacts₁ : m₁.acts = .asked tag .claimed :: earlier := hacts
          rw [htags₁] at hfull
          rw [htags₁, hacts₁]
          exact .openOverflow hchronicle hfull
      · rw [if_neg hparent]
        refine ⟨.misdirected, ?_, cx, target, hredirected, .inr ⟨nested, hinput, hother,
          .inr ⟨node, hnode, Bool.eq_false_iff.2 hparent, rfl⟩⟩⟩
        rw [htags, hacts]
        exact .misdirected hchronicle

/-- The innermost feature redirects. -/
theorem Kept.redirect {target : Redirect D} (h : Kept limit m) (hidle : m.waiting = none)
    (htags : m.tags = some tag :: frames) (hacts : m.acts = .asked tag .claimed :: earlier)
    (hredirected : m.RedirectedBy cx target) :
    Recorded source limit (redirect g.logged source target cx.input node m) := by
  have hchronicle := h.chronicle
  rw [htags, hacts] at hchronicle
  simp only [Machine.redirect]
  by_cases hknown : m.tree.contains target.output = true
  · rw [if_pos hknown]
    by_cases hsame : target.input.getD cx.input = cx.input
    · rw [if_pos hsame]
      exact h.proposeWaiting g source target.dispatch cx.input target.output node
    · rw [if_neg hsame]
      rcases hinput : target.input with _ | nested
      · exact absurd (by rw [hinput]; rfl) hsame
      · rw [hinput] at hsame
        exact h.descend hidle htags hacts hredirected hknown hinput hsame
  · rw [if_neg hknown]
    refine ⟨.misdirected, ?_, cx, target, hredirected, .inl ⟨Bool.eq_false_iff.2 hknown, rfl⟩⟩
    rw [htags, hacts]
    exact .misdirected hchronicle

/-- The innermost feature has claimed the child, and its answer is followed. -/
theorem Kept.follow (cx : Context I J) (h : Kept limit m) (hidle : m.waiting = none)
    (htags : m.tags = some tag :: frames) (hacts : m.acts = .asked tag .claimed :: earlier)
    {step : Step (Redirect D)} (hclaims : step.claims)
    (hredirected : ∀ target, step = .redirect target → m.RedirectedBy cx target) :
    Recorded source limit (follow g.logged source step cx.input node m) := by
  cases step with
  | proceed => exact Kept.told ⟨h.maxDepth, h.chronicle, h.numbered⟩ hidle
  | decline => cases hclaims
  | redirect target => exact h.redirect hidle htags hacts (hredirected target rfl)

/-- The innermost feature has declined, leaves and finishes. -/
theorem Recorded.leave (hmax : m.stack.maxDepth = limit) (hnumbered : NumberedBelow m.bags m.acts)
    (hidle : m.waiting = none)
    (hframes : m.stack.frames = (id, ⟨.feature feature bag, input, output⟩) :: rest)
    (hacts : m.acts = .asked feature.tag .declined :: earlier)
    (hchronicle : Chronicle limit m.tags earlier) :
    Recorded source limit (releaseTop g.logged source m) := by
  rw [tags_of_feature hframes] at hchronicle
  rcases hrelease : releaseTop g.logged source m with ⟨⟨⟩, m'⟩ | ⟨e, m'⟩
  · obtain ⟨hstack, hwaiting, hbags, hacts'⟩ := releaseTop_recorded hframes hrelease
    refine Kept.told ⟨by rw [hstack]; exact hmax, ?_, ?_⟩ (hwaiting.trans hidle)
    · rw [tags, hstack, hacts', hacts]
      exact hchronicle.left
    · rw [hbags, hacts']
      exact hnumbered.called ⟨_, rfl⟩
  · obtain ⟨hstack, hacts', hraised⟩ := releaseTop_recorded_error hframes hrelease
    refine ⟨.raised, ?_, hraised⟩
    rw [tags, hstack, hacts', hacts]
    exact .leaveFailed hchronicle

/-- A candidate that claimed the child becomes active, unless the stack is full. -/
theorem Recorded.claim (cx : Context I J) {step : Step (Redirect D)} (hmax : m.stack.maxDepth = limit)
    (hnumbered : NumberedBelow m.bags m.acts) (hidle : m.waiting = none)
    (hacts : m.acts = .asked feature.tag .claimed :: earlier)
    (hchronicle : Chronicle limit m.tags earlier) (hnew : IsNew feature.tag earlier)
    (hclaims : step.claims)
    (hredirected : ∀ target, step = .redirect target → m.RedirectedBy cx target) :
    Recorded source limit ((push ⟨.feature feature bag, cx.input, cx.output⟩ >>= fun _ =>
      follow g.logged source step cx.input node) m) := by
  simp only [bind, EStateM.bind]
  rcases push_recorded hmax hchronicle.length_le ⟨.feature feature bag, cx.input, cx.output⟩ with
    ⟨hroom, m', hpush, htags, hmax', hbags, hwaiting, hworld⟩ | ⟨hfull, hpush⟩
  · have hacts' : m'.acts = .asked feature.tag .claimed :: earlier := by
      rw [acts, hworld]
      exact hacts
    have hkept : Kept limit m' := by
      refine ⟨hmax', ?_, ?_⟩
      · rw [htags, hacts']
        exact hchronicle.claimed hnew hroom
      · rw [hbags, hacts', ← hacts]
        exact hnumbered
    have hredirected' : ∀ target, step = .redirect target → m'.RedirectedBy cx target := by
      intro target hstep
      rw [RedirectedBy, hworld]
      exact hredirected target hstep
    rw [hpush]
    exact hkept.follow cx (hwaiting.trans hidle) htags hacts' hclaims hredirected'
  · rw [hpush]
    refine ⟨.claimOverflow, ?_, rfl⟩
    rw [hacts]
    exact .claimOverflow hchronicle hnew hfull

/-! ### Rounds -/

/-- Candidates are asked, one after the other. -/
theorem Kept.offer {group count place : Nat} {features : List (Tagged F)} {bag : Bag Key Entry} :
    Kept limit m → m.waiting = none → Offered group count place (features.map Tagged.tag) m.acts →
      Recorded source limit (offer g.logged source cx node features bag m) := by
  -- By induction on the candidates; each that declines leaves the next ones in line.
  induction features generalizing place bag m with
  | nil =>
      intro h _ hoffered
      exact ⟨.unclaimed,
        .unclaimed h.chronicle hoffered.proposed hoffered.all_declined hoffered.quiet, node, _, rfl⟩
  | cons feature features ih =>
      intro h hidle hoffered
      have hnew := hoffered.isNew
      simp only [Machine.offer, bind, EStateM.bind]
      rcases hask : ask g.logged feature cx bag node m with ⟨⟨next, bag', step⟩, m₁⟩ | ⟨e, m₁⟩
      · obtain ⟨htag, hstack, hwaiting, hbags, hacts, hredirected⟩ := ask_recorded hask
        have htags : m₁.tags = m.tags := by rw [tags, hstack, tags]
        have hmax : m₁.stack.maxDepth = limit := by rw [hstack]; exact h.maxDepth
        have hnumbered : NumberedBelow m₁.bags m₁.acts := by
          rw [hbags, hacts]
          exact h.numbered.called ⟨_, rfl⟩
        have hchronicle := h.chronicle
        rw [← htags] at hchronicle
        by_cases hclaims : step.claims
        · rw [Step.answer, if_pos hclaims] at hacts
          rw [← htag] at hacts hnew
          simp only [hclaims, if_true]
          exact Recorded.claim cx hmax hnumbered (hwaiting.trans hidle) hacts hchronicle hnew hclaims
            hredirected
        · rw [Step.answer, if_neg hclaims] at hacts
          simp only [hclaims]
          have hkept : Kept limit m₁ := by
            refine ⟨hmax, ?_, hnumbered⟩
            rw [hacts]
            exact hchronicle.declined hnew
          have hnext : Offered group count (place + 1) (features.map Tagged.tag) m₁.acts := by
            rw [hacts]
            exact hoffered.next
          exact ih hkept (hwaiting.trans hidle) hnext
      · obtain ⟨hstack, hacts, hraised⟩ := ask_recorded_error hask
        refine ⟨.raised, ?_, hraised⟩
        rw [tags, hstack, hacts]
        exact .candidateFailed h.chronicle hnew

/-- The innermost feature is asked, and its answer is followed. -/
theorem Kept.answer (h : Kept limit m) (hidle : m.waiting = none)
    (hframes : m.stack.frames = (id, ⟨.feature feature bag, input, output⟩) :: rest) :
    Recorded source limit (stepTop g.logged source node m) := by
  have htop : m.stack.top? = some ⟨.feature feature bag, input, output⟩ :=
    Stack.top?_of_cons hframes
  have hchronicle := h.chronicle
  rw [tags_of_feature hframes] at hchronicle
  simp only [Machine.stepTop, htop]
  rcases hask : ask g.logged feature ⟨source, input, output, m.cursors.index input⟩ bag node m with
    ⟨⟨next, bag', step⟩, m₁⟩ | ⟨e, m₁⟩
  · obtain ⟨htag, hstack, hwaiting, hbags, hacts, hredirected⟩ := ask_recorded hask
    -- The feature may have changed, but its tag has not.
    let m₂ : Logged D F I J K V Entry W :=
      { m₁ with stack := m₁.stack.setTop ⟨.feature next bag', input, output⟩ }
    have hframes₂ : m₂.stack.frames = (id, ⟨.feature next bag', input, output⟩) :: rest := by
      simp only [m₂, hstack, Stack.setTop_of_cons hframes]
    have hmax : m₂.stack.maxDepth = limit := by
      rw [Stack.maxDepth_setTop, hstack]
      exact h.maxDepth
    have htags : m₂.tags = some feature.tag :: rest.map fun entry => entry.2.tag? := by
      rw [tags_of_feature hframes₂, htag]
    have hnumbered : NumberedBelow m₁.bags m₁.acts := by
      rw [hbags, hacts]
      exact h.numbered.called ⟨_, rfl⟩
    by_cases hclaims : step.claims
    · rw [Step.answer, if_pos hclaims] at hacts
      refine Kept.follow ⟨source, input, output, m.cursors.index input⟩ (m := m₂)
        ⟨hmax, ?_, hnumbered⟩ (hwaiting.trans hidle) htags hacts hclaims hredirected
      change Chronicle limit m₂.tags m₁.acts
      rw [htags, hacts]
      exact hchronicle.stayed
    · obtain rfl := Step.eq_decline hclaims
      rw [Step.answer, if_neg hclaims] at hacts
      refine Recorded.leave (m := m₂) hmax hnumbered (hwaiting.trans hidle) hframes₂
        (htag ▸ hacts) ?_
      rw [htags]
      exact hchronicle
  · obtain ⟨hstack, hacts, hraised⟩ := ask_recorded_error hask
    refine ⟨.raised, ?_, hraised⟩
    rw [tags, hstack, hframes, hacts]
    exact .featureFailed hchronicle

/-- The innermost frame is asked: a region proposes candidates, and a feature answers. -/
theorem Kept.stepTop {frame : Frame D (Tagged F) Entry} (h : Kept limit m) (hidle : m.waiting = none)
    (hframes : m.stack.frames = (id, frame) :: rest) :
    Recorded source limit (stepTop g.logged source node m) := by
  obtain ⟨handler, input, output⟩ := frame
  cases handler with
  | region rule =>
      have htop : m.stack.top? = some ⟨.region rule, input, output⟩ := Stack.top?_of_cons hframes
      simp only [Machine.stepTop, htop]
      exact h.proposeWaiting g source rule input output node
  | feature feature bag => exact h.answer hidle hframes

/-- The innermost frame leaves past the last child: a region without a call, and a feature finishes. -/
theorem Kept.releaseTop {frame : Frame D (Tagged F) Entry} (h : Kept limit m)
    (g : Grammar D F I J K V Entry W) (source : Tree I J) (hidle : m.waiting = none)
    (hframes : m.stack.frames = (id, frame) :: rest) :
    match releaseTop g.logged source m with
    | .ok _ m' => Kept limit m' ∧ m'.waiting = none ∧ m'.stack.frames = rest
    | .error e m' => Halted source limit e m' := by
  have hchronicle := h.chronicle
  obtain ⟨handler, input, output⟩ := frame
  cases handler with
  | region rule =>
      rcases releaseTop_region_recorded g source hframes with
        ⟨m', hrelease, hstack, hwaiting, hbags, hacts⟩
      rw [hrelease]
      refine ⟨⟨by rw [hstack]; exact h.maxDepth, ?_, by rw [hbags, hacts]; exact h.numbered⟩,
        hwaiting.trans hidle, by rw [hstack]⟩
      rw [tags, hframes] at hchronicle
      rw [tags, hstack, hacts]
      exact hchronicle.closed
  | feature feature bag =>
      rw [tags_of_feature hframes] at hchronicle
      rcases hrelease : Machine.releaseTop g.logged source m with ⟨⟨⟩, m'⟩ | ⟨e, m'⟩
      · obtain ⟨hstack, hwaiting, hbags, hacts⟩ := releaseTop_recorded hframes hrelease
        refine ⟨⟨by rw [hstack]; exact h.maxDepth, ?_, ?_⟩, hwaiting.trans hidle, by rw [hstack]⟩
        · rw [tags, hstack, hacts]
          exact hchronicle.finished
        · rw [hbags, hacts]
          exact h.numbered.called ⟨_, rfl⟩
      · obtain ⟨hstack, hacts, hraised⟩ := releaseTop_recorded_error hframes hrelease
        refine ⟨.raised, ?_, hraised⟩
        rw [tags, hstack, hacts]
        exact .finishFailed hchronicle

/-- Past the last child the frames of the node leave, the innermost first. -/
theorem Kept.releaseWhile {frames : List (FrameId × Frame D (Tagged F) Entry)} :
    Kept limit m → m.waiting = none → m.stack.frames = frames →
      Recorded source limit (releaseWhile g.logged source input frames m) := by
  induction frames generalizing m with
  | nil => exact fun h hidle _ => h.told hidle
  | cons entry rest ih =>
      intro h hidle hframes
      simp only [Machine.releaseWhile]
      split
      · have hleft := h.releaseTop g source hidle hframes
        simp only [bind, EStateM.bind]
        split
        · next hrelease =>
            rw [hrelease] at hleft
            exact ih hleft.1 hleft.2.1 hleft.2.2
        · next hrelease =>
            rw [hrelease] at hleft
            exact hleft
      · exact h.told hidle

/-- One round. -/
theorem Told.advance (h : Told limit m) (g : Grammar D F I J K V Entry W) (source : Tree I J)
    (start : D) : Recorded source limit (advance g.logged source start m) := by
  unfold Machine.advance
  rcases m.node? source with _ | node
  · exact (h.toKept.withWaiting none).releaseWhile rfl rfl
  · dsimp only
    rcases hwaiting : m.waiting with _ | candidates
    · dsimp only
      rcases hframes : m.stack.frames with _ | ⟨⟨id, frame⟩, rest⟩
      · rw [if_pos (Stack.isEmpty_of_nil hframes)]
        rcases h.toKept.propose g source start Tree.root Tree.root node with
          ⟨hkept, group, count, hoffered⟩
        exact (hkept.withWaiting none).offer rfl hoffered
      · rw [Stack.isEmpty_of_cons hframes, if_neg Bool.false_ne_true]
        exact h.toKept.stepTop hwaiting hframes
    · rcases h.waiting candidates hwaiting with ⟨group, count, hoffered⟩
      exact (h.toKept.withWaiting none).offer rfl hoffered

/-- A run of any number of rounds keeps its record in order; if it succeeds, it leaves no frame, and if
it fails, it was halted. -/
theorem Told.run (h : Told limit m) (g : Grammar D F I J K V Entry W) (source : Tree I J) (start : D)
    (rounds : Nat) :
    match run g.logged source start rounds m with
    | (.success _, m') => Told limit m' ∧ m'.stack.frames = []
    | (.failure e, m') => Halted source limit e m'
    | (.unfinished, m') => Told limit m' := by
  have hempty : ∀ {m : Logged D F I J K V Entry W}, m.isFinished source = true →
      m.stack.frames = [] := by
    intro m hfinished
    rw [isFinished, Bool.and_eq_true] at hfinished
    exact List.isEmpty_iff.1 hfinished.2
  induction rounds generalizing m with
  | zero =>
      simp only [Machine.run]
      by_cases hfinished : m.isFinished source = true
      · rw [if_pos hfinished]
        exact ⟨h, hempty hfinished⟩
      · rw [if_neg hfinished]
        exact h
  | succ rounds ih =>
      simp only [Machine.run]
      by_cases hfinished : m.isFinished source = true
      · rw [if_pos hfinished]
        exact ⟨h, hempty hfinished⟩
      · rw [if_neg hfinished]
        have hround := h.advance g source start
        rcases hadvance : Machine.advance g.logged source start m with ⟨⟨⟩, next⟩ | ⟨e, failed⟩
        · rw [hadvance] at hround
          exact ih hround
        · rw [hadvance] at hround
          exact hround

theorem told_initial (root : Node K V) (world : W) (limits : Limits) :
    Told limits.maxDepth (initial root (world, []) limits : Logged D F I J K V Entry W) :=
  Kept.told ⟨rfl, .start, by simp [NumberedBelow, acts, initial]⟩ rfl

end Rounds

end Machine

end Rebuilding
end FeatureTree
