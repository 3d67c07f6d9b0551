import FeatureTree.Proofs.Feature.Bags
import FeatureTree.Proofs.Rebuilding.Logged

/-!
# Bags — the bags of a rebuilding machine

As for reading: `Entrusted` is what holds between two rounds, and `Entrusted.run` says of all runs that
bags are handed on within their groups.  The frame of a region holds no bag; it lies between frames that
do, and each of its children is proposed with a new one.
-/

namespace FeatureTree
namespace Rebuilding

variable {D F I J K V Key W α : Type} {Entry : Key → Type}

/-! ## Uses -/

namespace Call

/-- The bag that the call was given. -/
def found : Call D F I J K V Entry W → Bag Key Entry
  | dispatched _ _ _ scene _ => scene.bag
  | handled _ _ _ _ scene _ => scene.bag
  | exited _ _ _ scene _ => scene.bag

/-- The bag that the call left, also if it failed. -/
def left : Call D F I J K V Entry W → Bag Key Entry
  | dispatched _ _ _ _ result => result.2.1
  | handled _ _ _ _ _ (.ok _ scene) => scene.bag
  | handled _ _ _ _ _ (.error _ scene) => scene.bag
  | exited _ _ _ _ (.ok _ scene) => scene.bag
  | exited _ _ _ _ (.error _ scene) => scene.bag

def use (call : Call D F I J K V Entry W) : Use Key Entry := ⟨call.act, call.found, call.left⟩

end Call

/-- The feature of a frame holds the bag of its group; a region holds none. -/
def Frame.holder? (frame : Frame D (Tagged F) Entry) : Option (Holder Key Entry) :=
  match frame.handler with
  | .feature feature bag => some ⟨feature.tag.group, [feature.tag], bag⟩
  | .region _ => none

/-- The features among the frames. -/
def holdersOf (frames : List (FrameId × Frame D (Tagged F) Entry)) : List (Holder Key Entry) :=
  frames.filterMap fun entry => entry.2.holder?

theorem holdersOf_feature (id : FrameId) (feature : Tagged F) (bag : Bag Key Entry)
    (input output : NodeId) (rest : List (FrameId × Frame D (Tagged F) Entry)) :
    holdersOf ((id, ⟨.feature feature bag, input, output⟩) :: rest) =
      ⟨feature.tag.group, [feature.tag], bag⟩ :: holdersOf rest := rfl

namespace Machine

/-- The bags that were used so far, the latest in front. -/
def uses (m : Logged D F I J K V Entry W) : List (Use Key Entry) := m.world.2.map Call.use

/-- The active features hold the bags of their groups. -/
def Active (m : Logged D F I J K V Entry W) : Prop :=
  Holding m.bags (holdersOf m.stack.frames) m.uses

/-- What holds between two rounds: active features and candidates that wait hold the bags of their
groups. -/
structure Entrusted (m : Logged D F I J K V Entry W) : Prop where
  active : m.Active
  waiting : ∀ candidates, m.waiting = some candidates → ∃ group,
    Holding m.bags (⟨group, candidates.features.map Tagged.tag, candidates.bag⟩ ::
      holdersOf m.stack.frames) m.uses

/-- A step passes bags on: it ends in a state as described, or with an error after bags were handed
on. -/
abbrev Passes (Q : α → Logged D F I J K V Entry W → Prop) :
    EStateM.Result Error (Logged D F I J K V Entry W) α → Prop :=
  EndsIn (fun _ m => HandedOn m.bags m.uses) Q

section Rounds

variable {g : Grammar D F I J K V Entry W} {source : Tree I J} {start : D} {node : NodeId}
variable {m : Logged D F I J K V Entry W} {input output : NodeId} {feature : Tagged F}
variable {bag : Bag Key Entry} {cx : Context I J} {holder : Holder Key Entry}
variable {holders : List (Holder Key Entry)}

theorem Entrusted.of_idle (h : m.Active) (hidle : m.waiting = none) : Entrusted m :=
  ⟨h, fun _ hwaiting => absurd hwaiting (by simp [hidle])⟩

/-! ## Calls -/

/-- A feature is asked with the bag of its group, and the group keeps the bag that is left. -/
theorem ask_passes (g : Grammar D F I J K V Entry W) (cx : Context I J) (node : NodeId)
    (h : Holding m.bags (holder :: holders) m.uses) (hmem : feature.tag ∈ holder.tags) :
    Passes (fun answer m' => answer.1.tag = feature.tag ∧ m'.stack = m.stack ∧
        m'.waiting = m.waiting ∧
          Holding m'.bags (⟨holder.group, holder.tags, answer.2.1⟩ :: holders) m'.uses)
      (ask g.logged feature cx holder.bag node m) := by
  obtain ⟨tree, ⟨world, calls⟩, stack, waiting, cursors, bags⟩ := m
  simp only [ask, Grammar.logged, Scene.mapWorld]
  rcases g.handle feature.feature cx node ⟨tree, holder.bag, world⟩ with ⟨⟨next, step⟩, s⟩ | ⟨e, s⟩
  · exact ⟨rfl, rfl, rfl, h.call rfl hmem rfl rfl⟩
  · exact (h.call rfl hmem rfl rfl).handedOn

/-- A feature that has left finishes with the bag of its group. -/
theorem finish_passes (g : Grammar D F I J K V Entry W) (source : Tree I J) (input output : NodeId)
    (h : Holding m.bags (⟨feature.tag.group, [feature.tag], bag⟩ :: holders) m.uses) :
    Passes (fun _ m' => m'.stack = m.stack ∧ m'.waiting = m.waiting ∧ Holding m'.bags holders m'.uses)
      (finish g.logged source feature bag input output m) := by
  obtain ⟨tree, ⟨world, calls⟩, stack, waiting, cursors, bags⟩ := m
  simp only [finish, Grammar.logged, Scene.mapWorld]
  rcases g.exit feature.feature ⟨source, input, output, cursors.index input⟩ ⟨tree, bag, world⟩ with
    ⟨_, s⟩ | ⟨e, s⟩
  · exact ⟨rfl, rfl, (h.call rfl List.mem_cons_self rfl rfl).drop⟩
  · exact (h.call rfl List.mem_cons_self rfl rfl).handedOn

/-- Indices of input nodes do not matter. -/
theorem ascend_active (input : NodeId) (h : m.Active) :
    (ascend input m).waiting = m.waiting ∧ (ascend input m).Active := by
  unfold ascend
  split
  · exact ⟨rfl, h⟩
  · exact ⟨rfl, h⟩

/-- The innermost frame leaves; a feature finishes with the bag of its group. -/
theorem releaseTop_passes (g : Grammar D F I J K V Entry W) (source : Tree I J) (h : m.Active) :
    Passes (fun _ m' => m'.waiting = m.waiting ∧ m'.Active) (releaseTop g.logged source m) := by
  rcases hframes : m.stack.frames with _ | ⟨⟨id, ⟨handler, input, output⟩⟩, rest⟩
  · simp only [releaseTop, Stack.pop?_of_nil hframes]
    exact ⟨rfl, h⟩
  · simp only [releaseTop, Stack.pop?_of_cons hframes]
    rw [Active, hframes] at h
    cases handler with
    | region rule =>
        exact ascend_active (m := { m with stack := { m.stack with frames := rest } }) input h
    | feature feature bag =>
        have hfinish := finish_passes (m := { m with stack := { m.stack with frames := rest } })
          g source input output h
        dsimp only
        split
        · next after hresult =>
            rw [hresult] at hfinish
            obtain ⟨hstack, hwaiting, hactive⟩ := hfinish
            have hactive : after.Active := by
              rw [Active, hstack]
              exact hactive
            have hascend := ascend_active input hactive
            exact ⟨hascend.1.trans hwaiting, hascend.2⟩
        · next hresult =>
            rw [hresult] at hfinish
            exact hfinish

/-- A dispatch rule is given a new bag, which its candidates hold from then on. -/
theorem propose_holding (g : Grammar D F I J K V Entry W) (source : Tree I J) (rule : D)
    (input output node : NodeId) (h : Holding m.bags holders m.uses) :
    let proposal := m.propose g.logged source rule input output node
    Holding proposal.2.bags
      (⟨m.bags, proposal.1.features.map Tagged.tag, proposal.1.bag⟩ :: holders) proposal.2.uses := by
  refine h.propose rfl rfl rfl ?_
  intro tag htag
  simp only [propose, Grammar.logged, List.mem_map, List.mem_mapIdx] at htag
  rcases htag with ⟨_, ⟨place, hplace, rfl⟩, rfl⟩
  exact ⟨rfl, hplace⟩

theorem push_passes {frame : Frame D (Tagged F) Entry}
    (h : Holding m.bags (holdersOf ((m.stack.pushed, frame) :: m.stack.frames)) m.uses) :
    Passes (fun _ m' => m'.waiting = m.waiting ∧ m'.Active) (push frame m) := by
  simp only [push, Stack.push]
  split
  · next hstack =>
      split at hstack
      · cases hstack
      · cases hstack
        exact ⟨rfl, h⟩
  · exact h.handedOn

/-! ## Rounds -/

/-- The frame of a region holds no bag. -/
theorem descend_passes {target : Redirect D} {nested : NodeId} (h : m.Active)
    (hidle : m.waiting = none) :
    Passes (fun _ => Entrusted) (descend source target nested m) := by
  unfold Machine.descend
  split
  · exact h.handedOn
  · split
    · refine EndsIn.imp (push_passes h) ?_
      rintro ⟨⟩ m' ⟨hwaiting, hactive⟩
      exact Entrusted.of_idle hactive (hwaiting.trans hidle)
    · exact h.handedOn

theorem redirect_passes (h : m.Active) (hidle : m.waiting = none) (target : Redirect D) :
    Passes (fun _ => Entrusted) (redirect g.logged source target input node m) := by
  simp only [redirect]
  split
  · split
    · have hpropose := propose_holding g source target.dispatch input target.output node h
      refine ⟨hpropose.drop, ?_⟩
      rintro _ ⟨rfl⟩
      exact ⟨_, hpropose⟩
    · exact descend_passes h hidle
  · exact h.handedOn

theorem follow_passes (h : m.Active) (hidle : m.waiting = none) (step : Step (Redirect D)) :
    Passes (fun _ => Entrusted) (follow g.logged source step input node m) := by
  cases step with
  | proceed => exact Entrusted.of_idle h hidle
  | decline =>
      refine (releaseTop_passes g source h).imp ?_
      rintro ⟨⟩ m' ⟨hwaiting, hactive⟩
      exact Entrusted.of_idle hactive (hwaiting.trans hidle)
  | redirect target => exact redirect_passes h hidle target

/-- Candidates are asked with the bag of their group; the one that claims the child takes it to the
stack. -/
theorem offer_passes {group : Nat} {features : List (Tagged F)}
    (h : Holding m.bags (⟨group, features.map Tagged.tag, bag⟩ :: holdersOf m.stack.frames) m.uses)
    (hidle : m.waiting = none) :
    Passes (fun _ => Entrusted) (offer g.logged source cx node features bag m) := by
  -- By induction on the candidates; each that declines leaves its bag to the next.
  induction features generalizing bag m with
  | nil => exact h.handedOn
  | cons feature features ih =>
      have hgroup : feature.tag.group = group :=
        (h.tags _ List.mem_cons_self feature.tag (by simp)).1
      refine (ask_passes g cx node h (by simp)).bind ?_
      rintro ⟨next, bag', step⟩ m₁ ⟨htag, hstack, hwaiting, hasked⟩
      rw [← hstack] at hasked
      by_cases hclaims : step.claims
      · simp only [hclaims, if_true]
        -- The candidates behind it are dropped, so its frame is the only one with this bag.
        refine (push_passes ?_).bind ?_
        · rw [holdersOf_feature, htag, hgroup]
          exact hasked.restrict (by simp)
        · rintro ⟨⟩ m₂ ⟨hwaiting₂, hactive⟩
          exact follow_passes hactive (hwaiting₂.trans (hwaiting.trans hidle)) step
      · simp only [hclaims]
        exact ih (hasked.restrict fun _ => List.mem_cons_of_mem _) (hwaiting.trans hidle)

/-- The innermost frame is asked: a region proposes candidates with a new bag, and a feature answers with
the bag of its group. -/
theorem stepTop_passes (h : m.Active) (hidle : m.waiting = none) :
    Passes (fun _ => Entrusted) (stepTop g.logged source node m) := by
  simp only [stepTop]
  rcases hframes : m.stack.frames with _ | ⟨⟨id, ⟨handler, input, output⟩⟩, rest⟩
  · rw [Stack.top?_of_nil hframes]
    exact Entrusted.of_idle h hidle
  · rw [Stack.top?_of_cons hframes]
    cases handler with
    | region rule =>
        have hpropose := propose_holding g source rule input output node h
        refine ⟨hpropose.drop, ?_⟩
        rintro _ ⟨rfl⟩
        exact ⟨_, hpropose⟩
    | feature feature bag =>
        rw [Active, hframes, holdersOf_feature] at h
        have hask := ask_passes g ⟨source, input, output, m.cursors.index input⟩ node h
          List.mem_cons_self
        dsimp only at hask ⊢
        rcases hresult : ask g.logged feature ⟨source, input, output, m.cursors.index input⟩ bag node m
          with ⟨⟨next, bag', step⟩, m₁⟩ | ⟨e, m₁⟩
        · rw [hresult] at hask
          obtain ⟨htag, hstack, hwaiting, hasked⟩ := hask
          dsimp only
          -- The frame keeps its place and gets the bag that the call left.
          refine follow_passes
            (m := { m₁ with stack := m₁.stack.setTop ⟨.feature next bag', input, output⟩ }) ?_
            (hwaiting.trans hidle) step
          have hset : (m₁.stack.setTop ⟨.feature next bag', input, output⟩).frames =
              (id, ⟨.feature next bag', input, output⟩) :: rest := by
            rw [hstack, Stack.setTop_of_cons hframes]
          rw [Active, hset, holdersOf_feature, htag]
          exact hasked
        · rw [hresult] at hask
          exact hask

/-- Past the last child the frames of the node leave. -/
theorem releaseWhile_passes (frames : List (FrameId × Frame D (Tagged F) Entry)) (h : m.Active)
    (hidle : m.waiting = none) :
    Passes (fun _ => Entrusted) (releaseWhile g.logged source input frames m) := by
  induction frames generalizing m with
  | nil => exact Entrusted.of_idle h hidle
  | cons entry rest ih =>
      simp only [releaseWhile]
      split
      · refine (releaseTop_passes g source h).bind ?_
        rintro ⟨⟩ m' ⟨hwaiting, hactive⟩
        exact ih hactive (hwaiting.trans hidle)
      · exact Entrusted.of_idle h hidle

/-- One round. -/
theorem Entrusted.advance (h : Entrusted m) (g : Grammar D F I J K V Entry W) (source : Tree I J)
    (start : D) : Passes (fun _ => Entrusted) (advance g.logged source start m) := by
  unfold Machine.advance
  rcases m.node? source with _ | node
  · exact releaseWhile_passes _ h.active rfl
  · dsimp only
    rcases hwaiting : m.waiting with _ | candidates
    · dsimp only
      split
      · exact offer_passes (propose_holding g source start Tree.root Tree.root node h.active) rfl
      · exact stepTop_passes h.active hwaiting
    · rcases h.waiting candidates hwaiting with ⟨group, hholding⟩
      exact offer_passes hholding rfl

/-- In every run of any number of rounds, also in one that fails, bags are handed on within their
groups; a run that was cut off can go on. -/
theorem Entrusted.run (h : Entrusted m) (g : Grammar D F I J K V Entry W) (source : Tree I J)
    (start : D) (rounds : Nat) :
    match run g.logged source start rounds m with
    | (.unfinished, m') => Entrusted m'
    | (_, m') => HandedOn m'.bags m'.uses := by
  induction rounds generalizing m with
  | zero =>
      simp only [Machine.run]
      by_cases hfinished : m.isFinished source = true
      · rw [if_pos hfinished]
        exact h.active.handedOn
      · rw [if_neg hfinished]
        exact h
  | succ rounds ih =>
      simp only [Machine.run]
      by_cases hfinished : m.isFinished source = true
      · rw [if_pos hfinished]
        exact h.active.handedOn
      · rw [if_neg hfinished]
        have hround := h.advance g source start
        rcases hadvance : Machine.advance g.logged source start m with ⟨⟨⟩, next⟩ | ⟨e, failed⟩
        · rw [hadvance] at hround
          exact ih hround
        · rw [hadvance] at hround
          exact hround

theorem entrusted_initial (root : Node K V) (world : W) (limits : Limits) :
    Entrusted (initial root (world, []) limits : Logged D F I J K V Entry W) :=
  .of_idle .start rfl

end Rounds

end Machine

end Rebuilding
end FeatureTree
