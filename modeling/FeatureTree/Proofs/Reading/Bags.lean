import FeatureTree.Proofs.Feature.Bags
import FeatureTree.Proofs.Reading.Logged

/-!
# Bags — the bags of a reading machine

The record of a machine tells which bag each call was given, and which bag it left.  `Entrusted` is what
holds between two rounds: the features on the stack and the candidates that wait hold the bags of their
groups, as the latest calls of the groups left them.  Every round keeps it, and `Entrusted.run_handedOn`
says of all runs, also of those that fail, that bags are handed on within their groups.
-/

namespace FeatureTree
namespace Reading

variable {D F K V Key W α : Type} {Entry : Key → Type}

/-! ## Uses -/

namespace Call

/-- The bag that the call was given. -/
def found : Call D F K V Entry W → Bag Key Entry
  | dispatched _ _ scene _ => scene.bag
  | handled _ _ _ _ scene _ => scene.bag
  | exited _ _ _ scene _ => scene.bag

/-- The bag that the call left, also if it failed. -/
def left : Call D F K V Entry W → Bag Key Entry
  | dispatched _ _ _ result => result.2.1
  | handled _ _ _ _ _ (.ok _ scene) => scene.bag
  | handled _ _ _ _ _ (.error _ scene) => scene.bag
  | exited _ _ _ _ (.ok _ scene) => scene.bag
  | exited _ _ _ _ (.error _ scene) => scene.bag

def use (call : Call D F K V Entry W) : Use Key Entry := ⟨call.act, call.found, call.left⟩

end Call

/-- The feature of a frame holds the bag of its group. -/
def Frame.holder (frame : Frame (Tagged F) Entry) : Holder Key Entry :=
  ⟨frame.feature.tag.group, [frame.feature.tag], frame.bag⟩

namespace Machine

/-- The bags that were used so far, the latest in front. -/
def uses (m : Logged D F K V Entry W) : List (Use Key Entry) := m.world.2.map Call.use

/-- The active features, the innermost in front. -/
def holders (m : Logged D F K V Entry W) : List (Holder Key Entry) :=
  m.stack.frames.map fun entry => entry.2.holder

/-- What holds between two rounds: active features and candidates that wait hold the bags of their
groups. -/
structure Entrusted (m : Logged D F K V Entry W) : Prop where
  active : Holding m.bags m.holders m.uses
  waiting : ∀ candidates, m.waiting = some candidates → ∃ group,
    Holding m.bags (⟨group, candidates.features.map Tagged.tag, candidates.bag⟩ :: m.holders) m.uses

/-- A step passes bags on: it ends in a state as described, or with an error after bags were handed
on. -/
abbrev Passes (Q : α → Logged D F K V Entry W → Prop) :
    EStateM.Result Error (Logged D F K V Entry W) α → Prop :=
  EndsIn (fun _ m => HandedOn m.bags m.uses) Q

section Rounds

variable {g : Grammar D F K V Entry W} {text : SourceText} {start : D} {c : Char}
variable {m : Logged D F K V Entry W} {ancestor : NodeId} {feature : Tagged F}
variable {frame : Frame (Tagged F) Entry} {holder : Holder Key Entry}
variable {holders : List (Holder Key Entry)}

theorem Entrusted.of_idle (h : Holding m.bags m.holders m.uses) (hidle : m.waiting = none) :
    Entrusted m :=
  ⟨h, fun _ hwaiting => absurd hwaiting (by simp [hidle])⟩

/-! ## Calls -/

/-- A feature is asked with the bag of its group, and the group keeps the bag that is left. -/
theorem ask_passes (g : Grammar D F K V Entry W) (text : SourceText) (ancestor : NodeId) (c : Char)
    (h : Holding m.bags (holder :: holders) m.uses) (hmem : feature.tag ∈ holder.tags) :
    Passes (fun answer m' => answer.1.feature.tag = feature.tag ∧ m'.stack = m.stack ∧
        m'.waiting = m.waiting ∧
          Holding m'.bags (⟨holder.group, holder.tags, answer.1.bag⟩ :: holders) m'.uses)
      (ask g.logged text feature ancestor holder.bag c m) := by
  obtain ⟨tree, ⟨world, calls⟩, stack, waiting, offset, bags⟩ := m
  simp only [ask, Grammar.logged, Scene.mapWorld]
  rcases g.handle feature.feature ⟨text, ancestor, offset⟩ c ⟨tree, holder.bag, world⟩ with
    ⟨⟨next, step⟩, s⟩ | ⟨e, s⟩
  · exact ⟨rfl, rfl, rfl, h.call rfl hmem rfl rfl⟩
  · exact (h.call rfl hmem rfl rfl).handedOn

/-- The innermost feature leaves, and finishes with the bag of its group. -/
theorem releaseTop_passes (g : Grammar D F K V Entry W) (text : SourceText)
    (h : Holding m.bags m.holders m.uses) :
    Passes (fun _ m' => m'.waiting = m.waiting ∧ Holding m'.bags m'.holders m'.uses)
      (releaseTop g.logged text m) := by
  obtain ⟨tree, ⟨world, calls⟩, ⟨frames, pushed, maxDepth⟩, waiting, offset, bags⟩ := m
  cases frames with
  | nil => exact ⟨rfl, h⟩
  | cons entry rest =>
      obtain ⟨id, frame⟩ := entry
      simp only [releaseTop, Stack.pop?, Grammar.logged, Scene.mapWorld]
      rcases g.exit frame.feature.feature ⟨text, frame.ancestor, offset⟩ ⟨tree, frame.bag, world⟩ with
        ⟨_, s⟩ | ⟨e, s⟩
      · exact ⟨rfl, (Holding.call h rfl List.mem_cons_self rfl rfl).drop⟩
      · exact (Holding.call h rfl List.mem_cons_self rfl rfl).handedOn

/-- A dispatch rule is given a new bag, which its candidates hold from then on. -/
theorem propose_holding (g : Grammar D F K V Entry W) (text : SourceText) (rule : D) (ancestor : NodeId)
    (h : Holding m.bags holders m.uses) :
    let proposal := m.propose g.logged text rule ancestor
    Holding proposal.2.bags
      (⟨m.bags, proposal.1.features.map Tagged.tag, proposal.1.bag⟩ :: holders) proposal.2.uses := by
  refine h.propose rfl rfl rfl ?_
  intro tag htag
  simp only [propose, Grammar.logged, List.mem_map, List.mem_mapIdx] at htag
  rcases htag with ⟨_, ⟨place, hplace, rfl⟩, rfl⟩
  exact ⟨rfl, hplace⟩

theorem push_passes (h : Holding m.bags (frame.holder :: m.holders) m.uses) :
    Passes (fun _ m' => m'.waiting = m.waiting ∧ Holding m'.bags m'.holders m'.uses) (push frame m) := by
  simp only [push, Stack.push]
  split
  · next hstack =>
      split at hstack
      · cases hstack
      · cases hstack
        exact ⟨rfl, h⟩
  · exact h.handedOn

/-! ## Rounds -/

theorem redirect_passes (h : Holding m.bags m.holders m.uses) (target : Redirect D) :
    Passes (fun _ => Entrusted) (redirect g.logged text target ancestor m) := by
  simp only [redirect]
  split
  · have hpropose := propose_holding g text target.dispatch (target.ancestor.getD ancestor) h
    refine ⟨hpropose.drop, ?_⟩
    rintro _ ⟨rfl⟩
    exact ⟨_, hpropose⟩
  · exact h.handedOn

theorem follow_passes (h : Holding m.bags m.holders m.uses) (hidle : m.waiting = none)
    (step : Step (Redirect D)) : Passes (fun _ => Entrusted) (follow g.logged text step ancestor m) := by
  cases step with
  | proceed => exact Entrusted.of_idle h hidle
  | decline =>
      refine (releaseTop_passes g text h).imp ?_
      rintro ⟨⟩ m' ⟨hwaiting, hactive⟩
      exact Entrusted.of_idle hactive (hwaiting.trans hidle)
  | redirect target => exact redirect_passes h target

/-- Candidates are asked with the bag of their group; the one that claims the character takes it to the
stack. -/
theorem offer_passes {group : Nat} {features : List (Tagged F)} {bag : Bag Key Entry}
    (h : Holding m.bags (⟨group, features.map Tagged.tag, bag⟩ :: m.holders) m.uses)
    (hidle : m.waiting = none) :
    Passes (fun _ => Entrusted) (offer g.logged text c ancestor features bag m) := by
  -- By induction on the candidates; each that declines leaves its bag to the next.
  induction features generalizing bag m with
  | nil => exact Entrusted.of_idle h.drop hidle
  | cons feature features ih =>
      have hgroup : feature.tag.group = group :=
        (h.tags _ List.mem_cons_self feature.tag (by simp)).1
      refine (ask_passes g text ancestor c h (by simp)).bind ?_
      rintro ⟨frame, step⟩ m₁ ⟨htag, hstack, hwaiting, hasked⟩
      have hholders : m₁.holders = m.holders := by rw [Machine.holders, hstack, Machine.holders]
      rw [← hholders] at hasked
      by_cases hclaims : step.claims
      · simp only [hclaims, if_true]
        -- The candidates behind it are dropped, so its frame is the only one with this bag.
        have hframe : frame.holder = ⟨group, [feature.tag], frame.bag⟩ := by
          rw [Frame.holder, htag, hgroup]
        have hclaimed : Holding m₁.bags (frame.holder :: m₁.holders) m₁.uses := by
          rw [hframe]
          exact hasked.restrict (by simp)
        refine (push_passes hclaimed).bind ?_
        rintro ⟨⟩ m₂ ⟨hwaiting₂, hactive⟩
        exact follow_passes hactive (hwaiting₂.trans (hwaiting.trans hidle)) step
      · simp only [hclaims]
        exact ih (hasked.restrict fun _ => List.mem_cons_of_mem _) (hwaiting.trans hidle)

/-- The innermost feature is asked with the bag of its group. -/
theorem stepTop_passes (h : Holding m.bags m.holders m.uses) (hidle : m.waiting = none) :
    Passes (fun _ => Entrusted) (stepTop g.logged text c m) := by
  simp only [stepTop]
  rcases hframes : m.stack.frames with _ | ⟨⟨id, frame⟩, rest⟩
  · rw [Stack.top?_of_nil hframes]
    exact Entrusted.of_idle h hidle
  · rw [Stack.top?_of_cons hframes]
    have hholding : Holding m.bags (frame.holder :: rest.map fun entry => entry.2.holder) m.uses := by
      rw [Machine.holders, hframes] at h
      exact h
    have hask := ask_passes g text frame.ancestor c hholding List.mem_cons_self
    dsimp only
    rcases hresult : ask g.logged text frame.feature frame.ancestor frame.bag c m with
      ⟨⟨next, step⟩, m₁⟩ | ⟨e, m₁⟩
    · dsimp only
      rw [Frame.holder, hresult] at hask
      obtain ⟨htag, hstack, hwaiting, hasked⟩ := hask
      refine follow_passes (m := { m₁ with stack := m₁.stack.setTop next }) ?_ (hwaiting.trans hidle)
        step
      have hset : (m₁.stack.setTop next).frames = (id, next) :: rest := by
        rw [hstack, Stack.setTop_of_cons hframes]
      rw [Machine.holders, hset, List.map_cons, Frame.holder, htag]
      exact hasked
    · rw [Frame.holder, hresult] at hask
      exact hask

/-- One round. -/
theorem Entrusted.advance (h : Entrusted m) (g : Grammar D F K V Entry W) (text : SourceText) (start : D)
    (c : Char) : Passes (fun _ => Entrusted) (advance g.logged text start c m) := by
  unfold Machine.advance
  rcases hwaiting : m.waiting with _ | candidates
  · dsimp only
    split
    · exact offer_passes (propose_holding g text start Tree.root h.active) rfl
    · exact stepTop_passes h.active hwaiting
  · rcases h.waiting candidates hwaiting with ⟨group, hholding⟩
    exact offer_passes hholding rfl

/-- At the end all features finish, each with the bag of its group. -/
theorem releaseEach_passes (frames : List (FrameId × Frame (Tagged F) Entry))
    (h : Holding m.bags m.holders m.uses) :
    Passes (fun _ m' => HandedOn m'.bags m'.uses) (releaseEach g.logged text frames m) := by
  induction frames generalizing m with
  | nil => exact h.handedOn
  | cons entry rest ih => exact (releaseTop_passes g text h).bind fun _ _ hreleased => ih hreleased.2

/-- In every run, also in one that fails, bags are handed on within their groups. -/
theorem Entrusted.run_handedOn (h : Entrusted m) (g : Grammar D F K V Entry W) (text : SourceText)
    (start : D) : Passes (fun _ m' => HandedOn m'.bags m'.uses) (run g.logged text start m) := by
  -- By the recursion of the run, with one case for the end of the text and two for a round.
  induction m using Machine.run.induct g.logged text start with
  | case1 m hend =>
      rw [run_of_end hend]
      exact releaseEach_passes _ h.active
  | case2 m c hc _ next hadvance ih =>
      rw [run_of_round hc hadvance]
      have hround := h.advance g text start c
      rw [hadvance] at hround
      exact ih hround
  | case3 m c hc e failed hadvance =>
      rw [run_of_failure hc hadvance]
      have hround := h.advance g text start c
      rw [hadvance] at hround
      exact hround

theorem entrusted_initial (root : Node K V) (world : W) (limits : Limits) :
    Entrusted (initial root (world, []) limits : Logged D F K V Entry W) :=
  .of_idle .start rfl

end Rounds

end Machine

end Reading
end FeatureTree
