import Mathlib.Data.List.ReduceOption
import FeatureTree.Feature.Scene
import FeatureTree.Feature.Step

/-!
# Chronicle — the calls of an engine, and the frames between them

An engine proposes features, asks them about elements, and lets them finish.  Each proposed feature has
a `Tag`, and an `Act` says what happened to which one.

`Chronicle` tells the acts together with the active frames: what may happen next when these frames are
active.  `Halts` tells the ways in which a run fails.  Both engines keep to it; see `Machine.Told`.

`Chronicle.inOrder` draws the conclusions that speak of acts alone: features finish in the reverse order
of their claims, each at most once and as the last thing that happens to it, and a candidate that
declined is left alone.
-/

namespace FeatureTree

/-! ## Acts -/

/-- A proposed feature: the number of the dispatch call that proposed it, and its place among the
candidates of that call. -/
structure Tag where
  group : Nat
  place : Nat
  deriving DecidableEq, Repr

/-- A feature with its tag. -/
structure Tagged (F : Type) where
  tag : Tag
  feature : F

/-- How a feature answers when it is asked. -/
inductive Answer where
  /-- It uses the element, or redirects. -/
  | claimed
  | declined
  | failed
  deriving DecidableEq, Repr

/-- How an answer counts in the order of calls. -/
def Step.answer {R : Type} (step : Step R) : Answer := if step.claims then .claimed else .declined

/-- The only answer that does not claim is a refusal. -/
theorem Step.eq_decline {R : Type} {step : Step R} (h : ¬ step.claims) : step = .decline := by
  cases step with
  | decline => rfl
  | proceed => exact absurd rfl h
  | redirect target => exact absurd rfl h

/-- One call, as far as it concerns the order of calls. -/
inductive Act where
  /-- A dispatch rule proposed that many candidates. -/
  | proposed (group count : Nat)
  | asked (tag : Tag) (answer : Answer)
  | finished (tag : Tag) (succeeded : Bool)
  deriving DecidableEq, Repr

namespace Act

/-- The feature that is called; none when a dispatch rule is called. -/
def tag? : Act → Option Tag
  | proposed _ _ => none
  | asked tag _ => some tag
  | finished tag _ => some tag

/-- The call ended with an error. -/
def Fails : Act → Prop
  | proposed _ _ => False
  | asked _ answer => answer = .failed
  | finished _ succeeded => succeeded = false

end Act

/-- The features that have claimed an element and not finished yet, the latest to claim its first one in
front.  Acts are listed with the latest in front. -/
def active : List Act → List Tag
  | [] => []
  | .asked tag .claimed :: earlier =>
      if tag ∈ active earlier then active earlier else tag :: active earlier
  | .finished tag _ :: earlier => (active earlier).erase tag
  | _ :: earlier => active earlier

/-- The feature was proposed, and has not been called since. -/
structure IsNew (tag : Tag) (acts : List Act) : Prop where
  proposed : ∃ count, tag.place < count ∧ .proposed tag.group count ∈ acts
  untouched : ∀ act ∈ acts, act.tag? ≠ some tag

/-- Dispatch calls have been numbered up to this number. -/
def NumberedBelow (number : Nat) (acts : List Act) : Prop :=
  ∀ group count, .proposed group count ∈ acts → group < number

section Numbers

variable {number : Nat} {acts : List Act}

theorem NumberedBelow.fresh (h : NumberedBelow number acts) :
    ∀ count, .proposed number count ∉ acts :=
  fun count hmem => Nat.lt_irrefl _ (h number count hmem)

theorem NumberedBelow.proposed (h : NumberedBelow number acts) (count : Nat) :
    NumberedBelow (number + 1) (.proposed number count :: acts) := by
  intro group n hmem
  rcases List.mem_cons.1 hmem with heq | hmem
  · cases heq
    exact Nat.lt_succ_self _
  · exact Nat.lt_succ_of_lt (h group n hmem)

/-- A feature is called, and no dispatch rule. -/
theorem NumberedBelow.called (h : NumberedBelow number acts) {act : Act}
    (hact : ∃ tag, act.tag? = some tag) : NumberedBelow number (act :: acts) := by
  intro group n hmem
  rcases List.mem_cons.1 hmem with rfl | hmem
  · rcases hact with ⟨tag, htag⟩
    cases htag
  · exact h group n hmem

end Numbers

/-! ## Chronicles -/

/-- The frames that are active after these acts, the innermost in front; a frame that belongs to no
feature has no tag.  At most `limit` frames are active. -/
inductive Chronicle (limit : Nat) : List (Option Tag) → List Act → Prop where
  | start : Chronicle limit [] []
  | proposed {frames acts group} (count : Nat) (h : Chronicle limit frames acts)
      (hgroup : ∀ n, .proposed group n ∉ acts) :
      Chronicle limit frames (.proposed group count :: acts)
  /-- A candidate declines. -/
  | declined {frames acts tag} (h : Chronicle limit frames acts) (hnew : IsNew tag acts) :
      Chronicle limit frames (.asked tag .declined :: acts)
  /-- A candidate claims the element, and becomes active. -/
  | claimed {frames acts tag} (h : Chronicle limit frames acts) (hnew : IsNew tag acts)
      (hroom : frames.length < limit) :
      Chronicle limit (some tag :: frames) (.asked tag .claimed :: acts)
  /-- The innermost feature stays active. -/
  | stayed {frames acts tag} (h : Chronicle limit (some tag :: frames) acts) :
      Chronicle limit (some tag :: frames) (.asked tag .claimed :: acts)
  /-- The innermost feature declines, leaves, and finishes. -/
  | left {frames acts tag} (h : Chronicle limit (some tag :: frames) acts) :
      Chronicle limit frames (.finished tag true :: .asked tag .declined :: acts)
  /-- The innermost feature leaves at the end of its input, and finishes. -/
  | finished {frames acts tag} (h : Chronicle limit (some tag :: frames) acts) :
      Chronicle limit frames (.finished tag true :: acts)
  /-- A frame of no feature becomes active. -/
  | opened {frames acts} (h : Chronicle limit frames acts) (hroom : frames.length < limit) :
      Chronicle limit (none :: frames) acts
  | closed {frames acts} (h : Chronicle limit (none :: frames) acts) : Chronicle limit frames acts

/-- Why a run fails. -/
inductive Ending where
  /-- The last call failed. -/
  | raised
  /-- A candidate claims the element, and there is no room for its frame. -/
  | claimOverflow
  /-- A feature redirects to another input, and there is no room for the frame of that. -/
  | openOverflow
  /-- A redirection leads nowhere. -/
  | misdirected
  /-- All candidates declined an element that must be claimed. -/
  | unclaimed
  deriving DecidableEq, Repr

/-- The acts of a run that fails, why it does, and the frames that are active then.  After the failure
nothing is called. -/
inductive Halts (limit : Nat) : List (Option Tag) → List Act → Ending → Prop where
  | candidateFailed {frames acts tag} (h : Chronicle limit frames acts) (hnew : IsNew tag acts) :
      Halts limit frames (.asked tag .failed :: acts) .raised
  | featureFailed {frames acts tag} (h : Chronicle limit (some tag :: frames) acts) :
      Halts limit (some tag :: frames) (.asked tag .failed :: acts) .raised
  | leaveFailed {frames acts tag} (h : Chronicle limit (some tag :: frames) acts) :
      Halts limit frames (.finished tag false :: .asked tag .declined :: acts) .raised
  | finishFailed {frames acts tag} (h : Chronicle limit (some tag :: frames) acts) :
      Halts limit frames (.finished tag false :: acts) .raised
  | claimOverflow {frames acts tag} (h : Chronicle limit frames acts) (hnew : IsNew tag acts)
      (hfull : frames.length = limit) :
      Halts limit frames (.asked tag .claimed :: acts) .claimOverflow
  | openOverflow {frames acts tag}
      (h : Chronicle limit (some tag :: frames) (.asked tag .claimed :: acts))
      (hfull : frames.length + 1 = limit) :
      Halts limit (some tag :: frames) (.asked tag .claimed :: acts) .openOverflow
  | misdirected {frames acts tag}
      (h : Chronicle limit (some tag :: frames) (.asked tag .claimed :: acts)) :
      Halts limit (some tag :: frames) (.asked tag .claimed :: acts) .misdirected
  | unclaimed {frames acts group count} (h : Chronicle limit frames acts)
      (hproposed : .proposed group count ∈ acts)
      (hdeclined : ∀ place < count, .asked ⟨group, place⟩ .declined ∈ acts)
      (hquiet : ∀ tag earlier, acts ≠ .asked tag .claimed :: earlier) :
      Halts limit frames acts .unclaimed

namespace Chronicle

variable {limit : Nat} {frames : List (Option Tag)} {acts : List Act}

theorem length_le (h : Chronicle limit frames acts) : frames.length ≤ limit := by
  induction h with
  | start => exact Nat.zero_le _
  | proposed | declined | stayed => assumption
  | claimed _ _ hroom => exact hroom
  | opened _ hroom => exact hroom
  | left _ ih => exact Nat.le_of_succ_le ih
  | finished _ ih => exact Nat.le_of_succ_le ih
  | closed _ ih => exact Nat.le_of_succ_le ih

/-- No call failed so far. -/
theorem not_fails (h : Chronicle limit frames acts) : ∀ act ∈ acts, ¬ act.Fails := by
  induction h with
  | start => simp
  | opened _ _ ih => exact ih
  | closed _ ih => exact ih
  | proposed count _ _ ih => simpa [Act.Fails] using ih
  | declined _ _ ih => simpa [Act.Fails] using ih
  | claimed _ _ _ ih => simpa [Act.Fails] using ih
  | stayed _ ih => simpa [Act.Fails] using ih
  | left _ ih => simpa [Act.Fails] using ih
  | finished _ ih => simpa [Act.Fails] using ih

/-! ## Active features -/

/-- What the acts say about the frames that are active. -/
structure Live (frames : List (Option Tag)) (acts : List Act) : Prop where
  nodup : frames.reduceOption.Nodup
  active_eq : active acts = frames.reduceOption
  called : ∀ tag, some tag ∈ frames → ∃ act ∈ acts, act.tag? = some tag
  /-- An active feature has claimed each element so far. -/
  claimed : ∀ tag, some tag ∈ frames → ∀ act ∈ acts, act.tag? = some tag → act = .asked tag .claimed

namespace Live

variable {tag : Tag} {act : Act}

theorem not_mem_of_new (h : Live frames acts) (hnew : IsNew tag acts) : some tag ∉ frames := by
  intro hmem
  rcases h.called tag hmem with ⟨act, hact, htag⟩
  exact hnew.untouched act hact htag

/-- An act that concerns no active feature. -/
theorem other (h : Live frames acts) (hactive : active (act :: acts) = active acts)
    (hother : ∀ tag, some tag ∈ frames → act.tag? ≠ some tag) : Live frames (act :: acts) where
  nodup := h.nodup
  active_eq := hactive.trans h.active_eq
  called tag hmem := by
    rcases h.called tag hmem with ⟨before, hbefore, htag⟩
    exact ⟨before, List.mem_cons_of_mem _ hbefore, htag⟩
  claimed tag hmem next hnext htag := by
    rcases List.mem_cons.1 hnext with rfl | hnext
    · exact absurd htag (hother tag hmem)
    · exact h.claimed tag hmem next hnext htag

theorem head_active (h : Live (some tag :: frames) acts) : (active acts).head? = some tag := by
  rw [h.active_eq]
  rfl

theorem mem_active (h : Live (some tag :: frames) acts) : tag ∈ active acts :=
  List.mem_of_mem_head? h.head_active

/-- The innermost frame leaves, and its feature finishes, perhaps after it has declined. -/
theorem leave (h : Live (some tag :: frames) acts) {ok : Bool} {acts' : List Act}
    (hactive : active acts' = active acts) (hkept : ∀ act ∈ acts, act ∈ acts')
    (hadded : ∀ act ∈ acts', act = .asked tag .declined ∨ act ∈ acts) :
    Live frames (.finished tag ok :: acts') where
  nodup := (List.nodup_cons.1 h.nodup).2
  active_eq := by
    have hcons : active acts' = tag :: frames.reduceOption := hactive.trans h.active_eq
    rw [active, hcons, List.erase_cons_head]
  called other hmem := by
    rcases h.called other (List.mem_cons_of_mem _ hmem) with ⟨act, hact, htag⟩
    exact ⟨act, List.mem_cons_of_mem _ (hkept act hact), htag⟩
  claimed other hmem act hact htag := by
    have hne : tag ≠ other := by
      rintro rfl
      exact (List.nodup_cons.1 h.nodup).1 (List.reduceOption_mem_iff.2 hmem)
    rcases List.mem_cons.1 hact with rfl | hact
    · exact absurd (Option.some.inj htag) hne
    · rcases hadded act hact with rfl | hact
      · exact absurd (Option.some.inj htag) hne
      · exact h.claimed other (List.mem_cons_of_mem _ hmem) act hact htag

end Live

theorem live (h : Chronicle limit frames acts) : Live frames acts := by
  -- Only a claim makes a feature active, and only its exit ends that.
  induction h with
  | start => exact ⟨List.nodup_nil, rfl, by simp, by simp⟩
  | proposed count _ _ ih => exact ih.other rfl (by simp [Act.tag?])
  | declined _ hnew ih =>
      refine ih.other rfl ?_
      intro tag hmem htag
      exact ih.not_mem_of_new hnew (Option.some.inj htag ▸ hmem)
  | @claimed frames acts tag _ hnew _ ih =>
      have hfresh : tag ∉ frames.reduceOption := fun hmem =>
        ih.not_mem_of_new hnew (List.reduceOption_mem_iff.1 hmem)
      refine ⟨List.nodup_cons.2 ⟨hfresh, ih.nodup⟩, ?_, ?_, ?_⟩
      · have hactive : tag ∉ active acts := ih.active_eq ▸ hfresh
        rw [active, if_neg hactive, ih.active_eq]
        rfl
      · intro other hmem
        rcases List.mem_cons.1 hmem with heq | hmem
        · exact ⟨_, List.mem_cons_self, heq ▸ rfl⟩
        · rcases ih.called other hmem with ⟨act, hact, htag⟩
          exact ⟨act, List.mem_cons_of_mem _ hact, htag⟩
      · intro other hmem act hact htag
        rcases List.mem_cons.1 hact with rfl | hact
        · rw [Option.some.inj htag]
        · rcases List.mem_cons.1 hmem with heq | hmem
          · exact absurd (heq ▸ htag) (hnew.untouched act hact)
          · exact ih.claimed other hmem act hact htag
  | @stayed frames acts tag _ ih =>
      refine ⟨ih.nodup, ?_, ?_, ?_⟩
      · rw [active, if_pos ih.mem_active, ih.active_eq]
      · intro other hmem
        rcases ih.called other hmem with ⟨act, hact, htag⟩
        exact ⟨act, List.mem_cons_of_mem _ hact, htag⟩
      · intro other hmem act hact htag
        rcases List.mem_cons.1 hact with rfl | hact
        · rw [Option.some.inj htag]
        · exact ih.claimed other hmem act hact htag
  | left _ ih => exact ih.leave rfl (fun _ => List.mem_cons_of_mem _) fun _ => List.mem_cons.1
  | finished _ ih => exact ih.leave rfl (fun _ => id) fun _ => .inr
  | opened _ _ ih => exact ⟨ih.nodup, ih.active_eq, by simpa using ih.called, by simpa using ih.claimed⟩
  | closed _ ih => exact ⟨ih.nodup, ih.active_eq, by simpa using ih.called, by simpa using ih.claimed⟩

/-- Features that are called were proposed before. -/
theorem proposed_of_called (h : Chronicle limit frames acts) {tag : Tag} :
    ∀ act ∈ acts, act.tag? = some tag →
      ∃ count, tag.place < count ∧ .proposed tag.group count ∈ acts := by
  -- The new act calls a feature that is new or active; both were proposed.
  have hcons : ∀ {acts : List Act} {act : Act},
      (∀ act ∈ acts, act.tag? = some tag →
        ∃ count, tag.place < count ∧ .proposed tag.group count ∈ acts) →
      (act.tag? = some tag → ∃ count, tag.place < count ∧ .proposed tag.group count ∈ acts) →
      ∀ before ∈ act :: acts, before.tag? = some tag →
        ∃ count, tag.place < count ∧ .proposed tag.group count ∈ act :: acts := by
    intro acts act hacts hact before hbefore htag
    have hfound : ∃ count, tag.place < count ∧ .proposed tag.group count ∈ acts := by
      rcases List.mem_cons.1 hbefore with rfl | hbefore
      · exact hact htag
      · exact hacts before hbefore htag
    rcases hfound with ⟨count, hplace, hmem⟩
    exact ⟨count, hplace, List.mem_cons_of_mem _ hmem⟩
  induction h with
  | start => simp
  | opened _ _ ih => exact ih
  | closed _ ih => exact ih
  | proposed count _ _ ih => exact hcons ih (by simp [Act.tag?])
  | declined _ hnew ih => exact hcons ih fun htag => Option.some.inj htag ▸ hnew.proposed
  | claimed _ hnew _ ih => exact hcons ih fun htag => Option.some.inj htag ▸ hnew.proposed
  | stayed h ih =>
      refine hcons ih fun htag => ?_
      rcases h.live.called tag (Option.some.inj htag ▸ List.mem_cons_self) with ⟨act, hact, hcalled⟩
      exact ih act hact hcalled
  | @left _ acts leaver h ih =>
      have hdeclined : ∀ before ∈ Act.asked leaver .declined :: acts, before.tag? = some tag →
          ∃ count, tag.place < count ∧
            .proposed tag.group count ∈ Act.asked leaver .declined :: acts := by
        refine hcons ih fun htag => ?_
        rcases h.live.called tag (Option.some.inj htag ▸ List.mem_cons_self) with
          ⟨act, hact, hcalled⟩
        exact ih act hact hcalled
      exact hcons hdeclined fun htag => hdeclined _ List.mem_cons_self htag
  | finished h ih =>
      refine hcons ih fun htag => ?_
      rcases h.live.called tag (Option.some.inj htag ▸ List.mem_cons_self) with ⟨act, hact, hcalled⟩
      exact ih act hact hcalled

/-- A feature has finished once if it has claimed an element and is not active any more, and has not
finished otherwise. -/
theorem count_finished (h : Chronicle limit frames acts) (tag : Tag) :
    acts.count (.finished tag true) =
      if .asked tag .claimed ∈ acts ∧ some tag ∉ frames then 1 else 0 := by
  -- A feature on top of the frames has claimed and is not below, so that its exit counts once.
  have hclaimed : ∀ {frames : List (Option Tag)} {acts : List Act} {tag : Tag},
      Chronicle limit (some tag :: frames) acts →
        .asked tag .claimed ∈ acts ∧ some tag ∉ frames := by
    intro frames acts tag h
    rcases h.live.called tag List.mem_cons_self with ⟨act, hact, htag⟩
    obtain rfl := h.live.claimed tag List.mem_cons_self act hact htag
    exact ⟨hact, fun hmem =>
      (List.nodup_cons.1 h.live.nodup).1 (List.reduceOption_mem_iff.2 hmem)⟩
  induction h with
  | start => simp
  | proposed count _ _ ih => simpa using ih
  | declined _ _ ih => simpa using ih
  | opened _ _ ih => simpa using ih
  | closed _ ih => simpa using ih
  | @claimed frames acts new _ hnew _ ih =>
      by_cases hsame : tag = new
      · subst hsame
        have hold : .asked tag .claimed ∉ acts := fun hmem => hnew.untouched _ hmem rfl
        simpa [hold] using ih
      · simpa [hsame] using ih
  | @stayed frames acts top h ih =>
      by_cases hsame : tag = top
      · subst hsame
        simpa using ih
      · simpa [hsame] using ih
  | @left frames acts top h ih =>
      rcases hclaimed h with ⟨hmem, hgone⟩
      by_cases hsame : tag = top
      · subst hsame
        simpa [hmem, hgone] using ih
      · have hother : ¬ top = tag := fun heq => hsame heq.symm
        simpa [hsame, hother] using ih
  | @finished frames acts top h ih =>
      rcases hclaimed h with ⟨hmem, hgone⟩
      by_cases hsame : tag = top
      · subst hsame
        simpa [hmem, hgone] using ih
      · have hother : ¬ top = tag := fun heq => hsame heq.symm
        simpa [hsame, hother] using ih

end Chronicle

/-! ## Candidates in line -/

/-- Candidates that wait to be asked: those of a dispatch call from a place on.  The ones in front of
them declined. -/
structure Offered (group count place : Nat) (tags : List Tag) (acts : List Act) : Prop where
  tags_eq : tags = (List.range' place (count - place)).map (Tag.mk group)
  place_le : place ≤ count
  proposed : .proposed group count ∈ acts
  declined : ∀ p < place, .asked ⟨group, p⟩ .declined ∈ acts
  untouched : ∀ act ∈ acts, ∀ tag, act.tag? = some tag → tag.group = group → tag.place < place
  /-- The dispatch call or a refusal came last. -/
  quiet : ∀ tag earlier, acts ≠ .asked tag .claimed :: earlier

namespace Offered

variable {limit group count place : Nat} {frames : List (Option Tag)} {acts : List Act} {tag : Tag}
variable {tags : List Tag}

/-- After a dispatch call all its candidates wait. -/
theorem start (h : Chronicle limit frames acts) (hgroup : ∀ n, .proposed group n ∉ acts)
    (count : Nat) :
    Offered group count 0 ((List.range count).map (Tag.mk group)) (.proposed group count :: acts) where
  tags_eq := by rw [List.range_eq_range', Nat.sub_zero]
  place_le := Nat.zero_le _
  proposed := List.mem_cons_self
  declined := by simp
  untouched act hact tag htag hsame := by
    rcases List.mem_cons.1 hact with rfl | hact
    · cases htag
    · rcases h.proposed_of_called act hact htag with ⟨n, -, hproposed⟩
      exact absurd (hsame ▸ hproposed) (hgroup n)
  quiet := by simp

theorem tag_eq (h : Offered group count place (tag :: tags) acts) :
    place < count ∧ tag = ⟨group, place⟩ ∧
      tags = (List.range' (place + 1) (count - (place + 1))).map (Tag.mk group) := by
  have htags := h.tags_eq
  rcases hcount : count - place with _ | n
  · rw [hcount] at htags
    cases htags
  · rw [hcount, List.range'_succ, List.map_cons] at htags
    have hn : count - (place + 1) = n := by omega
    rw [hn]
    exact ⟨by omega, List.cons.inj htags⟩

theorem isNew (h : Offered group count place (tag :: tags) acts) : IsNew tag acts := by
  rcases h.tag_eq with ⟨hplace, rfl, -⟩
  refine ⟨⟨count, hplace, h.proposed⟩, ?_⟩
  intro act hact htag
  exact Nat.lt_irrefl place (h.untouched act hact _ htag rfl)

/-- The first candidate declines, and the next one is asked. -/
theorem next (h : Offered group count place (tag :: tags) acts) :
    Offered group count (place + 1) tags (.asked tag .declined :: acts) := by
  rcases h.tag_eq with ⟨hplace, rfl, htags⟩
  refine ⟨htags, hplace, List.mem_cons_of_mem _ h.proposed, ?_, ?_, by simp⟩
  · intro p hp
    rcases Nat.lt_or_eq_of_le (Nat.le_of_lt_succ hp) with hp | rfl
    · exact List.mem_cons_of_mem _ (h.declined p hp)
    · exact List.mem_cons_self
  · intro act hact tag htag hsame
    rcases List.mem_cons.1 hact with rfl | hact
    · cases htag
      exact Nat.lt_succ_self _
    · exact Nat.lt_succ_of_lt (h.untouched act hact tag htag hsame)

/-- When none waits, all candidates declined. -/
theorem all_declined (h : Offered group count place [] acts) :
    ∀ p < count, .asked ⟨group, p⟩ .declined ∈ acts := by
  have hlength : count - place = 0 := by simpa using (congrArg List.length h.tags_eq).symm
  have hplace := h.place_le
  intro p hp
  exact h.declined p (by omega)

end Offered

/-! ## The order of acts -/

/-- What an act requires of those before it: each dispatch call has a number of its own, only new
candidates and the innermost active feature are asked, and only the latter finishes. -/
def Due (earlier : List Act) : Act → Prop
  | .proposed group _ => ∀ n, .proposed group n ∉ earlier
  | .asked tag _ => IsNew tag earlier ∨ (active earlier).head? = some tag
  | .finished tag _ => (active earlier).head? = some tag

/-- With this act the feature is done: it finishes, or it is a candidate and declines. -/
def Settles (earlier : List Act) (tag : Tag) (act : Act) : Prop :=
  (∃ ok, act = .finished tag ok) ∨ act = .asked tag .declined ∧ tag ∉ active earlier

/-- Acts in order, the latest in front. -/
structure InOrder (acts : List Act) : Prop where
  due : ∀ later act earlier, acts = later ++ act :: earlier → Due earlier act
  /-- A feature that has finished, and a candidate that has declined, is not called again. -/
  settled : ∀ later act earlier tag, acts = later ++ act :: earlier → Settles earlier tag act →
    ∀ next ∈ later, next.tag? ≠ some tag
  /-- An active feature that declines finishes at once. -/
  left : ∀ later earlier tag, acts = later ++ .asked tag .declined :: earlier →
    tag ∈ active earlier → ∃ rest ok, later = rest ++ [.finished tag ok]
  /-- After a call that failed nothing is called. -/
  failed : ∀ later act earlier, acts = later ++ act :: earlier → act.Fails → later = []

section Order

variable {act : Act} {acts : List Act} {tag : Tag} {frames : List (Option Tag)} {limit : Nat}

theorem Settles.tag_eq {earlier : List Act} (h : Settles earlier tag act) : act.tag? = some tag := by
  rcases h with ⟨ok, rfl⟩ | ⟨rfl, -⟩ <;> rfl

/-- The feature that is called, if any, has claimed each element so far. -/
def CallsClaimant (act : Act) (acts : List Act) : Prop :=
  ∀ tag, act.tag? = some tag → ∀ before ∈ acts, before.tag? = some tag →
    before = .asked tag .claimed

theorem IsNew.callsClaimant (hnew : IsNew tag acts) (htag : act.tag? = some tag) :
    CallsClaimant act acts := by
  intro other hother before hbefore hcalled
  obtain rfl : tag = other := Option.some.inj (htag.symm.trans hother)
  exact absurd hcalled (hnew.untouched before hbefore)

theorem Chronicle.Live.callsClaimant (h : Live (some tag :: frames) acts)
    (htag : act.tag? = some tag) : CallsClaimant act acts := by
  intro other hother
  obtain rfl : tag = other := Option.some.inj (htag.symm.trans hother)
  exact h.claimed tag List.mem_cons_self

/-- A feature that has only claimed is not settled. -/
theorem CallsClaimant.not_settled (h : CallsClaimant act acts) {later earlier : List Act} {a : Act}
    (hsplit : acts = later ++ a :: earlier) (hsettles : Settles earlier tag a) :
    act.tag? ≠ some tag := by
  intro htag
  have ha : a ∈ acts := hsplit ▸ List.mem_append_right _ List.mem_cons_self
  have hclaimed := h tag htag a ha hsettles.tag_eq
  rcases hsettles with ⟨ok, rfl⟩ | ⟨rfl, -⟩
  · cases hclaimed
  · cases hclaimed

/-- One act follows, with which no active feature declines. -/
theorem InOrder.cons (h : InOrder acts) (hcalm : ∀ before ∈ acts, ¬ before.Fails)
    (hclaimant : CallsClaimant act acts) (hdue : Due acts act)
    (hstays : ∀ tag, act = .asked tag .declined → tag ∉ active acts) : InOrder (act :: acts) where
  due later a earlier hsplit := by
    rcases List.cons_eq_append_iff.1 hsplit with ⟨rfl, heq⟩ | ⟨rest, rfl, heq⟩
    · cases heq
      exact hdue
    · exact h.due rest a earlier heq
  settled later a earlier tag hsplit hsettles := by
    rcases List.cons_eq_append_iff.1 hsplit with ⟨rfl, heq⟩ | ⟨rest, rfl, heq⟩
    · simp
    · intro next hnext
      rcases List.mem_cons.1 hnext with rfl | hnext
      · exact hclaimant.not_settled heq hsettles
      · exact h.settled rest a earlier tag heq hsettles next hnext
  left later earlier tag hsplit hactive := by
    rcases List.cons_eq_append_iff.1 hsplit with ⟨rfl, heq⟩ | ⟨rest, rfl, heq⟩
    · cases heq
      exact absurd hactive (hstays tag rfl)
    · rcases h.left rest earlier tag heq hactive with ⟨rest, ok, rfl⟩
      exact ⟨act :: rest, ok, rfl⟩
  failed later a earlier hsplit hfails := by
    rcases List.cons_eq_append_iff.1 hsplit with ⟨rfl, heq⟩ | ⟨rest, rfl, heq⟩
    · rfl
    · exact absurd hfails (hcalm a (heq ▸ List.mem_append_right _ List.mem_cons_self))

/-- The innermost feature declines and finishes. -/
theorem InOrder.leave (h : InOrder acts) (hcalm : ∀ before ∈ acts, ¬ before.Fails)
    (hlive : Chronicle.Live (some tag :: frames) acts) (ok : Bool) :
    InOrder (.finished tag ok :: .asked tag .declined :: acts) where
  due later a earlier hsplit := by
    rcases List.cons_eq_append_iff.1 hsplit with ⟨rfl, heq⟩ | ⟨rest, rfl, heq⟩
    · cases heq
      exact hlive.head_active
    · rcases List.cons_eq_append_iff.1 heq with ⟨rfl, hinner⟩ | ⟨rest, rfl, hinner⟩
      · cases hinner
        exact .inr hlive.head_active
      · exact h.due rest a earlier hinner
  settled later a earlier other hsplit hsettles := by
    rcases List.cons_eq_append_iff.1 hsplit with ⟨rfl, heq⟩ | ⟨rest, rfl, heq⟩
    · simp
    · rcases List.cons_eq_append_iff.1 heq with ⟨rfl, hinner⟩ | ⟨rest, rfl, hinner⟩
      · -- The feature was active when it declined, and so it still had to finish.
        cases hinner
        rcases hsettles with ⟨ok, heq⟩ | ⟨heq, hinactive⟩
        · cases heq
        · cases heq
          exact absurd hlive.mem_active hinactive
      · have hfinished : CallsClaimant (.finished tag ok) acts := hlive.callsClaimant rfl
        have hdeclined : CallsClaimant (.asked tag .declined) acts := hlive.callsClaimant rfl
        simp only [List.mem_cons]
        rintro next (rfl | rfl | hnext)
        · exact hfinished.not_settled hinner hsettles
        · exact hdeclined.not_settled hinner hsettles
        · exact h.settled rest a earlier other hinner hsettles next hnext
  left later earlier other hsplit hactive := by
    rcases List.cons_eq_append_iff.1 hsplit with ⟨rfl, heq⟩ | ⟨rest, rfl, heq⟩
    · cases heq
    · rcases List.cons_eq_append_iff.1 heq with ⟨rfl, hinner⟩ | ⟨rest, rfl, hinner⟩
      · cases hinner
        exact ⟨[], ok, rfl⟩
      · rcases h.left rest earlier other hinner hactive with ⟨rest, last, rfl⟩
        exact ⟨_ :: _ :: rest, last, rfl⟩
  failed later a earlier hsplit hfails := by
    rcases List.cons_eq_append_iff.1 hsplit with ⟨rfl, heq⟩ | ⟨rest, rfl, heq⟩
    · rfl
    · rcases List.cons_eq_append_iff.1 heq with ⟨rfl, hinner⟩ | ⟨rest, rfl, hinner⟩
      · cases hinner
        cases hfails
      · exact absurd hfails (hcalm a (hinner ▸ List.mem_append_right _ List.mem_cons_self))

/-- The acts of a chronicle are in order. -/
theorem Chronicle.inOrder (h : Chronicle limit frames acts) : InOrder acts := by
  induction h with
  | start => exact ⟨by simp, by simp, by simp, by simp⟩
  | opened _ _ ih => exact ih
  | closed _ ih => exact ih
  | proposed count h hgroup ih =>
      exact ih.cons h.not_fails (by simp [CallsClaimant, Act.tag?]) hgroup (by simp)
  | declined h hnew ih =>
      refine ih.cons h.not_fails (hnew.callsClaimant rfl) (.inl hnew) ?_
      rintro _ ⟨rfl⟩ hactive
      rw [h.live.active_eq, List.reduceOption_mem_iff] at hactive
      exact h.live.not_mem_of_new hnew hactive
  | claimed h hnew _ ih =>
      exact ih.cons h.not_fails (hnew.callsClaimant rfl) (.inl hnew) (by simp)
  | stayed h ih =>
      exact ih.cons h.not_fails (h.live.callsClaimant rfl) (.inr h.live.head_active) (by simp)
  | left h ih => exact ih.leave h.not_fails h.live true
  | finished h ih =>
      exact ih.cons h.not_fails (h.live.callsClaimant rfl) h.live.head_active (by simp)

/-- The acts of a run that fails are in order. -/
theorem Halts.inOrder {ending : Ending} (h : Halts limit frames acts ending) : InOrder acts := by
  cases h with
  | candidateFailed h hnew =>
      exact h.inOrder.cons h.not_fails (hnew.callsClaimant rfl) (.inl hnew) (by simp)
  | featureFailed h =>
      exact h.inOrder.cons h.not_fails (h.live.callsClaimant rfl) (.inr h.live.head_active) (by simp)
  | leaveFailed h => exact h.inOrder.leave h.not_fails h.live false
  | finishFailed h =>
      exact h.inOrder.cons h.not_fails (h.live.callsClaimant rfl) h.live.head_active (by simp)
  | claimOverflow h hnew _ =>
      exact h.inOrder.cons h.not_fails (hnew.callsClaimant rfl) (.inl hnew) (by simp)
  | openOverflow h _ => exact h.inOrder
  | misdirected h => exact h.inOrder
  | unclaimed h _ _ _ => exact h.inOrder

end Order

/-! ## Engines that are called again and again -/

/-- No frame is left, and each feature that claimed an element has finished once. -/
structure Completed (limit : Nat) (acts : List Act) : Prop where
  chronicle : Chronicle limit [] acts
  active_eq : active acts = []
  finished : ∀ tag, .asked tag .claimed ∈ acts → acts.count (.finished tag true) = 1

/-- How an engine stands that has come to some status, by its active frames and what was called so far.
An engine that is ready may have been cut off. -/
structure Disciplined (limit : Nat) (status : Status) (frames : List (Option Tag))
    (acts : List Act) : Prop where
  inOrder : InOrder acts
  ready : status = .ready → Chronicle limit frames acts
  done : status = .done → frames = [] ∧ Completed limit acts
  failed : status = .failed → frames = [] ∧ ∃ before ending, Halts limit before acts ending

section Engines

variable {limit : Nat} {frames : List (Option Tag)} {acts : List Act} {ending : Ending}

theorem Chronicle.completed (h : Chronicle limit [] acts) : Completed limit acts where
  chronicle := h
  active_eq := h.live.active_eq
  finished tag hmem := by simp [h.count_finished tag, hmem]

theorem Chronicle.disciplined_ready (h : Chronicle limit frames acts) :
    Disciplined limit .ready frames acts where
  inOrder := h.inOrder
  ready _ := h
  done hstatus := nomatch hstatus
  failed hstatus := nomatch hstatus

theorem Chronicle.disciplined_done (h : Chronicle limit [] acts) :
    Disciplined limit .done [] acts where
  inOrder := h.inOrder
  ready hstatus := nomatch hstatus
  done _ := ⟨rfl, h.completed⟩
  failed hstatus := nomatch hstatus

theorem Halts.disciplined (h : Halts limit frames acts ending) : Disciplined limit .failed [] acts where
  inOrder := h.inOrder
  ready hstatus := nomatch hstatus
  done hstatus := nomatch hstatus
  failed _ := ⟨rfl, frames, ending, h⟩

end Engines

/-! ## How a run fails -/

/-- What is read off the latest call of a record has one value. -/
theorem latest_unique {Call α : Type} {calls : List Call} {read : Call → Option α} {a b : α}
    (h : ∃ call earlier, calls = call :: earlier ∧ read call = some a)
    (h' : ∃ call earlier, calls = call :: earlier ∧ read call = some b) : a = b := by
  rcases h with ⟨call, earlier, hcalls, ha⟩
  rcases h' with ⟨call', earlier', hcalls', hb⟩
  obtain ⟨rfl, -⟩ := List.cons.inj (hcalls.symm.trans hcalls')
  exact Option.some.inj (ha.symm.trans hb)

section Failures

variable {limit : Nat} {frames : List (Option Tag)} {acts : List Act} {ending : Ending} {tag : Tag}

theorem Halts.length_le (h : Halts limit frames acts ending) : frames.length ≤ limit := by
  cases h with
  | candidateFailed h _ => exact h.length_le
  | featureFailed h => exact h.length_le
  | leaveFailed h => exact Nat.le_of_succ_le h.length_le
  | finishFailed h => exact Nat.le_of_succ_le h.length_le
  | claimOverflow _ _ hfull => exact Nat.le_of_eq hfull
  | openOverflow h _ => exact h.length_le
  | misdirected h => exact h.length_le
  | unclaimed h _ _ _ => exact h.length_le

/-- A candidate claims an element while as many frames are active as the limit allows. -/
def ClaimsOverFull (limit : Nat) (frames : List (Option Tag)) (acts : List Act) : Prop :=
  frames.length = limit ∧
    ∃ tag earlier, acts = .asked tag .claimed :: earlier ∧ IsNew tag earlier ∧ some tag ∉ frames

theorem Halts.claimsOverFull (h : Halts limit frames acts .claimOverflow) :
    ClaimsOverFull limit frames acts := by
  cases h with
  | claimOverflow h hnew hfull =>
      exact ⟨hfull, _, _, rfl, hnew, h.live.not_mem_of_new hnew⟩

theorem Halts.openOverflow_top (h : Halts limit frames acts .openOverflow) :
    frames.length = limit ∧
      ∃ tag rest earlier, frames = some tag :: rest ∧ acts = .asked tag .claimed :: earlier := by
  cases h with
  | openOverflow _ hfull => exact ⟨hfull, _, _, _, rfl, rfl⟩

theorem Halts.ending_of_fails (h : Halts limit frames acts ending)
    (hfails : ∃ act earlier, acts = act :: earlier ∧ act.Fails) : ending = .raised := by
  rcases hfails with ⟨act, earlier, rfl, hfails⟩
  cases h with
  | candidateFailed | featureFailed | leaveFailed | finishFailed => rfl
  | claimOverflow | openOverflow | misdirected => cases hfails
  | unclaimed h _ _ _ => exact absurd hfails (h.not_fails _ List.mem_cons_self)

theorem Halts.ending_of_claimed (h : Halts limit frames (.asked tag .claimed :: acts) ending) :
    ending = .claimOverflow ∨ ending = .openOverflow ∨ ending = .misdirected := by
  cases h with
  | claimOverflow => exact .inl rfl
  | openOverflow => exact .inr (.inl rfl)
  | misdirected => exact .inr (.inr rfl)
  | unclaimed _ _ _ hquiet => exact absurd rfl (hquiet tag acts)

theorem Halts.ending_of_claim (h : Halts limit frames acts ending)
    (hclaim : ClaimsOverFull limit frames acts) : ending = .claimOverflow := by
  rcases hclaim with ⟨-, tag, earlier, rfl, -, habsent⟩
  cases h with
  | claimOverflow => rfl
  | openOverflow => exact absurd List.mem_cons_self habsent
  | misdirected => exact absurd List.mem_cons_self habsent
  | unclaimed _ _ _ hquiet => exact absurd rfl (hquiet tag earlier)

end Failures

end FeatureTree
