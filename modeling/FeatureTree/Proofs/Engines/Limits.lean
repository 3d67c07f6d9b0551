import FeatureTree.Proofs.Reading.Logged
import FeatureTree.Proofs.Rebuilding.Logged

/-!
# Limits — what the limit of the stack decides, in both engines

The limit decides whether a run goes on, and nothing else.  `limit_cutoff` compares the runs under two
limits: as long as the smaller one does not stop its run, both make the same calls and end in the same
way.  It also says when the limit stops a run: when a frame would be one too many.
-/

namespace FeatureTree

/-! ## Reading -/

namespace Reading
namespace Machine

variable {D F K V Key W : Type} {Entry : Key → Type}
variable {limit : Nat} {e e' : Error} {m : Logged D F K V Entry W}

theorem RaisedIn.unique (h : m.RaisedIn e) (h' : m.RaisedIn e') : e = e' :=
  latest_unique h h'

/-- A call that raised an error counts as failed. -/
theorem RaisedIn.fails (h : m.RaisedIn e) : ∃ act earlier, m.acts = act :: earlier ∧ act.Fails := by
  rcases h with ⟨call, earlier, hcalls, he⟩
  refine ⟨call.act, earlier.map Call.act, by rw [acts, hcalls]; rfl, ?_⟩
  cases call with
  | dispatched => cases he
  | handled _ _ _ _ _ result =>
      rcases result with ⟨_, _⟩ | ⟨_, _⟩
      · cases he
      · rfl
  | exited _ _ _ _ result =>
      rcases result with ⟨_, _⟩ | ⟨_, _⟩
      · cases he
      · rfl

/-- A run that was halted reports the limit if and only if a feature did, or a candidate claimed the
character while the stack was full. -/
theorem Halted.depthExceeded_iff (h : m.Halted limit e) :
    e = .violation (.depthExceeded limit) ↔
      m.RaisedIn (.violation (.depthExceeded limit)) ∨ ClaimsOverFull limit m.tags m.acts := by
  rcases h with ⟨ending, hhalts, hexplains⟩
  constructor
  · rintro rfl
    cases ending with
    | raised => exact .inl hexplains
    | claimOverflow => exact .inr hhalts.claimsOverFull
    | misdirected =>
        rcases hexplains with ⟨node, he⟩
        cases he
    | openOverflow => exact hexplains.elim
    | unclaimed => exact hexplains.elim
  · rintro (hraised | hclaim)
    · obtain rfl : ending = .raised := hhalts.ending_of_fails hraised.fails
      exact RaisedIn.unique hexplains hraised
    · obtain rfl : ending = .claimOverflow := hhalts.ending_of_claim hclaim
      exact hexplains

end Machine

namespace Reader

variable {D F K V Key W : Type} {Entry : Key → Type}
variable (g : Grammar D F K V Entry W) (start : D) (text : SourceText) (root : Node K V) (world : W)

/-- A reader under a limit, with a record of its calls. -/
def recorder (limit : Nat) : Reader D (Tagged F) K V Entry (Record D F K V Entry W) :=
  Reader.new g.logged start text root (world, []) ⟨limit⟩

/-- What a limit, and a larger one, mean for a reader. -/
structure CutOff (limit extra : Nat) : Prop where
  /-- Unless the limit is reported, under the larger limit the answer, the tree and the calls are the
  same. -/
  same :
    let small := (recorder g start text root world limit).read
    let large := (recorder g start text root world (limit + extra)).read
    small.1 = .error (.violation (.depthExceeded limit)) ∨
      large.1 = small.1 ∧ large.2.tree = small.2.tree ∧ large.2.offset = small.2.offset ∧
        large.2.machine.world = small.2.machine.world
  depth_le : ∀ n m,
    Iterates (Machine.round g.logged text start) n (recorder g start text root world limit).machine m →
      m.stack.depth ≤ limit
  failed_depth_le : ∀ e m,
    (recorder g start text root world limit).machine.run g.logged text start = .error e m →
      m.stack.depth ≤ limit
  /-- The limit is reported if a feature does so itself, or if a candidate claims the character while
  the stack is full. -/
  reports : ∀ e m,
    (recorder g start text root world limit).machine.run g.logged text start = .error e m →
      (e = .violation (.depthExceeded limit) ↔
        m.RaisedIn (.violation (.depthExceeded limit)) ∨ ClaimsOverFull limit m.tags m.acts)
  /-- Without the record the reader does the same. -/
  unrecorded : (Reader.new g start text root world ⟨limit⟩).read =
    ((recorder g start text root world limit).read.1,
      (recorder g start text root world limit).read.2.image g.unlogged limit)

theorem cutOff (limit extra : Nat) : CutOff g start text root world limit extra := by
  have hfits : Machine.Fits limit (recorder g start text root world limit).machine :=
    Machine.fits_initial root (world, []) ⟨limit⟩
  -- A run that fails was halted, whatever its error is.
  have hhalted : ∀ e m,
      (recorder g start text root world limit).machine.run g.logged text start = .error e m →
        m.Halted limit e := by
    intro e m hrun
    have htold : Machine.Told limit (recorder g start text root world limit).machine :=
      Machine.told_initial root world ⟨limit⟩
    have hhalted := htold.run g text start hfits
    rw [hrun] at hhalted
    exact hhalted
  exact {
    same := by
      rcases read_agrees (Grammar.Hom.refl g.logged) (r := recorder g start text root world limit) rfl
          (fun _ => hfits) (Nat.le_add_right limit extra) with hread | ⟨-, hstopped⟩
      · have hlarge : (recorder g start text root world (limit + extra)).read =
            ((recorder g start text root world limit).read.1, _) := hread
        intro small large
        simp only [large, hlarge]
        exact .inr ⟨rfl, rfl, rfl, rfl⟩
      · exact .inl hstopped
    depth_le := fun n m hiterates => (hfits.iterates hiterates).1.depth
    failed_depth_le := by
      intro e m hrun
      rcases hhalted e m hrun with ⟨ending, hhalts, -⟩
      have hlength : m.tags.length = m.stack.depth := List.length_map _
      exact hlength ▸ hhalts.length_le
    reports := fun e m hrun => (hhalted e m hrun).depthExceeded_iff
    unrecorded :=
      read_image g.unlogged (r := recorder g start text root world limit) rfl fun _ => hfits }

end Reader
end Reading

/-! ## Rebuilding -/

namespace Rebuilding
namespace Machine

variable {D F I J K V Key W : Type} {Entry : Key → Type}
variable {source : Tree I J} {limit : Nat} {e e' : Error} {m : Logged D F I J K V Entry W}
variable {cx cx' : Context I J} {target target' : Redirect D}

theorem RaisedIn.unique (h : m.RaisedIn e) (h' : m.RaisedIn e') : e = e' :=
  latest_unique h h'

theorem RaisedIn.fails (h : m.RaisedIn e) : ∃ act earlier, m.acts = act :: earlier ∧ act.Fails := by
  rcases h with ⟨call, earlier, hcalls, he⟩
  refine ⟨call.act, earlier.map Call.act, by rw [acts, hcalls]; rfl, ?_⟩
  cases call with
  | dispatched => cases he
  | handled _ _ _ _ _ result =>
      rcases result with ⟨_, _⟩ | ⟨_, _⟩
      · cases he
      · rfl
  | exited _ _ _ _ result =>
      rcases result with ⟨_, _⟩ | ⟨_, _⟩
      · cases he
      · rfl

theorem RedirectedBy.unique (h : m.RedirectedBy cx target) (h' : m.RedirectedBy cx' target') :
    cx = cx' ∧ target = target' :=
  Prod.mk.inj (latest_unique h h')

/-- A redirection that opens a region does not lead nowhere. -/
theorem OpensRegion.not_leadsNowhere (h : m.OpensRegion source cx target) :
    ¬ m.LeadsNowhere source cx target e := by
  rcases h with ⟨hknown, nested, node, hinput, -, hnode, hparent⟩
  rintro (⟨hunknown, -⟩ | ⟨other, hother, -, hrest⟩)
  · rw [hknown] at hunknown
    cases hunknown
  · obtain rfl : nested = other := Option.some.inj (hinput.symm.trans hother)
    rcases hrest with ⟨hnone, -⟩ | ⟨leaf, hleaf, hchildless, -⟩
    · rw [hnode] at hnone
      cases hnone
    · obtain rfl : node = leaf := Option.some.inj (hnode.symm.trans hleaf)
      rw [hparent] at hchildless
      cases hchildless

/-- The innermost feature redirects into another input while as many frames are active as the limit
allows. -/
def DescendsOverFull (source : Tree I J) (limit : Nat) (m : Logged D F I J K V Entry W) : Prop :=
  m.tags.length = limit ∧
    (∃ tag rest earlier, m.tags = some tag :: rest ∧ m.acts = .asked tag .claimed :: earlier) ∧
      ∃ cx target, m.RedirectedBy cx target ∧ m.OpensRegion source cx target

/-- A run that was halted reports the limit if and only if a feature did, or a candidate claimed the
child or a feature descended while the stack was full. -/
theorem Halted.depthExceeded_iff (h : m.Halted source limit e) :
    e = .violation (.depthExceeded limit) ↔
      m.RaisedIn (.violation (.depthExceeded limit)) ∨ ClaimsOverFull limit m.tags m.acts ∨
        m.DescendsOverFull source limit := by
  rcases h with ⟨ending, hhalts, hexplains⟩
  constructor
  · rintro rfl
    cases ending with
    | raised => exact .inl hexplains
    | claimOverflow => exact .inr (.inl hhalts.claimsOverFull)
    | openOverflow =>
        rcases hexplains with ⟨-, hredirected⟩
        exact .inr (.inr ⟨hhalts.openOverflow_top.1, hhalts.openOverflow_top.2, hredirected⟩)
    | misdirected =>
        rcases hexplains with ⟨cx, target, -, ⟨-, he⟩ | ⟨nested, -, -, ⟨-, he⟩ | ⟨node, -, -, he⟩⟩⟩
        · cases he
        · cases he
        · cases he
    | unclaimed =>
        rcases hexplains with ⟨node, index, he⟩
        cases he
  · rintro (hraised | hclaim | ⟨-, ⟨tag, rest, earlier, -, hacts⟩, cx, target, hredirected, hopens⟩)
    · obtain rfl : ending = .raised := hhalts.ending_of_fails hraised.fails
      exact RaisedIn.unique hexplains hraised
    · obtain rfl : ending = .claimOverflow := hhalts.ending_of_claim hclaim
      exact hexplains
    · rw [hacts] at hhalts
      rcases hhalts.ending_of_claimed with rfl | rfl | rfl
      · exact hexplains
      · exact hexplains.1
      · rcases hexplains with ⟨cx', target', hredirected', hnowhere⟩
        obtain ⟨rfl, rfl⟩ := hredirected.unique hredirected'
        exact absurd hnowhere hopens.not_leadsNowhere

/-- Also when a run has failed, no more frames are active than the limit allows. -/
theorem Told.depth_run (h : Told limit m) (g : Grammar D F I J K V Entry W) (source : Tree I J)
    (start : D) (rounds : Nat) :
    (Machine.run g.logged source start rounds m).2.stack.depth ≤ limit := by
  have hlength : ∀ m : Logged D F I J K V Entry W, m.tags.length = m.stack.depth :=
    fun m => List.length_map _
  have hrun := h.run g source start rounds
  rcases hresult : Machine.run g.logged source start rounds m with ⟨_ | e | _, m'⟩
  · rw [hresult] at hrun
    exact hlength m' ▸ hrun.1.chronicle.length_le
  · rw [hresult] at hrun
    rcases hrun with ⟨ending, hhalts, -⟩
    exact hlength m' ▸ hhalts.length_le
  · rw [hresult] at hrun
    exact hlength m' ▸ hrun.chronicle.length_le

end Machine

namespace Rebuilder

variable {D F I J K V Key W : Type} {Entry : Key → Type}
variable (g : Grammar D F I J K V Entry W) (start : D) (source : Tree I J) (rounds : Nat)
variable (root : Node K V) (world : W)

/-- A rebuilder under a limit, with a record of its calls. -/
def recorder (limit : Nat) : Rebuilder D (Tagged F) I J K V Entry (Record D F I J K V Entry W) :=
  Rebuilder.new g.logged start source rounds root (world, []) ⟨limit⟩

/-- What a limit, and a larger one, mean for a rebuilder. -/
structure CutOff (limit extra : Nat) : Prop where
  /-- Unless the limit is reported, under the larger limit the answer, the tree and the calls are the
  same. -/
  same :
    let small := (recorder g start source rounds root world limit).rebuild
    let large := (recorder g start source rounds root world (limit + extra)).rebuild
    small.1 = .failure (.violation (.depthExceeded limit)) ∨
      large.1 = small.1 ∧ large.2.tree = small.2.tree ∧
        large.2.machine.world = small.2.machine.world
  depth_le : ∀ n,
    ((recorder g start source rounds root world limit).machine.run
      g.logged source start n).2.stack.depth ≤ limit
  /-- The limit is reported if a feature does so itself, or if a candidate claims the child or a feature
  descends into another input while the stack is full. -/
  reports : ∀ e m,
    (recorder g start source rounds root world limit).machine.run g.logged source start rounds =
        (.failure e, m) →
      (e = .violation (.depthExceeded limit) ↔
        m.RaisedIn (.violation (.depthExceeded limit)) ∨ ClaimsOverFull limit m.tags m.acts ∨
          m.DescendsOverFull source limit)
  /-- Without the record the rebuilder does the same. -/
  unrecorded : (Rebuilder.new g start source rounds root world ⟨limit⟩).rebuild =
    ((recorder g start source rounds root world limit).rebuild.1,
      (recorder g start source rounds root world limit).rebuild.2.image g.unlogged limit)

theorem cutOff (limit extra : Nat) : CutOff g start source rounds root world limit extra := by
  have hsound : Machine.Sound (recorder g start source rounds root world limit).machine :=
    Machine.Reachable.sound
      (.initial root (world, []) ⟨limit⟩ : Machine.Reachable g.logged source start _)
  have hfits : Machine.Fits limit (recorder g start source rounds root world limit).machine :=
    Machine.fits_initial root (world, []) ⟨limit⟩
  have htold : Machine.Told limit (recorder g start source rounds root world limit).machine :=
    Machine.told_initial root world ⟨limit⟩
  exact {
    same := by
      rcases rebuild_agrees (Grammar.Hom.refl g.logged)
          (r := recorder g start source rounds root world limit) rfl (fun _ => ⟨hsound, hfits⟩)
          (Nat.le_add_right limit extra) with hrebuild | ⟨-, hstopped⟩
      · have hlarge : (recorder g start source rounds root world (limit + extra)).rebuild =
            ((recorder g start source rounds root world limit).rebuild.1, _) := hrebuild
        intro small large
        simp only [large, hlarge]
        exact .inr ⟨rfl, rfl, rfl⟩
      · exact .inl hstopped
    depth_le := fun n => htold.depth_run g source start n
    reports := by
      intro e m hrun
      have hhalted := htold.run g source start rounds
      rw [hrun] at hhalted
      exact Machine.Halted.depthExceeded_iff hhalted
    unrecorded := rebuild_image g.unlogged (r := recorder g start source rounds root world limit) rfl
      fun _ => ⟨hsound, hfits⟩ }

end Rebuilder
end Rebuilding

/-! ## Both engines -/

/-- The limit of the stack is a cut-off in both engines.  For every grammar and input, and a larger
limit: unless the run under the smaller limit reports that limit, both runs give the same answer, make
the same calls, and build the same tree.  The number of frames never exceeds the limit.  A run that fails
reports the limit if and only if a feature did, or a candidate claimed an element, or a feature
descended into another input, while as many frames were active as the limit allows.  Without the record
of the calls the engines do the same. -/
theorem limit_cutoff {D F K V Key W : Type} {Entry : Key → Type}
    (g : Reading.Grammar D F K V Entry W) (start : D) (text : SourceText) (root : Node K V) (world : W)
    {D' F' I J K' V' Key' W' : Type} {Entry' : Key' → Type}
    (g' : Rebuilding.Grammar D' F' I J K' V' Entry' W') (start' : D') (source : Tree I J) (rounds : Nat)
    (root' : Node K' V') (world' : W') (limit extra : Nat) :
    Reading.Reader.CutOff g start text root world limit extra ∧
      Rebuilding.Rebuilder.CutOff g' start' source rounds root' world' limit extra :=
  ⟨Reading.Reader.cutOff g start text root world limit extra,
    Rebuilding.Rebuilder.cutOff g' start' source rounds root' world' limit extra⟩

end FeatureTree
