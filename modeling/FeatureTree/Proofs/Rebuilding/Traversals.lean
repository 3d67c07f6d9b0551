import FeatureTree.Proofs.Rebuilding.Halting

/-!
# Traversals — every child is finished once, and in order

A child is finished when a feature uses it, or when a region that was opened at it ends.  In a run that
succeeds and enters no node again, a traversal finishes every child from its first index on to the last
one, each exactly once and one after the other.

The proof follows the recorded index of the traversed node.  It grows by one in the rounds that finish
a child of that node, and stays the same in all others: while a region is open, the node around it waits
at the child where the region was opened.
-/

namespace FeatureTree
namespace Rebuilding
namespace Machine

variable {D F I J K V Key W : Type} {Entry : Key → Type}

/-! ## Numbers that climb by single steps -/

section Climbs

variable {f : Nat → Nat} {lo hi : Nat}

/-- Between `lo` and `hi` the number grows by one or stays the same. -/
def Climbs (f : Nat → Nat) (lo hi : Nat) : Prop :=
  ∀ j, lo ≤ j → j < hi → f (j + 1) = f j ∨ f (j + 1) = f j + 1

theorem Climbs.le {j k : Nat} (h : Climbs f lo hi) (hj : lo ≤ j) (hjk : j ≤ k) (hk : k ≤ hi) :
    f j ≤ f k := by
  induction k, hjk using Nat.le_induction with
  | base => exact Nat.le_refl _
  | succ k hjk ih =>
      have hle := ih (by omega)
      rcases h k (by omega) (by omega) with hsame | hnext <;> omega

/-- Every value on the way is left once. -/
theorem Climbs.exists_step {i : Nat} (h : Climbs f lo hi) (hle : lo ≤ hi) (hi₁ : f lo ≤ i)
    (hi₂ : i < f hi) : ∃ j, lo ≤ j ∧ j < hi ∧ f j = i ∧ f (j + 1) = i + 1 := by
  induction hi, hle using Nat.le_induction with
  | base => omega
  | succ hi hle ih =>
      -- The value is left before the last step, or else in it.
      by_cases hbefore : i < f hi
      · rcases ih (fun j hj hj' => h j hj (by omega)) hbefore with ⟨j, hj, hj', hstep⟩
        exact ⟨j, hj, by omega, hstep⟩
      · rcases h hi hle (Nat.lt_succ_self hi) with hsame | hnext
        · omega
        · exact ⟨hi, hle, Nat.lt_succ_self hi, by omega, by omega⟩

end Climbs

/-! ## Finished children -/

section Finishing

variable (g : Grammar D F I J K V Entry W) (source : Tree I J) (start : D)
variable (m : Nat → Machine D F K V Entry W)

/-- A round finishes a child of `x`: a feature uses it, or a region that was opened at it ends. -/
inductive Finishes (x : NodeId) (i : Nat) : Nat → Prop where
  | used (j : Nat) (current : (m j).input = x) (index : (m j).index = i)
      (answer : answer? g source start (m j) = some .proceed) : Finishes x i j
  | visited (a length : Nat) (id : FrameId) (region : Frame D F Entry) (around : (m a).input = x)
      (index : (m a).index = i)
      (visit : Visit g source start (fun k => m (a + k)) length id region) :
      Finishes x i (a + length)

/-- The rounds from `lo` on, and before `hi`, finish each child of `x` from the index `first` on exactly
once, and in order. -/
structure FinishesInOrder (x : NodeId) (first lo hi : Nat) : Prop where
  once : ∀ i, first ≤ i → i < source.childCount x →
    ∃! j, lo ≤ j ∧ j < hi ∧ Finishes g source start m x i j
  only : ∀ i j, lo ≤ j → j < hi → Finishes g source start m x i j →
    first ≤ i ∧ i < source.childCount x
  inOrder : ∀ i j i' j', lo ≤ j → j < hi → lo ≤ j' → j' < hi →
    Finishes g source start m x i j → Finishes g source start m x i' j' → i < i' → j < j'

variable {g source start m}

/-- The index tells which children have been finished. -/
theorem finishesInOrder_of_climbs {x : NodeId} {lo hi : Nat} {f : Nat → Nat} (hle : lo ≤ hi)
    (hclimbs : Climbs f lo hi)
    (hfinishes : ∀ j, lo ≤ j → j < hi → ∀ i,
      Finishes g source start m x i j ↔ f j = i ∧ f (j + 1) = i + 1)
    (hchild : ∀ j, lo ≤ j → j < hi → f (j + 1) = f j + 1 → f j < source.childCount x)
    (hend : source.childCount x ≤ f hi) : FinishesInOrder g source start m x (f lo) lo hi := by
  have horder : ∀ i j i' j', lo ≤ j → j < hi → lo ≤ j' → j' < hi →
      f j = i ∧ f (j + 1) = i + 1 → f j' = i' ∧ f (j' + 1) = i' + 1 → i < i' → j < j' := by
    intro i j i' j' hj hjhi hj' hjhi' hstep hstep' hless
    by_contra hge
    have hmono := hclimbs.le hj' (Nat.not_lt.1 hge) (Nat.le_of_lt hjhi)
    omega
  refine ⟨fun i hfirst hi => ?_, fun i j hj hj' hfin => ?_, ?_⟩
  · rcases hclimbs.exists_step hle hfirst (Nat.lt_of_lt_of_le hi hend) with ⟨j, hj, hj', hstep⟩
    refine ⟨j, ⟨hj, hj', (hfinishes j hj hj' i).2 hstep⟩, ?_⟩
    rintro k ⟨hk, hk', hfin⟩
    have hstep' := (hfinishes k hk hk' i).1 hfin
    -- Of two rounds that leave the same value, the later one would start above it.
    rcases Nat.lt_trichotomy k j with hlt | heq | hgt
    · have hmono : f (k + 1) ≤ f j := hclimbs.le (Nat.le_succ_of_le hk) hlt (Nat.le_of_lt hj')
      omega
    · exact heq
    · have hmono : f (j + 1) ≤ f k := hclimbs.le (Nat.le_succ_of_le hj) hgt (Nat.le_of_lt hk')
      omega
  · rcases (hfinishes j hj hj' i).1 hfin with ⟨hindex, hnext⟩
    have hmono := hclimbs.le (Nat.le_refl lo) hj (Nat.le_of_lt hj')
    have hless := hchild j hj hj' (by omega)
    exact ⟨by omega, by omega⟩
  · intro i j i' j' hj hjhi hj' hjhi' hfin hfin'
    exact horder i j i' j' hj hjhi hj' hjhi' ((hfinishes j hj hjhi i).1 hfin)
      ((hfinishes j' hj' hjhi' i').1 hfin')

end Finishing

/-! ## Regions of a run -/

section Regions

variable {g : Grammar D F I J K V Entry W} {source : Tree I J} {start : D} {limit : Nat}
variable {m : Nat → Machine D F K V Entry W} {n a j : Nat} {x : NodeId}
variable {r : FrameId × Frame D F Entry} {outer : List (FrameId × Frame D F Entry)}

/-- The states of a run that enters no node again. -/
structure OrderlyRun (g : Grammar D F I J K V Entry W) (source : Tree I J) (start : D) (limit : Nat)
    (m : Nat → Machine D F K V Entry W) (n : Nat) : Prop where
  orderly : ∀ j ≤ n, Orderly source limit (m j)
  rounds : ∀ j < n, Round g source start (m j) (m (j + 1))
  moves : ∀ j < n, Moves g source start limit (m j) (m (j + 1))
  clear : regions (m 0).stack.frames = []

/-- The region `r`, which round `a` opens, is open up to round `j`. -/
structure Open (m : Nat → Machine D F K V Entry W) (a j : Nat) (r : FrameId × Frame D F Entry) :
    Prop where
  opens : Opens (m a) (m (a + 1)) r.1 r.2
  before : a < j
  stands : ∀ k, a < k → k ≤ j →
    r :: regions (m a).stack.frames <:+ regions (m k).stack.frames

theorem Open.extend (hopen : Open m a j r)
    (hstands : r :: regions (m a).stack.frames <:+ regions (m (j + 1)).stack.frames) :
    Open m a (j + 1) r := by
  refine ⟨hopen.opens, Nat.lt_succ_of_lt hopen.before, fun k hk hk' => ?_⟩
  rcases Nat.le_succ_iff.1 hk' with hle | rfl
  · exact hopen.stands k hk hle
  · exact hstands

/-- Round `j` ends the region `r`, which round `a` opened, and the node around it goes on. -/
structure Ends (source : Tree I J) (m : Nat → Machine D F K V Entry W) (a j : Nat)
    (r : FrameId × Frame D F Entry) : Prop where
  past : (m j).node? source = none
  current : (m j).input = r.2.input
  gone : (m (j + 1)).stack.isLive r.1 = false
  next : (m (j + 1)).cursors.index (m a).input = (m a).index + 1

theorem inputOf_regions {frames : List (FrameId × Frame D F Entry)} (h : Blocks frames) :
    inputOf (regions frames) = inputOf frames := by
  have hhead := h.traversed_eq
  rw [traversed] at hhead
  cases hregions : regions frames with
  | nil =>
      rw [hregions] at hhead
      exact (List.cons.inj hhead).1
  | cons entry rest =>
      rw [hregions] at hhead
      exact (List.cons.inj hhead).1

theorem mem_tail_traversed {frames : List (FrameId × Frame D F Entry)}
    (h : r :: outer <:+ regions frames) : inputOf outer ∈ (traversed frames).tail := by
  have houter : inputOf outer ∈ outer.map (fun entry => entry.2.input) ++ [Tree.root] := by
    cases outer with
    | nil => exact List.mem_cons_self
    | cons entry rest => exact List.mem_cons_self
  rcases h with ⟨inner, hinner⟩
  rw [traversed, ← hinner]
  cases inner with
  | nil => exact houter
  | cons entry inner =>
      change inputOf outer ∈ (inner ++ r :: outer).map _ ++ [Tree.root]
      rw [List.map_append, List.append_assoc]
      exact List.mem_append_right _ (List.mem_cons_of_mem _ houter)

theorem mem_traversed_of_suffix {frames : List (FrameId × Frame D F Entry)}
    (h : r :: outer <:+ regions frames) : r.2.input ∈ traversed frames :=
  List.mem_append_left _ (List.mem_map_of_mem (h.subset List.mem_cons_self))

theorem isLive_of_suffix {s : Machine D F K V Entry W}
    (h : r :: outer <:+ regions s.stack.frames) : s.stack.isLive r.1 = true := by
  rw [Stack.isLive, List.any_eq_true]
  exact ⟨r, (List.mem_filter.1 (h.subset List.mem_cons_self)).1, beq_self_eq_true r.1⟩

theorem answer?_of_past {s : Machine D F K V Entry W} (h : s.node? source = none) :
    answer? g source start s = none := by
  simp only [answer?, h]

/-- A round that opens a region is a redirection into its node. -/
theorem Moves.opened {s s' : Machine D F K V Entry W} (h : Moves g source start limit s s')
    (hs : Orderly source limit s) (hopens : Opens s s' r.1 r.2) :
    ∃ target, answer? g source start s = some (.redirect target) ∧
      target.input = some r.2.input ∧ r.2.input ∉ traversed s.stack.frames ∧
      regions s'.stack.frames = r :: regions s.stack.frames ∧
      s'.cursors = s.cursors.set r.2.input (target.start.getD 0) := by
  have hstale : r ∉ s.stack.frames :=
    fun hmem => absurd (hs.sound.issued r hmem) (Nat.not_lt.2 hopens.fresh)
  have hmem : r ∈ regions s'.stack.frames :=
    List.mem_filter.2 ⟨List.mem_of_mem_head? hopens.top, hopens.isRegion⟩
  cases h with
  | stays answer regions cursors tries =>
      rw [regions] at hmem
      exact absurd (List.mem_filter.1 hmem).1 hstale
  | proceeds node child answer regions cursors =>
      rw [regions] at hmem
      exact absurd (List.mem_filter.1 hmem).1 hstale
  | closes past entry regions below cursors =>
      exact absurd (below.subset (List.mem_filter.1 hmem).1) hstale
  | opens node child target nested answer named fresh id issued top regions cursors =>
      obtain rfl : r = (id, ⟨.region target.dispatch, nested, target.output⟩) :=
        Option.some.inj (hopens.top.symm.trans top)
      exact ⟨target, answer, named, fresh, regions, cursors⟩

/-- Frames below a region are older than it, so none of them is taken for it. -/
theorem Orderly.not_isLive {s s' : Machine D F K V Entry W} (hs : Orderly source limit s)
    (hregions : regions s.stack.frames = r :: regions s'.stack.frames)
    (hbelow : s'.stack.frames <:+ s.stack.frames) : s'.stack.isLive r.1 = false := by
  have hmem : r ∈ s.stack.frames ∧ r.2.isRegion = true := by
    have hregion : r ∈ regions s.stack.frames := by
      rw [hregions]
      exact List.mem_cons_self
    exact List.mem_filter.1 hregion
  have holder : (r :: regions s'.stack.frames).Pairwise fun inner outer => outer.1 < inner.1 := by
    rw [← hregions]
    exact hs.newest.filter _
  have hnot : r ∉ s'.stack.frames := by
    intro hr
    have hregion : r ∈ regions s'.stack.frames := List.mem_filter.2 ⟨hr, hmem.2⟩
    exact Nat.lt_irrefl _ ((List.pairwise_cons.1 holder).1 r hregion)
  rcases hbelow with ⟨above, habove⟩
  have hr : r ∈ above := (List.mem_append.1 (habove ▸ hmem.1)).resolve_right hnot
  have hnewest := hs.newest
  rw [← habove] at hnewest
  rw [Stack.isLive, List.any_eq_false]
  intro other hother heq
  have hless := (List.pairwise_append.1 hnewest).2.2 r hr other hother
  rw [beq_iff_eq.1 heq] at hless
  exact Nat.lt_irrefl _ hless

/-- While a region is open, the node around it waits.  In the round that ends the region it goes on. -/
theorem Moves.inside {s s' : Machine D F K V Entry W} (h : Moves g source start limit s s')
    (hs : Orderly source limit s) (hs' : Orderly source limit s')
    (hstands : r :: outer <:+ regions s.stack.frames) :
    (r :: outer <:+ regions s'.stack.frames ∧
        s'.cursors.index (inputOf outer) = s.cursors.index (inputOf outer)) ∨
      s.node? source = none ∧ s.input = r.2.input ∧ s'.stack.isLive r.1 = false ∧
        s'.cursors.index (inputOf outer) = s.cursors.index (inputOf outer) + 1 := by
  have htail := mem_tail_traversed hstands
  have hne : s.input ≠ inputOf outer := fun heq => hs.input_not_mem (heq ▸ htail)
  cases h with
  | stays answer regions cursors tries =>
      rw [regions, cursors]
      exact .inl ⟨hstands, rfl⟩
  | proceeds node child answer regions cursors =>
      rw [regions, cursors, Cursors.index_bump, if_neg hne]
      exact .inl ⟨hstands, rfl⟩
  | opens node child target nested answer named fresh id issued top regions cursors =>
      have hother : nested ≠ inputOf outer :=
        fun heq => fresh (heq ▸ List.mem_of_mem_tail htail)
      rw [regions, cursors, Cursors.index_set, if_neg hother]
      exact .inl ⟨hstands.trans (List.suffix_cons _ _), rfl⟩
  | closes past entry regions' below cursors =>
      rw [regions'] at hstands
      rcases List.suffix_cons_iff.1 hstands with heq | hinner
      · -- The region is the innermost one, and it is the one that ends.
        obtain ⟨rfl, rfl⟩ := List.cons.inj heq
        have hinput : s.input = r.2.input := (hs.innermost regions').1.symm
        have haround : s'.input = inputOf (regions s'.stack.frames) := by
          rw [inputOf_regions hs'.blocks, input_eq_inputOf]
        refine .inr ⟨past, hinput, hs.not_isLive regions' below, ?_⟩
        rw [cursors, haround, Cursors.index_bump, if_pos rfl, Cursors.index_erase, if_neg hne]
      · have hne' : s'.input ≠ inputOf outer :=
          fun heq => hs'.input_not_mem (heq ▸ mem_tail_traversed hinner)
        rw [cursors, Cursors.index_bump, if_neg hne', Cursors.index_erase, if_neg hne]
        exact .inl ⟨hinner, rfl⟩

namespace OrderlyRun

theorem inputOf_regions_eq (h : OrderlyRun g source start limit m n) (hj : j ≤ n) :
    inputOf (regions (m j).stack.frames) = (m j).input := by
  rw [inputOf_regions (h.orderly j hj).blocks, input_eq_inputOf]

/-- The region that a round opens. -/
theorem open_of_opens (h : OrderlyRun g source start limit m n) (ha : a < n)
    (hopens : Opens (m a) (m (a + 1)) r.1 r.2) : Open m a (a + 1) r := by
  refine ⟨hopens, Nat.lt_succ_self a, fun k hk hk' => ?_⟩
  obtain rfl : k = a + 1 := Nat.le_antisymm hk' hk
  rcases (h.moves a ha).opened (h.orderly a (Nat.le_of_lt ha)) hopens with
    ⟨-, -, -, -, hregions, -⟩
  exact ⟨[], hregions.symm⟩

/-- While the region is open, the node around it stays at the child where the region was opened. -/
theorem index_eq (h : OrderlyRun g source start limit m n) (hopen : Open m a j r) (hj : j ≤ n)
    {k : Nat} (hak : a ≤ k) (hkj : k ≤ j) : (m k).cursors.index (m a).input = (m a).index := by
  induction k, hak using Nat.le_induction with
  | base => rfl
  | succ k hak ih =>
      rw [← ih (by omega)]
      have hk : k < n := by omega
      have hmoves := h.moves k hk
      have horderly := h.orderly k (Nat.le_of_lt hk)
      -- The first round opens the region, and the later ones happen inside it.
      rcases Nat.eq_or_lt_of_le hak with rfl | hlt
      · rcases hmoves.opened horderly hopen.opens with ⟨_, _, _, hfresh, _, hcursors⟩
        have hne : r.2.input ≠ (m a).input := fun heq => hfresh (heq ▸ horderly.input_mem)
        rw [hcursors, Cursors.index_set, if_neg hne]
      · have hinside := hmoves.inside horderly (h.orderly (k + 1) hk)
          (hopen.stands k hlt (by omega))
        rw [h.inputOf_regions_eq (Nat.le_of_lt (Nat.lt_of_lt_of_le hopen.before hj))] at hinside
        rcases hinside with ⟨-, hsame⟩ | ⟨-, -, hgone, -⟩
        · exact hsame
        · rw [isLive_of_suffix (hopen.stands (k + 1) (by omega) hkj)] at hgone
          cases hgone

/-- A region that is open stays open, or the round ends it. -/
theorem open_or_ends (h : OrderlyRun g source start limit m n) (hopen : Open m a j r) (hj : j < n) :
    Open m a (j + 1) r ∨ Ends source m a j r := by
  have hbefore := hopen.before
  have hinside := (h.moves j hj).inside (h.orderly j (Nat.le_of_lt hj)) (h.orderly (j + 1) hj)
    (hopen.stands j hbefore (Nat.le_refl j))
  rw [h.inputOf_regions_eq (by omega),
    h.index_eq hopen (Nat.le_of_lt hj) (Nat.le_of_lt hbefore) (Nat.le_refl j)] at hinside
  rcases hinside with ⟨hstands, -⟩ | ⟨hpast, hcurrent, hgone, hnext⟩
  · exact .inl (hopen.extend hstands)
  · exact .inr ⟨hpast, hcurrent, hgone, hnext⟩

/-- Every region on the stack was opened by an earlier round, and has been open since. -/
theorem exists_open (h : OrderlyRun g source start limit m n) (hj : j ≤ n)
    (hstands : r :: outer <:+ regions (m j).stack.frames) :
    ∃ a, Open m a j r ∧ regions (m a).stack.frames = outer := by
  induction j with
  | zero =>
      rw [h.clear] at hstands
      cases List.suffix_nil.1 hstands
  | succ j ih =>
      -- Unless the round has opened it, the region was on the stack before.
      have hold : r :: outer <:+ regions (m j).stack.frames →
          ∃ a, Open m a (j + 1) r ∧ regions (m a).stack.frames = outer := by
        intro hbefore
        rcases ih (Nat.le_of_lt hj) hbefore with ⟨a, hopen, houter⟩
        exact ⟨a, hopen.extend (houter ▸ hstands), houter⟩
      cases h.moves j hj with
      | stays answer regions cursors tries => exact hold (regions ▸ hstands)
      | proceeds node child answer regions cursors => exact hold (regions ▸ hstands)
      | closes past entry regions below cursors =>
          refine hold ?_
          rw [regions]
          exact hstands.trans (List.suffix_cons _ _)
      | opens node child target nested answer named fresh id issued top regions cursors =>
          rw [regions] at hstands
          rcases List.suffix_cons_iff.1 hstands with heq | hbefore
          · obtain ⟨rfl, rfl⟩ := List.cons.inj heq
            exact ⟨j, h.open_of_opens hj ⟨rfl, top, issued⟩, rfl⟩
          · exact hold hbefore

/-- In a run that ends with an empty stack, every region that is opened ends. -/
theorem exists_ends (h : OrderlyRun g source start limit m n) (ha : a < n)
    (hopens : Opens (m a) (m (a + 1)) r.1 r.2) (hempty : (m n).stack.frames = []) :
    ∃ length, a + length < n ∧ Open m a (a + length) r ∧ Ends source m a (a + length) r := by
  -- Round by round, the region is still open or has ended.
  have hsearch : ∀ k, a + 1 + k ≤ n → Open m a (a + 1 + k) r ∨
      ∃ length, a + length < n ∧ Open m a (a + length) r ∧ Ends source m a (a + length) r := by
    intro k
    induction k with
    | zero => exact fun _ => .inl (h.open_of_opens ha hopens)
    | succ k ih =>
        intro hk
        rcases ih (by omega) with hopen | hends
        · rcases h.open_or_ends hopen (by omega) with hopen' | hends
          · exact .inl hopen'
          · rw [Nat.add_assoc] at hopen hends
            exact .inr ⟨1 + k, by omega, hopen, hends⟩
        · exact .inr hends
  rcases hsearch (n - (a + 1)) (by omega) with hopen | hends
  · have hstands := hopen.stands (a + 1 + (n - (a + 1))) (by omega) (Nat.le_refl _)
    rw [Nat.add_sub_cancel' ha, hempty] at hstands
    cases List.suffix_nil.1 hstands
  · exact hends

variable {length : Nat}

theorem visit_of_ends (h : OrderlyRun g source start limit m n) (hopen : Open m a (a + length) r)
    (hends : Ends source m a (a + length) r) (hlength : a + length < n) :
    Visit g source start (fun k => m (a + k)) length r.1 r.2 where
  rounds := fun k hk => h.rounds (a + k) (by omega)
  isRegion := hopen.opens.isRegion
  opened := hopen.opens.top
  fresh := hopen.opens.fresh
  live := fun k hk hk' => isLive_of_suffix (hopen.stands (a + k) (by omega) (by omega))
  closed := hends.gone

theorem ends_of_visit (h : OrderlyRun g source start limit m n) (hlength : a + length < n)
    (hvisit : Visit g source start (fun k => m (a + k)) length r.1 r.2) :
    Open m a (a + length) r ∧ Ends source m a (a + length) r := by
  have hopens : Opens (m a) (m (a + 1)) r.1 r.2 :=
    ⟨hvisit.isRegion, hvisit.opened, hvisit.fresh⟩
  have hfirst : Open m a (a + 1) r := h.open_of_opens (by omega) hopens
  have hclosed : (m (a + length + 1)).stack.isLive r.1 = false := hvisit.closed
  -- The region is open as long as its frame is live.
  have hopen : ∀ k, k + 1 ≤ length → Open m a (a + k + 1) r := by
    intro k
    induction k with
    | zero => exact fun _ => hfirst
    | succ k ih =>
        intro hk
        rcases h.open_or_ends (ih (by omega)) (by omega) with hopen | hends
        · exact hopen
        · have hlive : (m (a + k + 1 + 1)).stack.isLive r.1 = true :=
            hvisit.live (k + 1 + 1) (by omega) hk
          rw [hends.gone] at hlive
          cases hlive
  have hnever : ¬ Open m a (a + length + 1) r := by
    intro hstill
    rw [isLive_of_suffix (hstill.stands _ hstill.before (Nat.le_refl _))] at hclosed
    cases hclosed
  cases length with
  | zero => exact absurd hfirst hnever
  | succ length =>
      have hlast := hopen length (Nat.le_refl _)
      exact ⟨hlast, (h.open_or_ends hlast hlength).resolve_left hnever⟩

/-! ### The index of a traversed node -/

/-- A round that finishes a child of a node takes the index past that child. -/
theorem index_of_finishes {i : Nat} (h : OrderlyRun g source start limit m n) (hj : j < n)
    (hfinishes : Finishes g source start m x i j) :
    (m j).cursors.index x = i ∧ (m (j + 1)).cursors.index x = i + 1 := by
  cases hfinishes with
  | used j current index answer =>
      subst current
      refine ⟨index, ?_⟩
      cases h.moves j hj with
      | stays silent regions cursors tries => exact absurd answer silent
      | opens node child target nested answer' named fresh id issued top regions cursors =>
          rw [answer] at answer'
          cases answer'
      | closes past entry regions below cursors =>
          rw [answer?_of_past past] at answer
          cases answer
      | proceeds node child answer' regions cursors =>
          rw [cursors, Cursors.index_bump, if_pos rfl]
          exact congrArg (· + 1) index
  | visited a length id region around index visit =>
      subst around
      have hvisit : Visit g source start (fun k => m (a + k)) length (id, region).1 (id, region).2 :=
        visit
      rcases h.ends_of_visit hj hvisit with ⟨hopen, hends⟩
      rw [h.index_eq hopen (Nat.le_of_lt hj) (Nat.le_add_right a length) (Nat.le_refl _),
        hends.next, index]
      exact ⟨rfl, rfl⟩

/-- When a region ends, it was opened at the current child of the node that goes on. -/
theorem finishes_of_closes {entry : FrameId × Frame D F Entry}
    (h : OrderlyRun g source start limit m n) (hj : j < n)
    (hregions : regions (m j).stack.frames = entry :: regions (m (j + 1)).stack.frames) :
    Finishes g source start m (m (j + 1)).input ((m j).cursors.index (m (j + 1)).input) j := by
  have hstands : entry :: regions (m (j + 1)).stack.frames <:+ regions (m j).stack.frames :=
    ⟨[], hregions.symm⟩
  rcases h.exists_open (Nat.le_of_lt hj) hstands with ⟨a, hopen, houter⟩
  obtain ⟨length, rfl⟩ : ∃ length, j = a + length :=
    Nat.exists_eq_add_of_le (Nat.le_of_lt hopen.before)
  have haround : (m a).input = (m (a + length + 1)).input := by
    rw [← h.inputOf_regions_eq (by omega), houter, h.inputOf_regions_eq hj]
  have hends : Ends source m a (a + length) entry := by
    refine (h.open_or_ends hopen hj).resolve_left fun hstill => ?_
    have hlonger := (hstill.stands _ hstill.before (Nat.le_refl _)).length_le
    rw [houter, List.length_cons] at hlonger
    omega
  -- Up to the last round of the region, the index of the node around it is the one it was opened at.
  have hat := h.index_eq hopen (Nat.le_of_lt hj) (Nat.le_add_right a length) (Nat.le_refl _)
  rw [haround] at hat
  exact .visited a length entry.1 entry.2 haround hat.symm (h.visit_of_ends hopen hends hj)

/-- A round finishes a child of a traversed node exactly if it takes the index past that child. -/
theorem finishes_iff (h : OrderlyRun g source start limit m n) (hj : j < n)
    (hx : x ∈ traversed (m j).stack.frames) (hx' : x ∈ traversed (m (j + 1)).stack.frames) (i : Nat) :
    Finishes g source start m x i j ↔
      (m j).cursors.index x = i ∧ (m (j + 1)).cursors.index x = i + 1 := by
  refine ⟨h.index_of_finishes hj, ?_⟩
  rintro ⟨rfl, hnext⟩
  have hmoved : (m (j + 1)).cursors.index x ≠ (m j).cursors.index x := by
    rw [hnext]
    exact Nat.succ_ne_self _
  -- An index grows when a feature uses the child, or when the region that was opened there ends.
  cases h.moves j hj with
  | stays silent regions cursors tries => exact absurd (by rw [cursors]) hmoved
  | proceeds node child answer regions cursors =>
      by_cases hcurrent : (m j).input = x
      · subst hcurrent
        exact .used j rfl rfl answer
      · refine absurd ?_ hmoved
        rw [cursors, Cursors.index_bump, if_neg hcurrent]
  | opens node child target nested answer named fresh id issued top regions cursors =>
      have hne : nested ≠ x := fun heq => fresh (heq ▸ hx)
      refine absurd ?_ hmoved
      rw [cursors, Cursors.index_set, if_neg hne]
  | closes past entry regions' below cursors =>
      have hcurrent : (m (j + 1)).input = x := by
        by_contra hother
        have hne : (m j).input ≠ x := fun heq =>
          ((h.orderly j (Nat.le_of_lt hj)).innermost regions').2.2 (heq ▸ hx')
        refine hmoved ?_
        rw [cursors, Cursors.index_bump, if_neg hother, Cursors.index_erase, if_neg hne]
      subst hcurrent
      exact h.finishes_of_closes hj regions'

/-- The index of a traversed node stays, or it goes past a child that exists. -/
theorem index_step (h : OrderlyRun g source start limit m n) (hj : j < n)
    (hx : x ∈ traversed (m j).stack.frames) (hx' : x ∈ traversed (m (j + 1)).stack.frames) :
    (m (j + 1)).cursors.index x = (m j).cursors.index x ∨
      (m (j + 1)).cursors.index x = (m j).cursors.index x + 1 ∧
        (m j).cursors.index x < source.childCount x := by
  have hexists : ∀ node, source.childAt? x ((m j).cursors.index x) = some node →
      (m j).cursors.index x < source.childCount x := by
    intro node hnode
    rcases Array.getElem?_eq_some_iff.1 hnode with ⟨hlt, -⟩
    exact hlt
  have horderly := h.orderly j (Nat.le_of_lt hj)
  cases h.moves j hj with
  | stays silent regions cursors tries => exact .inl (by rw [cursors])
  | proceeds node child answer regions cursors =>
      rw [cursors, Cursors.index_bump]
      split
      · next heq =>
          subst heq
          exact .inr ⟨rfl, hexists node child⟩
      · exact .inl rfl
  | opens node child target nested answer named fresh id issued top regions cursors =>
      have hne : nested ≠ x := fun heq => fresh (heq ▸ hx)
      rw [cursors, Cursors.index_set, if_neg hne]
      exact .inl rfl
  | closes past entry regions' below cursors =>
      rcases horderly.innermost regions' with ⟨-, htraversed, hother⟩
      have hne : (m j).input ≠ x := fun heq => hother (heq ▸ hx')
      by_cases hcurrent : (m (j + 1)).input = x
      · -- The node goes on past the child at which the region was opened.
        subst hcurrent
        have htail : (m (j + 1)).input ∈ (traversed (m j).stack.frames).tail := by
          rw [htraversed]
          exact hx'
        rcases horderly.enclosing _ htail with ⟨node, hnode⟩
        rw [cursors, Cursors.index_bump, if_pos rfl, Cursors.index_erase, if_neg hne]
        exact .inr ⟨rfl, hexists node hnode⟩
      · rw [cursors, Cursors.index_bump, if_neg hcurrent, Cursors.index_erase, if_neg hne]
        exact .inl rfl

/-- From a round on in which a node is traversed, and up to one in which it is past its last child, its
children are finished in order. -/
theorem finishesInOrder (h : OrderlyRun g source start limit m n) {lo hi : Nat} (hle : lo ≤ hi)
    (hhi : hi ≤ n) (hx : ∀ j, lo ≤ j → j ≤ hi → x ∈ traversed (m j).stack.frames)
    (hcurrent : (m hi).input = x) (hpast : (m hi).node? source = none) :
    FinishesInOrder g source start m x ((m lo).cursors.index x) lo hi := by
  have hstep : ∀ j, lo ≤ j → j < hi →
      (m (j + 1)).cursors.index x = (m j).cursors.index x ∨
        (m (j + 1)).cursors.index x = (m j).cursors.index x + 1 ∧
          (m j).cursors.index x < source.childCount x := fun j hj hj' =>
    h.index_step (Nat.lt_of_lt_of_le hj' hhi) (hx j hj (Nat.le_of_lt hj')) (hx (j + 1) (by omega) hj')
  have hclimbs : Climbs (fun j => (m j).cursors.index x) lo hi :=
    fun j hj hj' => (hstep j hj hj').imp_right And.left
  refine finishesInOrder_of_climbs hle hclimbs ?_ ?_ ?_
  · intro j hj hj' i
    exact h.finishes_iff (Nat.lt_of_lt_of_le hj' hhi) (hx j hj (Nat.le_of_lt hj'))
      (hx (j + 1) (by omega) hj') i
  · intro j hj hj' hnext
    rcases hstep j hj hj' with hsame | ⟨-, hless⟩
    · omega
    · exact hless
  · subst hcurrent
    exact Array.getElem?_eq_none_iff.1 hpast

end OrderlyRun

end Regions

/-! ## Whole runs -/

section Whole

variable {g : Grammar D F I J K V Entry W} {source : Tree I J} {start : D}

/-- A run that succeeds is a number of rounds that lead to a finished state. -/
theorem exists_runs_of_success {rounds : Nat} {m last : Machine D F K V Entry W}
    (h : run g source start rounds m = (.success (), last)) :
    ∃ n ≤ rounds, Runs g source start m n ∧ stateAfter g source start m n = last ∧
      last.isFinished source = true := by
  -- By induction on the rounds that are left behind.
  suffices hsearch : ∀ k n, Runs g source start m n →
      run g source start k (stateAfter g source start m n) = (.success (), last) →
        ∃ n' ≤ n + k, Runs g source start m n' ∧ stateAfter g source start m n' = last ∧
          last.isFinished source = true by
    rcases hsearch rounds 0 (fun j hj => absurd hj (Nat.not_lt_zero j)) h with ⟨n, hn, hrest⟩
    exact ⟨n, by omega, hrest⟩
  intro k
  induction k with
  | zero =>
      intro n hruns hrun
      rw [run] at hrun
      split at hrun
      · next hfinished =>
          have heq := (Prod.mk.inj hrun).2
          exact ⟨n, Nat.le_refl n, hruns, heq, heq ▸ hfinished⟩
      · cases hrun
  | succ k ih =>
      intro n hruns hrun
      rw [run] at hrun
      split at hrun
      · next hfinished =>
          have heq := (Prod.mk.inj hrun).2
          exact ⟨n, Nat.le_add_right n (k + 1), hruns, heq, heq ▸ hfinished⟩
      · next hactive =>
          split at hrun
          · next next hadvance =>
              have hsucceeds : succeeds g source start (stateAfter g source start m n) = true := by
                simp [succeeds, hactive, hadvance]
              have hstate : stateAfter g source start m (n + 1) = next := by
                simp [stateAfter, Machine.next, hadvance]
              have hruns' : Runs g source start m (n + 1) := by
                intro j hj
                rcases Nat.lt_succ_iff_lt_or_eq.1 hj with hlt | rfl
                · exact hruns j hlt
                · exact hsucceeds
              rcases ih (n + 1) hruns' (hstate ▸ hrun) with ⟨n', hn', hrest⟩
              exact ⟨n', by omega, hrest⟩
          · cases hrun

theorem orderlyRun_of_runs {root : Node K V} {world : W} {limits : Limits} {n : Nat}
    (hnever : NeverReenters g source start (Machine.initial root world limits))
    (hruns : Runs g source start (Machine.initial root world limits) n) :
    OrderlyRun g source start limits.maxDepth
      (stateAfter g source start (Machine.initial root world limits)) n := by
  have hafter := (orderly_initial g start root world limits).after hnever
  exact ⟨fun j hj => (hafter j (hruns.of_le hj)).1, fun j hj => hruns.round hj,
    (hafter n hruns).2, rfl⟩

/-- In the first `n` rounds the children of the root are finished in order, and so are the children of
every node for which a region is opened, from the start index of the redirection on.  Every region
ends. -/
structure FinishesAll (g : Grammar D F I J K V Entry W) (source : Tree I J) (start : D)
    (m : Nat → Machine D F K V Entry W) (n : Nat) : Prop where
  root : FinishesInOrder g source start m Tree.root 0 0 n
  regions : ∀ a < n, ∀ id region, Opens (m a) (m (a + 1)) id region →
    ∃ length target, a + length < n ∧ Visit g source start (fun k => m (a + k)) length id region ∧
      answer? g source start (m a) = some (.redirect target) ∧ target.input = some region.input ∧
      FinishesInOrder g source start m region.input (target.start.getD 0) (a + 1) (a + length)

theorem OrderlyRun.finishesAll {limit n : Nat} {m : Nat → Machine D F K V Entry W}
    (h : OrderlyRun g source start limit m n) (hfirst : (m 0).cursors.index Tree.root = 0)
    (hfinished : (m n).isFinished source = true) : FinishesAll g source start m n := by
  obtain ⟨hnode, hframes⟩ : (m n).node? source = none ∧ (m n).stack.frames = [] := by
    simpa [isFinished, Stack.isEmpty] using hfinished
  refine ⟨?_, fun a ha id region hopens => ?_⟩
  · have hcurrent : (m n).input = Tree.root := by
      rw [input_eq_inputOf, hframes]
      rfl
    have hroot := h.finishesInOrder (Nat.zero_le n) (Nat.le_refl n)
      (fun j _ _ => root_mem_traversed _) hcurrent hnode
    rwa [hfirst] at hroot
  · have hopens' : Opens (m a) (m (a + 1)) (id, region).1 (id, region).2 := hopens
    rcases h.exists_ends ha hopens' hframes with ⟨length, hlength, hopen, hends⟩
    rcases (h.moves a ha).opened (h.orderly a (Nat.le_of_lt ha)) hopens' with
      ⟨target, hanswer, hnamed, -, -, hcursors⟩
    refine ⟨length, target, hlength, h.visit_of_ends hopen hends hlength, hanswer, hnamed, ?_⟩
    have hindex : (m (a + 1)).cursors.index region.input = target.start.getD 0 := by
      rw [hcursors, Cursors.index_set, if_pos rfl]
    rw [← hindex]
    exact h.finishesInOrder hopen.before (Nat.le_of_lt hlength)
      (fun j hj hj' => mem_traversed_of_suffix (hopen.stands j hj hj')) hends.current hends.past

/-- Rebuilding ends when no region is opened for the root or for a node that is being traversed, for
every grammar, input tree and limit, and after a bounded number of rounds.  In each state the frames of
a traversed node form one block on top of its region.  In a run that succeeds, every traversal finishes
each child from its first index on exactly once and in order: a feature uses the child, or a region
that was opened at it ends. -/
theorem rebuild_traverses (g : Grammar D F I J K V Entry W) (source : Tree I J) (start : D)
    (root : Node K V) (world : W) (limits : Limits)
    (hnever : NeverReenters g source start (Machine.initial root world limits)) :
    (∃ outcome last, outcome ≠ Outcome.unfinished ∧ ∀ rounds ≥ roundsBound source limits,
      run g source start rounds (Machine.initial root world limits) = (outcome, last) ∧
        (Rebuilder.new g start source rounds root world limits).rebuild.1 = outcome) ∧
    (∀ n, Runs g source start (Machine.initial root world limits) n →
      Piled (stateAfter g source start (Machine.initial root world limits) n)) ∧
    ∀ rounds last,
      run g source start rounds (Machine.initial root world limits) = (.success (), last) →
        ∃ n ≤ rounds, Runs g source start (Machine.initial root world limits) n ∧
          stateAfter g source start (Machine.initial root world limits) n = last ∧
          last.isFinished source = true ∧ FinishesAll g source start
            (stateAfter g source start (Machine.initial root world limits)) n := by
  have hinitial : Orderly source limits.maxDepth
      (Machine.initial root world limits : Machine D F K V Entry W) :=
    orderly_initial g start root world limits
  refine ⟨?_, fun n hruns => (hinitial.after hnever n hruns).1.piled, fun rounds last hrun => ?_⟩
  · -- Each round makes the rank smaller, so the run stops within the rank of its first state.
    rcases exists_stop hinitial hnever with ⟨n, hn, hruns, hstop⟩
    have hbound := Nat.lt_of_le_of_lt hn (rank_initial_lt root world limits)
    rcases run_of_stop hruns hstop with ⟨outcome, last, hend, hrun⟩
    refine ⟨outcome, last, hend, fun rounds hrounds => ?_⟩
    have hresult := hrun rounds (Nat.lt_of_lt_of_le hbound hrounds)
    refine ⟨hresult, ?_⟩
    rw [rebuild_eq_run, hresult]
  · rcases exists_runs_of_success hrun with ⟨n, hn, hruns, hlast, hfinished⟩
    refine ⟨n, hn, hruns, hlast, hfinished, (orderlyRun_of_runs hnever hruns).finishesAll rfl ?_⟩
    rw [hlast]
    exact hfinished

end Whole

section Scripted

open Script

/-- The run takes seven rounds. -/
theorem runs_leafAndList : Runs (entering "copy").grammar leafAndList "main"
      (Machine.initial (Node.parent "out") Journal.empty {}) 7 ∧
    (scripted "copy" 7).isFinished leafAndList = true := by
  change (∀ j < 7, succeeds _ _ _ (scripted "copy" j) = true) ∧ _
  decide +kernel

/-- The only region is the one of the list, which is entered once. -/
theorem neverReenters_leafAndList : NeverReenters (entering "copy").grammar leafAndList "main"
    (Machine.initial (Node.parent "out") Journal.empty {}) := by
  have hopened : ∀ n < 7, ∀ entry ∈ (scripted "copy" (n + 1)).stack.frames.head?,
      entry.2.isRegion = true → (scripted "copy" n).stack.pushed ≤ entry.1 →
        entry.2.input ≠ Tree.root ∧
          ∀ other ∈ (scripted "copy" n).stack.frames, other.2.input ≠ entry.2.input := by
    decide +kernel
  intro n hruns id region hopens
  have hn : n < 7 := by
    by_contra hge
    have hround := hruns 7 (by omega)
    change succeeds _ _ _ (scripted "copy" 7) = true at hround
    rw [succeeds, runs_leafAndList.2] at hround
    cases hround
  rcases hopened n hn (id, region) hopens.top hopens.isRegion hopens.fresh with ⟨hroot, hother⟩
  refine ⟨hroot, ?_⟩
  rintro ⟨entry, hentry, hinput⟩
  exact hother entry hentry hinput

/-- A list that is entered once: the children of the root are finished in order in all seven rounds, and
so are those of the list while its region is open. -/
theorem rebuild_leafAndList :
    FinishesInOrder (entering "copy").grammar leafAndList "main" (scripted "copy") Tree.root 0 0 7 ∧
      ∃ region length, region.input = 2 ∧ Visit (entering "copy").grammar leafAndList "main"
          (fun k => scripted "copy" (2 + k)) length 2 region ∧
        FinishesInOrder (entering "copy").grammar leafAndList "main" (scripted "copy") 2 0 3
          (2 + length) := by
  rcases runs_leafAndList with ⟨hruns, hfinished⟩
  have hrun : run (entering "copy").grammar leafAndList "main" 7
      (Machine.initial (Node.parent "out") Journal.empty {}) = (.success (), scripted "copy" 7) :=
    (run_stateAfter hruns 0).trans (run_of_finished hfinished)
  rcases (rebuild_traverses (entering "copy").grammar leafAndList "main" (Node.parent "out")
    Journal.empty {} neverReenters_leafAndList).2.2 7 _ hrun with ⟨n, hn, -, hlast, -, hall⟩
  obtain rfl : n = 7 := by
    by_contra hne
    have hactive : ∀ n < 7, (scripted "copy" n).isFinished leafAndList = false := by decide +kernel
    rw [← hlast] at hfinished
    exact Bool.false_ne_true ((hactive n (by omega)).symm.trans hfinished)
  -- The third round opens the region of the list.
  have hhead : (scripted "copy" 3).stack.frames.head?.map (fun entry =>
      (entry.1, entry.2.isRegion, entry.2.input)) = some (2, true, 2) := by decide +kernel
  rcases Option.map_eq_some_iff.1 hhead with ⟨⟨id, region⟩, htop, hentry⟩
  obtain ⟨rfl, hisRegion, hinput⟩ : id = 2 ∧ region.isRegion = true ∧ region.input = 2 := by
    simpa using hentry
  have hopens : Opens (scripted "copy" 2) (scripted "copy" 3) 2 region :=
    ⟨hisRegion, htop, by decide +kernel⟩
  rcases hall.regions 2 (by decide) 2 region hopens with
    ⟨length, target, -, hvisit, hanswer, -, hlist⟩
  have hredirect : answer? (entering "copy").grammar leafAndList "main" (scripted "copy" 2) =
      some (.redirect ⟨"inside", some 2, 0, none⟩) := by decide +kernel
  obtain rfl : _ = target := Step.redirect.inj (Option.some.inj (hredirect.symm.trans hanswer))
  rw [hinput] at hlist
  exact ⟨hall.root, region, length, hinput, hvisit, hlist⟩

end Scripted

end Machine
end Rebuilding
end FeatureTree
