import FeatureTree.Proofs.Rebuilding.Blocks
import FeatureTree.Proofs.Rebuilding.Rounds
import Mathlib.Algebra.GroupWithZero.Nat
import Mathlib.Algebra.Order.BigOperators.Group.List
import Mathlib.Algebra.Order.Group.Nat
import Mathlib.Data.List.Perm.Subperm

/-!
# Halting — rebuilding ends when no node is entered again

Answers other than `proceed` leave all indices alone, and a region that opens brings new children into
play, so no single index measures the progress of a run.  `Machine.rank` combines the children that
remain at all traversed nodes with the room for further regions: children of an inner node weigh less
than one child of the node around it.  Every round of an orderly run lowers the rank.

`Machine.exists_stop` says that such a run stops, with a bound on its rounds that depends on the
input tree and the limit only.
-/

namespace FeatureTree
namespace Rebuilding
namespace Machine

variable {D F I J K V Key W : Type} {Entry : Key → Type}

/-! ## Orderly runs -/

section Runs

variable (g : Grammar D F I J K V Entry W) (source : Tree I J) (start : D)

/-- The first `n` rounds of the run do not fail. -/
def Runs (m : Machine D F K V Entry W) (n : Nat) : Prop :=
  ∀ j < n, succeeds g source start (stateAfter g source start m j) = true

/-- No round of the run opens a region for the root, or for a node that a frame traverses. -/
def NeverReenters (m : Machine D F K V Entry W) : Prop :=
  ∀ n, Runs g source start m (n + 1) → ∀ id region,
    Opens (stateAfter g source start m n) (stateAfter g source start m (n + 1)) id region →
      region.input ≠ Tree.root ∧ ¬ Traverses (stateAfter g source start m n).stack.frames region.input

variable {g source start} {limit : Nat} {m : Machine D F K V Entry W} {n k : Nat}

theorem Runs.of_le (h : Runs g source start m n) (hk : k ≤ n) : Runs g source start m k :=
  fun j hj => h j (Nat.lt_of_lt_of_le hj hk)

theorem Runs.round (h : Runs g source start m n) (hk : k < n) :
    Round g source start (stateAfter g source start m k) (stateAfter g source start m (k + 1)) :=
  round_of_succeeds (h k hk)

/-- All states of such a run are orderly, and each round moves on. -/
theorem Orderly.after (h : Orderly source limit m) (hnever : NeverReenters g source start m) :
    ∀ n, Runs g source start m n → Orderly source limit (stateAfter g source start m n) ∧
      ∀ j < n, Moves g source start limit (stateAfter g source start m j)
        (stateAfter g source start m (j + 1)) := by
  intro n
  induction n with
  | zero => exact fun _ => ⟨h, fun j hj => absurd hj (Nat.not_lt_zero j)⟩
  | succ n ih =>
      intro hruns
      rcases ih (hruns.of_le (Nat.le_succ n)) with ⟨horderly, hmoves⟩
      have hround := horderly.round (hruns.round (Nat.lt_succ_self n)) fun id region hopens => by
        rcases hnever n hruns id region hopens with ⟨hroot, hnew⟩
        rw [horderly.blocks.mem_traversed_iff]
        exact fun hor => hor.elim hroot hnew
      refine ⟨hround.1, fun j hj => ?_⟩
      rcases Nat.lt_succ_iff_lt_or_eq.1 hj with hlt | rfl
      · exact hmoves j hlt
      · exact hround.2

end Runs

/-! ## Children that remain -/

section Children

variable (source : Tree I J)

/-- Children of a node that the traversal has not passed. -/
def remaining (cursors : Cursors) (x : NodeId) : Nat := source.childCount x - cursors.index x

/-- More than any node has children, by two at least. -/
def width : Nat := ((List.range source.size).map source.childCount).sum + 2

/-- Children that remain at the given nodes, the innermost first.  Each of them weighs as much as `width`
children of the next node inside. -/
def load (cursors : Cursors) : List NodeId → Nat
  | [] => 0
  | x :: outer =>
      remaining source cursors x * width source ^ (source.size - (outer.length + 1)) +
        load cursors outer

/-- Children that remain, and what a region that opens may still bring. -/
def potential (m : Machine D F K V Entry W) : Nat :=
  load source m.cursors (traversed m.stack.frames) +
    width source ^ (source.size - (traversed m.stack.frames).length)

/-- Every round lowers the rank: it lowers the potential, or it keeps it and there is less to try. -/
def rank (limit : Nat) (m : Machine D F K V Entry W) : Nat :=
  potential source m * (2 * limit + 2) + m.effort limit

/-- Rounds that a run takes at most. -/
def roundsBound (limits : Limits) : Nat :=
  width source ^ source.size * (2 * limits.maxDepth + 2)

variable {source} {cursors cursors' : Cursors} {x : NodeId} {xs : List NodeId}

theorem childCount_lt_width (x : NodeId) : source.childCount x + 1 < width source := by
  rcases Nat.lt_or_ge x source.size with hlt | hge
  · have hmem : source.childCount x ∈ (List.range source.size).map source.childCount :=
      List.mem_map_of_mem (List.mem_range.2 hlt)
    have hle := List.le_sum_of_mem hmem
    rw [width]
    omega
  · -- Unknown nodes have no children.
    have hget : source.nodes[x]? = none := Array.getElem?_eq_none hge
    have hzero : source.childCount x = 0 := by
      rw [Tree.childCount, Tree.childArray, Tree.get?, hget]
      rfl
    rw [hzero, width]
    omega

theorem remaining_lt_width (cursors : Cursors) (x : NodeId) :
    remaining source cursors x + 1 < width source :=
  Nat.lt_of_le_of_lt (Nat.succ_le_succ (Nat.sub_le _ _)) (childCount_lt_width x)

theorem width_pow_pos (source : Tree I J) (n : Nat) : 0 < width source ^ n :=
  Nat.pow_pos (Nat.succ_pos _)

/-- At a child that exists, going on leaves one child fewer. -/
theorem remaining_bump {node : NodeId} (hchild : source.childAt? x (cursors.index x) = some node)
    (hindex : cursors'.index x = cursors.index x + 1) :
    remaining source cursors x = remaining source cursors' x + 1 := by
  have hlt : cursors.index x < source.childCount x := by
    rcases Array.getElem?_eq_some_iff.1 hchild with ⟨hlt, -⟩
    exact hlt
  rw [remaining, remaining, hindex]
  omega

theorem load_congr (h : ∀ x ∈ xs, cursors'.index x = cursors.index x) :
    load source cursors' xs = load source cursors xs := by
  induction xs with
  | nil => rfl
  | cons x xs ih =>
      rw [load, load, remaining, remaining, h x List.mem_cons_self,
        ih fun y hy => h y (List.mem_cons_of_mem _ hy)]

/-- The load when the first node goes on to its next child. -/
theorem load_bump {node : NodeId} (hchild : source.childAt? x (cursors.index x) = some node)
    (hindex : cursors'.index x = cursors.index x + 1)
    (hothers : ∀ y ∈ xs, cursors'.index y = cursors.index y) :
    load source cursors (x :: xs) = load source cursors' (x :: xs) +
      width source ^ (source.size - (xs.length + 1)) := by
  rw [load, load, remaining_bump hchild hindex, load_congr hothers, Nat.succ_mul]
  omega

end Children

/-! ## Ranks -/

section Ranks

variable {g : Grammar D F I J K V Entry W} {source : Tree I J} {start : D} {limit : Nat}
variable {m m' : Machine D F K V Entry W}

theorem Orderly.length_le (h : Orderly source limit m) :
    (traversed m.stack.frames).length ≤ source.size := by
  have hsubset : traversed m.stack.frames ⊆ List.range source.size :=
    fun x hx => List.mem_range.2 (h.known x hx)
  have hle := (h.blocks.nodup.subperm hsubset).length_le
  rwa [List.length_range] at hle

theorem Orderly.effort_lt (h : Orderly source limit m) : m.effort limit < 2 * limit + 2 := by
  have hshallow := h.shallow
  cases hwaiting : m.waiting with
  | none =>
      rw [effort_of_idle hwaiting]
      omega
  | some group =>
      rw [effort_of_waiting hwaiting]
      omega

/-- A feature that uses a child leaves one child fewer at the innermost node. -/
theorem potential_proceeds (h : Orderly source limit m) {node : NodeId}
    (hchild : m.node? source = some node)
    (hregions : regions m'.stack.frames = regions m.stack.frames)
    (hcursors : m'.cursors = m.cursors.bump m.input) : potential source m' < potential source m := by
  have hload : load source m.cursors (m.input :: (traversed m.stack.frames).tail) =
      load source m'.cursors (m.input :: (traversed m.stack.frames).tail) +
        width source ^ (source.size - ((traversed m.stack.frames).tail.length + 1)) := by
    refine load_bump hchild ?_ fun y hy => ?_
    · rw [hcursors, Cursors.index_bump, if_pos rfl]
    · have hne : m.input ≠ y := fun heq => h.input_not_mem (heq ▸ hy)
      rw [hcursors, Cursors.index_bump, if_neg hne]
  have hpos := width_pow_pos source (source.size - ((traversed m.stack.frames).tail.length + 1))
  rw [← h.traversed_eq] at hload
  rw [potential, potential, traversed_of_regions hregions, hload]
  omega

/-- A region that opens brings less than one child of the node around it. -/
theorem potential_opens (h' : Orderly source limit m') {nested index : NodeId}
    (htraversed : traversed m'.stack.frames = nested :: traversed m.stack.frames)
    (hfresh : nested ∉ traversed m.stack.frames) (hcursors : m'.cursors = m.cursors.set nested index) :
    potential source m' < potential source m := by
  have hsame : load source m'.cursors (traversed m.stack.frames) =
      load source m.cursors (traversed m.stack.frames) := by
    refine load_congr fun x hx => ?_
    have hne : nested ≠ x := fun heq => hfresh (heq ▸ hx)
    rw [hcursors, Cursors.index_set, if_neg hne]
  have hroom := h'.length_le
  rw [htraversed, List.length_cons] at hroom
  -- The new node gets the next lower digit, and its children do not fill that digit.
  have hexponent : source.size - (traversed m.stack.frames).length =
      source.size - ((traversed m.stack.frames).length + 1) + 1 := by omega
  have hremaining : remaining source m'.cursors nested + 1 < width source :=
    remaining_lt_width m'.cursors nested
  have hless := Nat.mul_lt_mul_of_pos_right hremaining
    (width_pow_pos source (source.size - ((traversed m.stack.frames).length + 1)))
  rw [potential, potential, htraversed, load, hsame, hexponent, List.length_cons, Nat.pow_succ,
    Nat.mul_comm (_ ^ _)]
  rw [Nat.succ_mul] at hless
  omega

/-- A region that ends leaves one child fewer at the node around it. -/
theorem potential_closes (h : Orderly source limit m) (h' : Orderly source limit m')
    {entry : FrameId × Frame D F Entry}
    (hregions : regions m.stack.frames = entry :: regions m'.stack.frames)
    (hcursors : m'.cursors = (m.cursors.erase m.input).bump m'.input) :
    potential source m' < potential source m := by
  rcases h.innermost hregions with ⟨-, htraversed, hother⟩
  have hkept : ∀ x ∈ traversed m'.stack.frames, m'.input ≠ x →
      m'.cursors.index x = m.cursors.index x := by
    intro x hx hne
    have hne' : m.input ≠ x := fun heq => hother (heq ▸ hx)
    rw [hcursors, Cursors.index_bump, if_neg hne, Cursors.index_erase, if_neg hne']
  have hchild : ∃ node, source.childAt? m'.input (m.cursors.index m'.input) = some node := by
    refine h.enclosing m'.input ?_
    rw [htraversed]
    exact h'.input_mem
  -- The digit of the inner node is dropped, and the node around it has one child fewer to go.
  have hload : load source m.cursors (m'.input :: (traversed m'.stack.frames).tail) =
      load source m'.cursors (m'.input :: (traversed m'.stack.frames).tail) +
        width source ^ (source.size - ((traversed m'.stack.frames).tail.length + 1)) := by
    rcases hchild with ⟨node, hnode⟩
    refine load_bump hnode ?_ fun y hy => ?_
    · have hne : m.input ≠ m'.input := fun heq => hother (heq ▸ h'.input_mem)
      rw [hcursors, Cursors.index_bump, if_pos rfl, Cursors.index_erase, if_neg hne]
    · exact hkept y (List.mem_of_mem_tail hy) fun heq => h'.input_not_mem (heq ▸ hy)
  have hlength : (traversed m'.stack.frames).tail.length + 1 =
      (traversed m'.stack.frames).length := by
    conv_rhs => rw [h'.traversed_eq]
    rfl
  rw [← h'.traversed_eq, hlength] at hload
  have hpos := width_pow_pos source (source.size - (traversed m.stack.frames).length)
  rw [potential, potential, htraversed, load, hload, ← htraversed]
  omega

/-- Every round lowers the rank. -/
theorem Moves.rank_lt (h : Moves g source start limit m m') (hm : Orderly source limit m)
    (hm' : Orderly source limit m') : rank source limit m' < rank source limit m := by
  -- What a child or a region is worth outweighs all that can be tried at one child.
  have hless : potential source m' < potential source m →
      rank source limit m' < rank source limit m := by
    intro hpotential
    have heffort := hm'.effort_lt
    have hscaled := Nat.mul_le_mul_right (2 * limit + 2) (Nat.succ_le_of_lt hpotential)
    rw [Nat.succ_mul] at hscaled
    rw [rank, rank]
    omega
  cases h with
  | stays answer regions cursors tries =>
      rw [rank, rank, potential, potential, traversed_of_regions regions, cursors]
      exact Nat.add_lt_add_left tries _
  | proceeds node child answer regions cursors =>
      exact hless (potential_proceeds hm child regions cursors)
  | opens node child target nested answer named fresh id issued top regions cursors =>
      exact hless (potential_opens hm' (traversed_of_cons regions) fresh cursors)
  | closes past entry regions below cursors =>
      exact hless (potential_closes hm hm' regions cursors)

/-- The rank at the start is below the bound. -/
theorem rank_initial_lt (root : Node K V) (world : W) (limits : Limits) :
    rank source limits.maxDepth (Machine.initial root world limits : Machine D F K V Entry W) <
      roundsBound source limits := by
  have hsize : source.size - 1 + 1 = source.size := Nat.sub_add_cancel source.nonempty
  -- Only the root is traversed at the start, so its digit is the only one.
  have hpotential : potential source (Machine.initial root world limits : Machine D F K V Entry W) <
      width source ^ source.size := by
    have hremaining : remaining source (Cursors.empty.set Tree.root 0) Tree.root + 1 <
        width source := remaining_lt_width _ Tree.root
    have hless := Nat.mul_lt_mul_of_pos_right hremaining (width_pow_pos source (source.size - 1))
    rw [Nat.succ_mul, Nat.mul_comm (width source), ← Nat.pow_succ, Nat.succ_eq_add_one, hsize] at hless
    exact hless
  have heffort : (Machine.initial root world limits : Machine D F K V Entry W).effort
      limits.maxDepth < 2 * limits.maxDepth + 2 := by
    change limits.maxDepth + 1 + 0 < _
    omega
  have hscaled := Nat.mul_le_mul_right (2 * limits.maxDepth + 2) (Nat.succ_le_of_lt hpotential)
  rw [Nat.succ_mul] at hscaled
  rw [rank, roundsBound]
  omega

end Ranks

/-! ## The end of a run -/

section Ends

variable {g : Grammar D F I J K V Entry W} {source : Tree I J} {start : D} {limit : Nat}
variable {m : Machine D F K V Entry W} {n : Nat}

/-- A run that never enters a node again stops, after no more rounds than its rank. -/
theorem exists_stop (h : Orderly source limit m) (hnever : NeverReenters g source start m) :
    ∃ n ≤ rank source limit m, Runs g source start m n ∧
      succeeds g source start (stateAfter g source start m n) = false := by
  -- Each round that succeeds takes one from the rank.
  have hrank : ∀ n, Runs g source start m n →
      rank source limit (stateAfter g source start m n) + n ≤ rank source limit m := by
    intro n
    induction n with
    | zero => exact fun _ => Nat.le_refl _
    | succ n ih =>
        intro hruns
        have hbefore := ih (hruns.of_le (Nat.le_succ n))
        rcases h.after hnever (n + 1) hruns with ⟨horderly', hmoves⟩
        have horderly := (h.after hnever n (hruns.of_le (Nat.le_succ n))).1
        have hless := (hmoves n (Nat.lt_succ_self n)).rank_lt horderly horderly'
        omega
  by_contra hnone
  have hall : ∀ n, Runs g source start m n := by
    intro n
    induction n with
    | zero => exact fun j hj => absurd hj (Nat.not_lt_zero j)
    | succ n ih =>
        intro j hj
        rcases Nat.lt_succ_iff_lt_or_eq.1 hj with hlt | rfl
        · exact ih j hlt
        · by_contra hstop
          have hle := hrank j ih
          exact hnone ⟨j, by omega, ih, Bool.eq_false_iff.2 hstop⟩
  have hmore := hrank _ (hall (rank source limit m + 1))
  omega

theorem run_stateAfter (h : Runs g source start m n) (k : Nat) :
    run g source start (n + k) m = run g source start k (stateAfter g source start m n) := by
  induction n generalizing k with
  | zero => rw [Nat.zero_add, stateAfter]
  | succ n ih =>
      have hround := h.round (Nat.lt_succ_self n)
      rw [Nat.add_right_comm, Nat.add_assoc, ih (h.of_le (Nat.le_succ n)),
        run_of_round hround.1 hround.2]

/-- Where no further round succeeds, a run has its final result. -/
theorem run_of_stop (h : Runs g source start m n)
    (hstop : succeeds g source start (stateAfter g source start m n) = false) :
    ∃ outcome last, outcome ≠ Outcome.unfinished ∧
      ∀ rounds > n, run g source start rounds m = (outcome, last) := by
  -- A longer run comes to the state where no further round succeeds, and has rounds left there.
  have hruns : ∀ rounds > n, ∃ k, run g source start rounds m =
      run g source start (k + 1) (stateAfter g source start m n) := by
    intro rounds hrounds
    refine ⟨rounds - n - 1, ?_⟩
    rw [← run_stateAfter h]
    congr 1
    omega
  generalize stateAfter g source start m n = last at hstop hruns
  by_cases hfinished : last.isFinished source = true
  · refine ⟨.success (), last, fun heq => (nomatch heq), fun rounds hrounds => ?_⟩
    rcases hruns rounds hrounds with ⟨k, hk⟩
    rw [hk, run_of_finished hfinished]
  · rcases hadvance : advance g source start last with ⟨_, next⟩ | ⟨e, failed⟩
    · simp [succeeds, hfinished, hadvance] at hstop
    · refine ⟨.failure e, failed, fun heq => (nomatch heq), fun rounds hrounds => ?_⟩
      rcases hruns rounds hrounds with ⟨k, hk⟩
      rw [hk, run_of_failure (Bool.eq_false_iff.2 hfinished) hadvance]

theorem rebuild_eq_run (start : D) (root : Node K V) (world : W) (limits : Limits) (rounds : Nat) :
    ((Rebuilder.new g start source rounds root world limits).rebuild).1 =
      (run g source start rounds (Machine.initial root world limits)).1 := by
  unfold Rebuilder.rebuild Rebuilder.new
  dsimp only
  generalize run g source start rounds (Machine.initial root world limits) = result
  rcases result with ⟨_ | _ | _, last⟩ <;> rfl

end Ends

end Machine
end Rebuilding
end FeatureTree
