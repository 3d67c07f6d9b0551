import FeatureTree.Proofs.Rebuilding.Runs
import FeatureTree.Script.TreeFeature

/-!
# Descent — what a finished region leaves behind for the node around it

A redirection into another input node opens a region.  When the region is finished, the node around it
goes on to its next child: its recorded index is one more than before, provided that nothing inside the
region traversed the same node again.  Nodes and not traversals own the recorded indices, so a
traversal inside the region that ends takes the index of the outer one with it, and the outer one
goes on at its second child.

`Machine.Visit` is a region from the round that opens it to the round that ends it, in any run, and
`Machine.Visit.index_eq_succ_iff` says exactly when the node around it goes on to its next child.
-/

namespace FeatureTree
namespace Rebuilding
namespace Machine

variable {D F I J K V Key W : Type} {Entry : Key → Type}
variable {g : Grammar D F I J K V Entry W} {source : Tree I J} {start : D}
variable {m m' : Machine D F K V Entry W}

/-! ## Inside a region -/

/-- Some of the frames traverse the node. -/
def Traverses (frames : List (FrameId × Frame D F Entry)) (node : NodeId) : Prop :=
  ∃ entry ∈ frames, entry.2.input = node

/-- The frame `id` is active, with the frames `base` around it and `above` inside it. -/
structure Inside (base : List (FrameId × Frame D F Entry)) (id : FrameId)
    (region : Frame D F Entry) (above : List (FrameId × Frame D F Entry))
    (m : Machine D F K V Entry W) : Prop where
  frames : m.stack.frames = above ++ (id, region) :: base
  newer : ∀ entry ∈ above, id < entry.1
  issued : id < m.stack.pushed

/-- What the recorded index of the node `outer` around a region can be while frames `above` are active
inside it: the one from before, unless `outer` was entered again. -/
structure Marked (outer : NodeId) (index : Nat) (entered : Prop)
    (above : List (FrameId × Frame D F Entry)) (cursors : Cursors) : Prop where
  noted : Traverses above outer → entered
  kept : ¬ entered → cursors.index outer = index
  lost : entered → Traverses above outer ∨ cursors.index outer = 0

section Marks

variable {outer : NodeId} {index : Nat} {entered : Prop} {cursors : Cursors}
variable {above base : List (FrameId × Frame D F Entry)} {id : FrameId} {region : Frame D F Entry}

theorem traverses_cons {entry : FrameId × Frame D F Entry} {node : NodeId} :
    Traverses (entry :: above) node ↔ entry.2.input = node ∨ Traverses above node := by
  simp [Traverses]

theorem not_traverses_nil {node : NodeId} :
    ¬ Traverses ([] : List (FrameId × Frame D F Entry)) node := by
  rintro ⟨entry, hmem, -⟩
  cases hmem

/-- Above a region that lies elsewhere, the innermost frame traverses `outer` only if some frame inside
the region does. -/
theorem traverses_of_inputOf (hne : region.input ≠ outer) :
    inputOf (above ++ (id, region) :: base) = outer → Traverses above outer := by
  intro h
  rcases above with _ | ⟨⟨i, frame⟩, rest⟩
  · exact absurd h hne
  · exact ⟨(i, frame), List.mem_cons_self, h⟩

/-- Only whether some frame traverses `outer` counts. -/
theorem Marked.congr {above' : List (FrameId × Frame D F Entry)}
    (hmark : Marked outer index entered above cursors)
    (hsame : Traverses above' outer ↔ Traverses above outer) :
    Marked outer index entered above' cursors :=
  ⟨fun h => hmark.noted (hsame.1 h), hmark.kept, fun h => (hmark.lost h).imp_left hsame.2⟩

theorem Marked.push (hmark : Marked outer index entered above cursors) (hne : region.input ≠ outer)
    {entry : FrameId × Frame D F Entry}
    (hinput : entry.2.input = inputOf (above ++ (id, region) :: base)) :
    Marked outer index entered (entry :: above) cursors := by
  refine hmark.congr ⟨fun h => ?_, fun habove => traverses_cons.2 (.inr habove)⟩
  -- The new frame traverses the node of the frame below it.
  rcases traverses_cons.1 h with heq | habove
  · exact traverses_of_inputOf hne (hinput ▸ heq)
  · exact habove

theorem Marked.bump {node : NodeId} (hmark : Marked outer index entered above cursors)
    (hne : region.input ≠ outer) (hnode : node = inputOf (above ++ (id, region) :: base)) :
    Marked outer index entered above (cursors.bump node) := by
  -- `outer` itself goes on only if a frame inside traverses it, and then its index is not kept.
  by_cases houter : node = outer
  · have habove : Traverses above outer := traverses_of_inputOf hne (hnode ▸ houter)
    exact ⟨hmark.noted, fun h => absurd (hmark.noted habove) h, fun _ => .inl habove⟩
  · refine ⟨hmark.noted, ?_, ?_⟩
    · intro h
      rw [Cursors.index_bump, if_neg houter, hmark.kept h]
    · intro h
      rw [Cursors.index_bump, if_neg houter]
      exact hmark.lost h

/-- Opening a further region inside. -/
theorem Marked.descend (hmark : Marked outer index entered above cursors)
    (entry : FrameId × Frame D F Entry) (start : Nat) :
    Marked outer index (entered ∨ Traverses (entry :: above) outer) (entry :: above)
      (cursors.set entry.2.input start) := by
  refine ⟨.inr, ?_, ?_⟩
  · intro h
    have hne : entry.2.input ≠ outer := fun heq => h (.inr (traverses_cons.2 (.inl heq)))
    rw [Cursors.index_set, if_neg hne]
    exact hmark.kept fun hentered => h (.inl hentered)
  · intro h
    -- The new region traverses `outer`, or the index of `outer` is not the one that is set.
    by_cases heq : entry.2.input = outer
    · exact .inl (traverses_cons.2 (.inl heq))
    · rw [Cursors.index_set, if_neg heq]
      rcases h with hentered | habove
      · exact (hmark.lost hentered).imp (fun habove => traverses_cons.2 (.inr habove))
          (fun hzero => hzero)
      · exact .inl habove

/-- A frame inside the region leaves.  If it was the last of a traversal of `outer`, the index of `outer`
is forgotten. -/
theorem Marked.pop {entry : FrameId × Frame D F Entry}
    (hmark : Marked outer index entered (entry :: above) cursors) (hne : region.input ≠ outer) :
    Marked outer index entered above
      (if inputOf (above ++ (id, region) :: base) = entry.2.input then cursors
        else (cursors.erase entry.2.input).bump (inputOf (above ++ (id, region) :: base))) := by
  have hnoted : Traverses above outer → entered :=
    fun h => hmark.noted (traverses_cons.2 (.inr h))
  by_cases habove : Traverses above outer
  · exact ⟨hnoted, fun h => absurd (hnoted habove) h, fun _ => .inl habove⟩
  -- No frame inside the region traverses `outer` any more, so it is not the node that goes on.
  have hinput : inputOf (above ++ (id, region) :: base) ≠ outer :=
    fun h => habove (traverses_of_inputOf hne h)
  by_cases hentry : entry.2.input = outer
  · have hentered : entered := hmark.noted (traverses_cons.2 (.inl hentry))
    refine ⟨hnoted, fun h => absurd hentered h, fun _ => .inr ?_⟩
    rw [hentry, if_neg hinput, Cursors.index_bump, if_neg hinput, Cursors.index_erase, if_pos rfl]
  · have hsame : ∀ c : Cursors,
        c = (if inputOf (above ++ (id, region) :: base) = entry.2.input then cursors
          else (cursors.erase entry.2.input).bump (inputOf (above ++ (id, region) :: base))) →
        c.index outer = cursors.index outer := by
      intro c hc
      rw [hc]
      split
      · rfl
      · rw [Cursors.index_bump, if_neg hinput, Cursors.index_erase, if_neg hentry]
    refine ⟨hnoted, ?_, ?_⟩
    · intro h
      rw [hsame _ rfl]
      exact hmark.kept h
    · intro h
      rw [hsame _ rfl]
      rcases hmark.lost h with htop | hzero
      · rcases traverses_cons.1 htop with heq | hrest
        · exact absurd heq hentry
        · exact .inl hrest
      · exact .inr hzero

theorem Marked.absorb (hmark : Marked outer index entered above cursors) :
    Marked outer index (entered ∨ Traverses above outer) above cursors := by
  refine ⟨.inr, fun h => hmark.kept fun hentered => h (.inl hentered), ?_⟩
  intro h
  exact hmark.lost (h.elim (fun hentered => hentered) hmark.noted)

end Marks

/-! ## One round inside a region -/

section Rounds

variable {outer : NodeId} {index : Nat} {entered : Prop}
variable {above base : List (FrameId × Frame D F Entry)} {id : FrameId} {region : Frame D F Entry}

/-- The region is still active. -/
def Ongoing (outer : NodeId) (index : Nat) (entered : Prop)
    (base : List (FrameId × Frame D F Entry)) (id : FrameId) (region : Frame D F Entry)
    (m : Machine D F K V Entry W) : Prop :=
  ∃ above, Inside base id region above m ∧
    Marked outer index (entered ∨ Traverses above outer) above m.cursors

/-- The region has left, and the node around it has gone on. -/
structure Finished (outer : NodeId) (index : Nat) (entered : Prop)
    (base : List (FrameId × Frame D F Entry)) (m : Machine D F K V Entry W) : Prop where
  frames : m.stack.frames = base
  fresh : ¬ entered → m.cursors.index outer = index + 1
  again : entered → m.cursors.index outer = 1

theorem Inside.of_stack (h : Inside base id region above m) (hstack : m'.stack = m.stack) :
    Inside base id region above m' :=
  ⟨hstack ▸ h.frames, h.newer, hstack ▸ h.issued⟩

theorem Inside.released {entry : FrameId × Frame D F Entry}
    (h : Inside base id region (entry :: above) m)
    (hreleased : Released m m' entry.1 entry.2 (above ++ (id, region) :: base)) :
    Inside base id region above m' := by
  refine ⟨?_, fun other hmem => h.newer other (List.mem_cons_of_mem _ hmem), ?_⟩
  · rw [hreleased.stack]
  · rw [hreleased.stack]
    exact h.issued

theorem Inside.pushed {m₁ : Machine D F K V Entry W} {frame : Frame D F Entry}
    (h : Inside base id region above m) (hpush : m.stack.push frame = .ok m₁.stack) :
    Inside base id region ((m.stack.pushed, frame) :: above) m₁ := by
  rcases push_frames hpush with ⟨hframes, hpushed⟩
  refine ⟨?_, ?_, ?_⟩
  · rw [hframes, h.frames]
    rfl
  · intro entry hmem
    rcases List.mem_cons.1 hmem with rfl | hold
    · exact h.issued
    · exact h.newer entry hold
  · rw [hpushed]
    exact Nat.lt_succ_of_lt h.issued

/-- Releasing the frames of a node ends inside the region, or right around it. -/
theorem releaseWhile_inside {input : NodeId} (hne : region.input ≠ outer)
    (hbase : inputOf base = outer) :
    ∀ {above : List (FrameId × Frame D F Entry)} {m : Machine D F K V Entry W},
      Inside base id region above m → Marked outer index entered above m.cursors →
        releaseWhile g source input (above ++ (id, region) :: base) m = .ok () m' →
          Ongoing outer index entered base id region m' ∨
            Finished outer index entered base m'
  | [], m => by
      intro hinside hmark h
      rcases releaseWhile_cons hinside.frames h with ⟨heq, between, hreleased, hrest⟩ | ⟨-, rfl⟩
      · -- The region itself leaves: the frames around it traverse another node and stay.
        have hstop : m' = between := by
          rcases base with _ | ⟨⟨i, frame⟩, rest⟩
          · cases hrest
            rfl
          · have hframe : frame.input ≠ input := fun h => hne (heq.trans (h.symm.trans hbase))
            rcases releaseWhile_cons (by rw [hreleased.stack]) hrest with ⟨h, -⟩ | ⟨-, h⟩
            · exact absurd h hframe
            · exact h
        have hindex : between.cursors.index outer = m.cursors.index outer + 1 := by
          rw [hreleased.cursors, hbase, if_neg hne.symm, Cursors.index_bump, if_pos rfl,
            Cursors.index_erase, if_neg hne]
        refine .inr ⟨by rw [hstop, hreleased.stack], ?_, ?_⟩
        · intro hentered
          rw [hstop, hindex, hmark.kept hentered]
        · intro hentered
          rcases hmark.lost hentered with habove | hzero
          · exact absurd habove not_traverses_nil
          · rw [hstop, hindex, hzero]
      · exact .inl ⟨[], hinside, hmark.absorb⟩
  | (i, frame) :: rest, m => by
      intro hinside hmark h
      rcases releaseWhile_cons hinside.frames h with ⟨-, between, hreleased, hrest⟩ | ⟨-, rfl⟩
      -- A frame inside leaves, and the rest goes on with one frame fewer.
      · have hmark' : Marked outer index entered rest between.cursors := by
          rw [hreleased.cursors]
          exact hmark.pop hne
        exact releaseWhile_inside hne hbase (hinside.released hreleased) hmark' hrest
      · exact .inl ⟨_, hinside, hmark.absorb⟩

/-- Following the answer of a frame inside the region stays inside it. -/
theorem Followed.inside {input : NodeId} {entry : FrameId × Frame D F Entry}
    (h : Followed input m m') (hinside : Inside base id region (entry :: above) m)
    (hmark : Marked outer index entered (entry :: above) m.cursors) (hne : region.input ≠ outer)
    (hinput : input = entry.2.input) : Ongoing outer index entered base id region m' := by
  cases h with
  | proceeded stack waiting cursors =>
      refine ⟨_, hinside.of_stack stack, ?_⟩
      rw [cursors]
      have hnode : input = inputOf (entry :: above ++ (id, region) :: base) := hinput
      exact (hmark.bump hne hnode).absorb
  | declined i frame rest released =>
      -- The frame that refused leaves, so the frames inside are those below it.
      have hframes := released.frames.symm.trans hinside.frames
      rcases List.cons.inj hframes with ⟨rfl, rfl⟩
      refine ⟨above, hinside.released released, ?_⟩
      rw [released.cursors]
      exact (hmark.pop hne).absorb
  | offered group stack waiting traverses cursors =>
      refine ⟨_, hinside.of_stack stack, ?_⟩
      rw [cursors]
      exact hmark.absorb
  | descended frame start nested elsewhere stack waiting cursors =>
      refine ⟨_, hinside.pushed stack, ?_⟩
      rw [cursors]
      exact hmark.descend (m.stack.pushed, frame) start

/-- A round inside a region stays inside it or finishes it. -/
theorem Turn.inside (h : Turn source m m') (hinside : Inside base id region above m)
    (hmark : Marked outer index entered above m.cursors) (hregion : region.isRegion = true)
    (hne : region.input ≠ outer) (hbase : inputOf base = outer) :
    Ongoing outer index entered base id region m' ∨ Finished outer index entered base m' := by
  have hinput : m.input = inputOf (above ++ (id, region) :: base) := by
    rw [input_eq_inputOf, hinside.frames]
  cases h with
  | exhausted g past released =>
      -- Dropping the waiting candidates leaves the stack alone.
      have hidle : Inside base id region above { m with waiting := none } := hinside.of_stack rfl
      rw [hinside.frames] at released
      exact releaseWhile_inside hne hbase hidle hmark released
  | claimed feature bag output between stack waiting cursors followed =>
      have hpushed := hinside.pushed stack
      have hmark' : Marked outer index entered
          ((m.stack.pushed, ⟨.feature feature bag, m.input, output⟩) :: above) between.cursors :=
        cursors ▸ hmark.push hne hinput
      exact .inl (followed.inside hpushed hmark' hne rfl)
  | proposed group stack waiting traverses cursors =>
      refine .inl ⟨above, hinside.of_stack stack, ?_⟩
      rw [cursors]
      exact hmark.absorb
  | answered feature bag top rest between frames acts stack idle waiting cursors followed =>
      rcases above with _ | ⟨entry, above⟩
      · -- The innermost frame is the region itself, which does not answer.
        rcases List.cons.inj (frames.symm.trans hinside.frames) with ⟨rfl, -⟩
        exact absurd hregion (by simp [acts])
      · rcases List.cons.inj (frames.symm.trans hinside.frames) with ⟨rfl, rfl⟩
        -- The frame that answers changes its feature only, so it traverses what it did before.
        have hset : Inside base id region
            ((top.1, ⟨.feature feature bag, top.2.input, top.2.output⟩) :: above) between := by
          refine ⟨by rw [stack]; rfl, ?_, ?_⟩
          · intro other hmem
            rcases List.mem_cons.1 hmem with rfl | hold
            · exact hinside.newer top List.mem_cons_self
            · exact hinside.newer other (List.mem_cons_of_mem _ hold)
          · rw [stack]
            exact hinside.issued
        have hmark' : Marked outer index entered
            ((top.1, ⟨.feature feature bag, top.2.input, top.2.output⟩) :: above)
            between.cursors := by
          rw [cursors]
          exact hmark.congr (by rw [traverses_cons, traverses_cons])
        exact .inl (followed.inside hset hmark' hne hinput)

end Rounds

/-! ## From the opening of a region to its end -/

/-- A region of a run: the round from `m 0` to `m 1` opens it with the frame `id`, the frame is active for
`length` rounds, and it has left after the next one. -/
structure Visit (g : Grammar D F I J K V Entry W) (source : Tree I J) (start : D)
    (m : Nat → Machine D F K V Entry W) (length : Nat) (id : FrameId) (region : Frame D F Entry) :
    Prop where
  rounds : ∀ j ≤ length, Round g source start (m j) (m (j + 1))
  isRegion : region.isRegion = true
  opened : (m 1).stack.frames.head? = some (id, region)
  fresh : (m 0).stack.pushed ≤ id
  live : ∀ j, 1 ≤ j → j ≤ length → (m j).stack.isLive id = true
  closed : (m (length + 1)).stack.isLive id = false

/-- While the frame `id` was active, from `m 1` to `m length`, a newer frame traversed the node. -/
def Reenters (m : Nat → Machine D F K V Entry W) (length : Nat) (id : FrameId) (node : NodeId) :
    Prop :=
  ∃ j, 1 ≤ j ∧ j ≤ length ∧ ∃ entry ∈ (m j).stack.frames, id < entry.1 ∧ entry.2.input = node

section Visits

variable {id : FrameId} {region : Frame D F Entry} {base : List (FrameId × Frame D F Entry)}

theorem releaseWhile_subset {input : NodeId} :
    ∀ {frames : List (FrameId × Frame D F Entry)} {m : Machine D F K V Entry W},
      m.stack.frames = frames → releaseWhile g source input frames m = .ok () m' →
        ∀ entry ∈ m'.stack.frames, entry ∈ m.stack.frames
  | [], m => by
      intro _ h
      cases h
      exact fun _ hmem => hmem
  | (i, frame) :: rest, m => by
      intro hframes h
      rcases releaseWhile_cons hframes h with ⟨-, between, hreleased, hrest⟩ | ⟨-, rfl⟩
      · intro entry hmem
        have hbetween := releaseWhile_subset (by rw [hreleased.stack]) hrest entry hmem
        rw [hreleased.stack] at hbetween
        exact hframes ▸ List.mem_cons_of_mem _ hbetween
      · exact fun _ hmem => hmem

/-- A region that comes to be the innermost frame after an answer was opened by that answer. -/
theorem Followed.opened {input : NodeId} {entry : FrameId × Frame D F Entry}
    {rest : List (FrameId × Frame D F Entry)} (h : Followed input m m')
    (hframes : m.stack.frames = entry :: rest) (hacts : entry.2.isRegion = false)
    (hold : ∀ other ∈ rest, other.1 < id) (htop : m'.stack.frames.head? = some (id, region))
    (hregion : region.isRegion = true) :
    id = m.stack.pushed ∧ m'.stack.frames = (id, region) :: m.stack.frames ∧
      m'.stack.pushed = id + 1 ∧ region.input ≠ input ∧
      m'.cursors.index input = m.cursors.index input := by
  cases h with
  | proceeded stack waiting cursors =>
      rw [stack, hframes] at htop
      cases htop
      exact absurd hregion (by simp [hacts])
  | declined i frame rest' released =>
      rcases List.cons.inj (hframes.symm.trans released.frames) with ⟨rfl, rfl⟩
      rw [released.stack] at htop
      exact absurd (hold _ (List.mem_of_mem_head? htop)) (Nat.lt_irrefl _)
  | offered group stack waiting traverses cursors =>
      rw [stack, hframes] at htop
      cases htop
      exact absurd hregion (by simp [hacts])
  | descended frame index nested elsewhere stack waiting cursors =>
      rcases push_frames stack with ⟨hnew, hpushed⟩
      rw [hnew] at htop
      cases htop
      refine ⟨rfl, hnew, hpushed, elsewhere, ?_⟩
      rw [cursors, Cursors.index_set, if_neg elsewhere]

/-- The round that opens a region leaves the index of the traversed node alone. -/
theorem Turn.opened (h : Turn source m m') (hsound : Sound m)
    (htop : m'.stack.frames.head? = some (id, region)) (hregion : region.isRegion = true)
    (hfresh : m.stack.pushed ≤ id) :
    ∃ base, Inside base id region [] m' ∧ (∀ entry ∈ base, entry.1 < id) ∧
      inputOf base = m.input ∧ region.input ≠ m.input ∧
      m'.cursors.index m.input = m.cursors.index m.input := by
  have hmem : (id, region) ∈ m'.stack.frames := List.mem_of_mem_head? htop
  have hstale : (id, region) ∉ m.stack.frames :=
    fun hold => absurd (hsound.issued _ hold) (Nat.not_lt.2 hfresh)
  cases h with
  | exhausted g past released =>
      -- Frames only leave in this round, and the region is a new one.
      exact absurd (releaseWhile_subset (m := { m with waiting := none }) rfl released _ hmem) hstale
  | claimed feature bag output between stack waiting cursors followed =>
      rcases push_frames stack with ⟨hframes, hpushed⟩
      have hold : ∀ other ∈ m.stack.frames, other.1 < id :=
        fun other hother => Nat.lt_of_lt_of_le (hsound.issued other hother) hfresh
      rcases followed.opened hframes rfl hold htop hregion with
        ⟨rfl, hnew, hissued, hne, hindex⟩
      refine ⟨between.stack.frames, ⟨hnew, by simp, hissued ▸ Nat.lt_succ_self _⟩, ?_, ?_, hne, ?_⟩
      · exact fun entry hentry => issued_push hsound.issued stack entry hentry
      · rw [hframes, inputOf]
      · rw [hindex, cursors]
  | proposed group stack waiting traverses cursors =>
      exact absurd (stack ▸ hmem) hstale
  | answered feature bag top rest between frames acts stack idle waiting cursors followed =>
      have hframes : between.stack.frames =
          (top.1, ⟨.feature feature bag, top.2.input, top.2.output⟩) :: rest := by rw [stack]
      have hold : ∀ other ∈ rest, other.1 < id := fun other hother =>
        Nat.lt_of_lt_of_le (hsound.issued other (frames ▸ List.mem_cons_of_mem _ hother)) hfresh
      rcases followed.opened hframes rfl hold htop hregion with
        ⟨rfl, hnew, hissued, hne, hindex⟩
      refine ⟨between.stack.frames, ⟨hnew, by simp, hissued ▸ Nat.lt_succ_self _⟩, ?_, ?_, hne, ?_⟩
      · intro entry hentry
        rw [stack] at hentry ⊢
        rcases List.mem_cons.1 hentry with rfl | hrest
        · exact hsound.issued top (frames ▸ List.mem_cons_self)
        · exact hsound.issued entry (frames ▸ List.mem_cons_of_mem _ hrest)
      · rw [hframes, input_eq_inputOf, frames, inputOf, inputOf]
      · rw [hindex, cursors]

theorem Inside.isLive {above : List (FrameId × Frame D F Entry)}
    (h : Inside base id region above m) : m.stack.isLive id = true := by
  simp [Stack.isLive, h.frames]

theorem Inside.traverses_iff {above : List (FrameId × Frame D F Entry)} {node : NodeId}
    (h : Inside base id region above m) (hbase : ∀ entry ∈ base, entry.1 < id) :
    Traverses above node ↔
      ∃ entry ∈ m.stack.frames, id < entry.1 ∧ entry.2.input = node := by
  constructor
  · rintro ⟨entry, hmem, hinput⟩
    exact ⟨entry, h.frames ▸ List.mem_append_left _ hmem, h.newer entry hmem, hinput⟩
  · rintro ⟨entry, hmem, hnewer, hinput⟩
    rw [h.frames] at hmem
    rcases List.mem_append.1 hmem with habove | hrest
    · exact ⟨entry, habove, hinput⟩
    · rcases List.mem_cons.1 hrest with rfl | hold
      · exact absurd hnewer (Nat.lt_irrefl _)
      · exact absurd hnewer (Nat.lt_asymm (hbase entry hold))

variable {m : Nat → Machine D F K V Entry W} {length : Nat}

theorem Visit.reachable (v : Visit g source start m length id region)
    (hreach : Reachable g source start (m 0)) :
    ∀ j ≤ length + 1, Reachable g source start (m j)
  | 0 => fun _ => hreach
  | j + 1 => fun hj => (v.reachable hreach j (by omega)).round (v.rounds j (by omega))

theorem reenters_succ {j : Nat} {node : NodeId} (hj : 1 ≤ j + 1) :
    Reenters m (j + 1) id node ↔ Reenters m j id node ∨
      ∃ entry ∈ (m (j + 1)).stack.frames, id < entry.1 ∧ entry.2.input = node := by
  constructor
  · rintro ⟨k, hk, hkj, hentry⟩
    rcases Nat.lt_or_ge k (j + 1) with hlt | hge
    · exact .inl ⟨k, hk, Nat.lt_succ_iff.1 hlt, hentry⟩
    · exact .inr (Nat.le_antisymm hkj hge ▸ hentry)
  · rintro (⟨k, hk, hkj, hentry⟩ | hentry)
    · exact ⟨k, hk, Nat.le_succ_of_le hkj, hentry⟩
    · exact ⟨j + 1, hj, Nat.le_refl _, hentry⟩

/-- In every state inside the region, the index of the node around it is the one from before, unless the
node was entered again. -/
theorem Visit.inside (v : Visit g source start m length id region)
    (hreach : Reachable g source start (m 0)) :
    ∃ base, inputOf base = (m 0).input ∧ region.input ≠ (m 0).input ∧
      ∀ j, 1 ≤ j → j ≤ length → ∃ above, Inside base id region above (m j) ∧
        Marked (m 0).input (m 0).index (Reenters m j id (m 0).input) above (m j).cursors := by
  have hreachable := v.reachable hreach
  have hturn : ∀ j ≤ length, Turn source (m j) (m (j + 1)) :=
    fun j hj => advance_turn (hreachable j (by omega)).sound (v.rounds j hj).2
  rcases (hturn 0 (Nat.zero_le _)).opened hreach.sound v.opened v.isRegion v.fresh with
    ⟨base, hinside, hbase, hinput, hne, hindex⟩
  -- By induction on the rounds: the opening one sets the picture up, and every other one keeps it.
  refine ⟨base, hinput, hne, ?_⟩
  intro j
  induction j with
  | zero => exact fun h => absurd h (by decide)
  | succ j ih =>
      intro hj hlength
      rcases Nat.eq_zero_or_pos j with rfl | hpos
      · -- Nothing but the region is active yet.
        have hnever : ¬ Reenters m 1 id (m 0).input := by
          rw [reenters_succ hj]
          rintro (⟨k, hk, hk', -⟩ | hentry)
          · omega
          · exact not_traverses_nil ((hinside.traverses_iff hbase).2 hentry)
        exact ⟨[], hinside, fun h => absurd h not_traverses_nil, fun _ => hindex,
          fun h => absurd h hnever⟩
      · rcases ih hpos (by omega) with ⟨above, hin, hmark⟩
        rcases (hturn j (by omega)).inside hin hmark v.isRegion hne hinput with
          ⟨above', hin', hmark'⟩ | hfinished
        · refine ⟨above', hin', ?_⟩
          rw [hin'.traverses_iff hbase, ← reenters_succ hj] at hmark'
          exact hmark'
        · -- The region is still active after this round.
          have hlive := v.live (j + 1) hj hlength
          simp only [Stack.isLive, hfinished.frames, List.any_eq_true, beq_iff_eq] at hlive
          rcases hlive with ⟨entry, hmem, rfl⟩
          exact absurd (hbase entry hmem) (Nat.lt_irrefl _)

/-- After a region, the node around it is at its next child if and only if nothing inside the region
traversed that node again, or the node was at its first child.  Otherwise it is at its second child.
While nothing traverses the node again, its index does not change. -/
theorem Visit.index_eq_succ_iff (v : Visit g source start m length id region)
    (hreach : Reachable g source start (m 0)) :
    (m (length + 1)).input = (m 0).input ∧
      ((m (length + 1)).index = (m 0).index + 1 ↔
        ¬ Reenters m length id (m 0).input ∨ (m 0).index = 0) ∧
      (Reenters m length id (m 0).input → (m (length + 1)).index = 1) ∧
      (¬ Reenters m length id (m 0).input →
        ∀ j, 1 ≤ j → j ≤ length → (m j).cursors.index (m 0).input = (m 0).index) := by
  rcases v.inside hreach with ⟨base, hinput, hne, hinside⟩
  -- The region is active after the round that opens it, so it lasts for one round at least.
  have hlength : 1 ≤ length := by
    rcases Nat.eq_zero_or_pos length with rfl | hpos
    · have hmem := List.mem_of_mem_head? v.opened
      have hclosed := v.closed
      simp only [Stack.isLive, List.any_eq_false, beq_iff_eq] at hclosed
      exact absurd rfl (hclosed _ hmem)
    · exact hpos
  rcases hinside length hlength (Nat.le_refl _) with ⟨above, hin, hmark⟩
  have hturn := advance_turn (v.reachable hreach length (by omega)).sound
    (v.rounds length (Nat.le_refl _)).2
  -- The last round cannot leave the region active.
  rcases hturn.inside hin hmark v.isRegion hne hinput with ⟨above', hin', -⟩ | hfinished
  · have hlive := hin'.isLive
    rw [v.closed] at hlive
    cases hlive
  · have hcurrent : (m (length + 1)).input = (m 0).input := by
      rw [input_eq_inputOf, hfinished.frames, hinput]
    have hindex : (m (length + 1)).index = (m (length + 1)).cursors.index (m 0).input := by
      rw [index, hcurrent]
    refine ⟨hcurrent, ?_, ?_, ?_⟩
    · rw [hindex]
      by_cases hentered : Reenters m length id (m 0).input
      · rw [hfinished.again hentered]
        constructor
        · exact fun h => .inr (by omega)
        · rintro (h | h)
          · exact absurd hentered h
          · omega
      · exact ⟨fun _ => .inl hentered, fun _ => hfinished.fresh hentered⟩
    · intro hentered
      rw [hindex, hfinished.again hentered]
    · intro hnever j hj hjlength
      rcases hinside j hj hjlength with ⟨_, _, hmark'⟩
      refine hmark'.kept ?_
      rintro ⟨k, hk, hkj, hentry⟩
      exact hnever ⟨k, hk, by omega, hentry⟩

/-- A region in the states of a computed run. -/
theorem exists_visit {m : Machine D F K V Entry W} {first length : Nat} (id : FrameId)
    (hrounds : ∀ j ≤ length, succeeds g source start (stateAfter g source start m (j + first)) = true)
    (hopened : ((stateAfter g source start m (1 + first)).stack.frames.head?.map fun entry =>
      (entry.1, entry.2.isRegion)) = some (id, true))
    (hfresh : (stateAfter g source start m (0 + first)).stack.pushed ≤ id)
    (hlive : ∀ j ≤ length, 1 ≤ j → (stateAfter g source start m (j + first)).stack.isLive id = true)
    (hclosed : (stateAfter g source start m (length + 1 + first)).stack.isLive id = false) :
    ∃ region, Visit g source start (fun j => stateAfter g source start m (j + first)) length id
      region := by
  have hround : ∀ j ≤ length, Round g source start (stateAfter g source start m (j + first))
      (stateAfter g source start m (j + 1 + first)) := by
    intro j hj
    rw [Nat.add_right_comm]
    exact round_of_succeeds (hrounds j hj)
  rcases Option.map_eq_some_iff.1 hopened with ⟨⟨i, region⟩, hhead, hentry⟩
  rcases Prod.mk.inj hentry with ⟨rfl, hregion⟩
  exact ⟨region, hround, hregion, hhead, hfresh, fun j hj hlength => hlive j hlength hj, hclosed⟩

end Visits

/-! ## A list that leads back to the root -/

section Scripted

open Script Script.TreeFeature

/-- A leaf, and a list with one leaf. -/
def leafAndList : WordTree :=
  Tree.ofTerm (.branch ⟨"root", none, none⟩
    [.leaf ⟨"leaf", none, none⟩, .branch ⟨"list", none, none⟩ [.leaf ⟨"inner", none, none⟩]])

/-- Copies leaves and enters the list, where the feature `inside` acts: it copies, or it goes back into
the root. -/
def entering (inside : String) : Program where
  dispatch := [
    ("main", [(⟨some "list", none, none⟩, ["enter"]), (⟨none, none, none⟩, ["copy"])]),
    ("inside", [(⟨none, none, none⟩, [inside])]),
    ("again", [(⟨none, none, none⟩, ["copy"])])]
  features := [
    ("copy", ⟨[⟨some 0, ⟨none, none, none⟩, [.copy], some 1, .proceed⟩], []⟩),
    ("enter", ⟨[⟨some 0, ⟨none, none, none⟩, [], some 1, .nested "inside" .child .current none⟩,
      ⟨some 1, ⟨none, none, none⟩, [.copy], none, .proceed⟩], []⟩),
    ("back", ⟨[⟨some 0, ⟨none, none, none⟩, [], some 1, .nested "again" .root .current none⟩], []⟩)]

/-- The state of a run on `leafAndList` after a number of rounds. -/
def scripted (inside : String) :
    Nat → Machine String Instance String Scalar BagEntry (Journal TreeFeature.Entry) :=
  stateAfter (entering inside).grammar leafAndList "main"
    (Machine.initial (Node.parent "out") Journal.empty {})

/-- The list is the second child, and after it the root is past its last one. -/
theorem index_after_list :
    ∃ region, Visit (entering "copy").grammar leafAndList "main"
        (fun j => scripted "copy" (j + 2)) 3 2 region ∧
      ¬ Reenters (fun j => scripted "copy" (j + 2)) 3 2 (scripted "copy" 2).input ∧
      (scripted "copy" 2).index = 1 ∧ (scripted "copy" 6).index = 2 := by
  have hreach : Reachable (entering "copy").grammar leafAndList "main" (scripted "copy" 2) :=
    reachable_stateAfter (Reachable.initial _ _ _) (by decide +kernel)
  have hrounds : ∀ j ≤ 3, succeeds (entering "copy").grammar leafAndList "main"
      (scripted "copy" (j + 2)) = true := by decide +kernel
  rcases exists_visit 2 hrounds (by decide +kernel) (by decide +kernel) (by decide +kernel)
    (by decide +kernel) with ⟨region, v⟩
  have hnever : ¬ Reenters (fun j => scripted "copy" (j + 2)) 3 2 (scripted "copy" 2).input := by
    rintro ⟨j, hj, hj', hentry⟩
    have hnone : ∀ j ≤ 3, 1 ≤ j → ¬ ∃ entry ∈ (scripted "copy" (j + 2)).stack.frames,
        2 < entry.1 ∧ entry.2.input = (scripted "copy" 2).input := by decide +kernel
    exact hnone j hj' hj hentry
  have hindex : (scripted "copy" 2).index = 1 := by decide +kernel
  refine ⟨region, v, hnever, hindex, ?_⟩
  have hnext := (v.index_eq_succ_iff hreach).2.1.2 (.inl hnever)
  exact hnext.trans (congrArg (· + 1) hindex)

/-- When the list leads back to the root, the root is at its second child again after it. -/
theorem index_lost_after_list :
    ∃ region, Visit (entering "back").grammar leafAndList "main"
        (fun j => scripted "back" (j + 2)) 6 2 region ∧
      Reachable (entering "back").grammar leafAndList "main" (scripted "back" 2) ∧
      (scripted "back" 2).index = 1 ∧ (scripted "back" 9).input = (scripted "back" 2).input ∧
      (scripted "back" 9).index ≠ (scripted "back" 2).index + 1 := by
  have hreach : Reachable (entering "back").grammar leafAndList "main" (scripted "back" 2) :=
    reachable_stateAfter (Reachable.initial _ _ _) (by decide +kernel)
  have hrounds : ∀ j ≤ 6, succeeds (entering "back").grammar leafAndList "main"
      (scripted "back" (j + 2)) = true := by decide +kernel
  rcases exists_visit 2 hrounds (by decide +kernel) (by decide +kernel) (by decide +kernel)
    (by decide +kernel) with ⟨region, v⟩
  exact ⟨region, v, hreach, by decide +kernel, by decide +kernel, by decide +kernel⟩

end Scripted

end Machine
end Rebuilding
end FeatureTree
