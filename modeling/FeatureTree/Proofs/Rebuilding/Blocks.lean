import FeatureTree.Proofs.Rebuilding.Answers
import FeatureTree.Proofs.Rebuilding.Descent

/-!
# Blocks — the frames of one node stand together

When no region is opened for a node that is being traversed already, the stack is a pile of blocks, one
for each traversed node: the region of the node, and above it the features that act inside.  The root
has a block without a region at the bottom.

`Machine.Orderly` is this picture with what belongs to it: exactly the traversed nodes have a recorded
index, waiting candidates belong to the innermost node, and every node but the innermost one is at a
child that exists.  `Machine.Orderly.round` says that a round keeps it, and that there are only four
things that a round can do to the regions and the indices.
-/

namespace FeatureTree
namespace Rebuilding
namespace Machine

variable {D F I J K V Key W : Type} {Entry : Key → Type}

/-! ## Blocks -/

section Frames

variable {frames rest : List (FrameId × Frame D F Entry)} {x : NodeId}

/-- The regions among the frames, the innermost first. -/
def regions (frames : List (FrameId × Frame D F Entry)) : List (FrameId × Frame D F Entry) :=
  frames.filter fun entry => entry.2.isRegion

/-- The nodes that are traversed, the innermost first and the root last. -/
def traversed (frames : List (FrameId × Frame D F Entry)) : List NodeId :=
  (regions frames).map (fun entry => entry.2.input) ++ [Tree.root]

/-- Features act on the node that is traversed below them, and regions are opened for other nodes than
those that are traversed already. -/
inductive Blocks : List (FrameId × Frame D F Entry) → Prop where
  | none : Blocks []
  | feature {rest : List (FrameId × Frame D F Entry)} (id : FrameId) (feature : F)
      (bag : Bag Key Entry) (output : NodeId) (below : Blocks rest) :
      Blocks ((id, ⟨.feature feature bag, inputOf rest, output⟩) :: rest)
  | region {rest : List (FrameId × Frame D F Entry)} (id : FrameId) (rule : D)
      (input output : NodeId) (below : Blocks rest) (fresh : input ∉ traversed rest) :
      Blocks ((id, ⟨.region rule, input, output⟩) :: rest)

theorem traversed_of_regions {frames' : List (FrameId × Frame D F Entry)}
    (h : regions frames' = regions frames) : traversed frames' = traversed frames := by
  rw [traversed, h, traversed]

/-- One more region means one more node. -/
theorem traversed_of_cons {frames' : List (FrameId × Frame D F Entry)}
    {entry : FrameId × Frame D F Entry} (h : regions frames' = entry :: regions frames) :
    traversed frames' = entry.2.input :: traversed frames := by
  rw [traversed, h, traversed]
  rfl

theorem root_mem_traversed (frames : List (FrameId × Frame D F Entry)) :
    Tree.root ∈ traversed frames :=
  List.mem_append_right _ List.mem_cons_self

namespace Blocks

/-- The node that is traversed now is the first one. -/
theorem traversed_eq (h : Blocks frames) :
    traversed frames = inputOf frames :: (traversed frames).tail := by
  induction h with
  | none => rfl
  | feature id feature bag output below ih => exact ih
  | region id rule input output below fresh ih => rfl

theorem inputOf_mem (h : Blocks frames) : inputOf frames ∈ traversed frames := by
  rw [h.traversed_eq]
  exact List.mem_cons_self

theorem nodup (h : Blocks frames) : (traversed frames).Nodup := by
  induction h with
  | none => exact List.pairwise_singleton _ _
  | feature id feature bag output below ih => exact ih
  | region id rule input output below fresh ih => exact List.nodup_cons.2 ⟨fresh, ih⟩

theorem inputOf_not_mem (h : Blocks frames) : inputOf frames ∉ (traversed frames).tail := by
  have hnodup := h.nodup
  rw [h.traversed_eq] at hnodup
  exact (List.nodup_cons.1 hnodup).1

theorem mem_traversed {entry : FrameId × Frame D F Entry} (h : Blocks frames)
    (hentry : entry ∈ frames) : entry.2.input ∈ traversed frames := by
  induction h with
  | none => cases hentry
  | feature id feature bag output below ih =>
      rcases List.mem_cons.1 hentry with rfl | hmem
      · exact below.inputOf_mem
      · exact ih hmem
  | region id rule input output below fresh ih =>
      rcases List.mem_cons.1 hentry with rfl | hmem
      · exact List.mem_cons_self
      · exact List.mem_cons_of_mem _ (ih hmem)

/-- The traversed nodes are the root and those that some frame traverses. -/
theorem mem_traversed_iff (h : Blocks frames) :
    x ∈ traversed frames ↔ x = Tree.root ∨ Traverses frames x := by
  constructor
  · intro hx
    rcases List.mem_append.1 hx with hregion | hroot
    · rcases List.mem_map.1 hregion with ⟨entry, hentry, rfl⟩
      exact .inr ⟨entry, (List.mem_filter.1 hentry).1, rfl⟩
    · exact .inl (List.mem_singleton.1 hroot)
  · rintro (rfl | ⟨entry, hentry, rfl⟩)
    · exact root_mem_traversed frames
    · exact h.mem_traversed hentry

theorem inputOf_eq_of_regions {frames' : List (FrameId × Frame D F Entry)} (h : Blocks frames)
    (h' : Blocks frames') (hregions : regions frames' = regions frames) :
    inputOf frames' = inputOf frames := by
  have htraversed := traversed_of_regions hregions
  rw [h.traversed_eq, h'.traversed_eq] at htraversed
  exact (List.cons.inj htraversed).1

end Blocks

/-- The frames that traverse a node stand next to each other: the region of the node, and above it
features.  The block of the root has no region, and no frame stands below it. -/
structure OneBlock (frames : List (FrameId × Frame D F Entry)) (x : NodeId)
    (inner features region outer : List (FrameId × Frame D F Entry)) : Prop where
  split : frames = inner ++ (features ++ (region ++ outer))
  above : ∀ entry ∈ inner, entry.2.input ≠ x
  below : ∀ entry ∈ outer, entry.2.input ≠ x
  acting : ∀ entry ∈ features, entry.2.isRegion = false ∧ entry.2.input = x
  opened : x ≠ Tree.root → ∃ entry, region = [entry] ∧ entry.2.isRegion = true ∧ entry.2.input = x
  bottom : x = Tree.root → region = [] ∧ outer = []

namespace OneBlock

variable {inner features region outer : List (FrameId × Frame D F Entry)}
variable {entry : FrameId × Frame D F Entry}

/-- Nothing stands above the block of the innermost node. -/
theorem inner_eq_nil (h : OneBlock frames x inner features region outer) (htop : inputOf frames = x) :
    inner = [] := by
  rcases inner with _ | ⟨top, inner⟩
  · rfl
  · refine absurd ?_ (h.above top List.mem_cons_self)
    rw [← htop, h.split]
    rfl

/-- A frame of another node on top leaves the block as it is. -/
theorem cover (h : OneBlock frames x inner features region outer) (hother : entry.2.input ≠ x) :
    OneBlock (entry :: frames) x (entry :: inner) features region outer :=
  { h with
    split := congrArg (entry :: ·) h.split
    above := List.forall_mem_cons.2 ⟨hother, h.above⟩ }

/-- A feature of the innermost node becomes part of the block. -/
theorem act (h : OneBlock frames x [] features region outer) (hfeature : entry.2.isRegion = false)
    (hsame : entry.2.input = x) :
    OneBlock (entry :: frames) x [] (entry :: features) region outer :=
  { h with
    split := congrArg (entry :: ·) h.split
    acting := List.forall_mem_cons.2 ⟨⟨hfeature, hsame⟩, h.acting⟩ }

end OneBlock

theorem Blocks.oneBlock (h : Blocks frames) :
    ∀ x ∈ traversed frames, ∃ inner features region outer,
      OneBlock frames x inner features region outer := by
  induction h with
  | none =>
      intro x hx
      have hroot : x = Tree.root := List.mem_singleton.1 hx
      exact ⟨[], [], [], [], rfl, List.forall_mem_nil _, List.forall_mem_nil _,
        List.forall_mem_nil _, fun hne => absurd hroot hne, fun _ => ⟨rfl, rfl⟩⟩
  | @feature rest id feature bag output below ih =>
      intro x hx
      rcases ih x hx with ⟨inner, features, region, outer, hblock⟩
      by_cases htop : inputOf rest = x
      · obtain rfl := hblock.inner_eq_nil htop
        exact ⟨[], _, region, outer, hblock.act rfl htop⟩
      · exact ⟨_, features, region, outer, hblock.cover htop⟩
  | @region rest id rule input output below fresh ih =>
      intro x hx
      rcases List.mem_cons.1 hx with rfl | hmem
      · refine ⟨[], [], [_], rest, rfl, List.forall_mem_nil _, ?_, List.forall_mem_nil _,
          fun _ => ⟨_, rfl, rfl, rfl⟩, fun heq => ?_⟩
        · exact fun entry hentry heq => fresh (heq ▸ below.mem_traversed hentry)
        · exact absurd (heq ▸ root_mem_traversed rest) fresh
      · rcases ih x hmem with ⟨inner, features, region, outer, hblock⟩
        have hother : input ≠ x := fun heq => fresh (heq ▸ hmem)
        exact ⟨_, features, region, outer, hblock.cover hother⟩

end Frames

/-! ## Leaving a block -/

section Leaving

variable {g : Grammar D F I J K V Entry W} {source : Tree I J}
variable {m m' : Machine D F K V Entry W} {frames : List (FrameId × Frame D F Entry)}

theorem releaseWhile_stop {input : NodeId} (hframes : m.stack.frames = frames)
    (hne : ∀ entry ∈ frames.head?, entry.2.input ≠ input)
    (h : releaseWhile g source input frames m = .ok () m') : m' = m := by
  rcases frames with _ | ⟨entry, rest⟩
  · cases h
    rfl
  · rcases releaseWhile_cons hframes h with ⟨heq, -⟩ | ⟨-, hsame⟩
    · exact absurd heq (hne entry rfl)
    · exact hsame

/-- The frames of the innermost node have left.  If that was the root, none is left; otherwise the node
around it is the innermost one now, and has gone on. -/
structure Cleared (m m' : Machine D F K V Entry W) : Prop where
  waiting : m'.waiting = m.waiting
  limit : m'.stack.maxDepth = m.stack.maxDepth
  blocks : Blocks m'.stack.frames
  below : m'.stack.frames <:+ m.stack.frames
  left : (regions m.stack.frames = [] ∧ m'.stack.frames = [] ∧ m'.cursors = m.cursors) ∨
    ∃ entry, regions m.stack.frames = entry :: regions m'.stack.frames ∧
      m'.cursors = (m.cursors.erase m.input).bump m'.input

theorem Blocks.cleared (h : Blocks frames) (hframes : m.stack.frames = frames)
    (hrelease : releaseWhile g source m.input frames m = .ok () m') : Cleared m m' := by
  have hinput : m.input = inputOf frames := by rw [input_eq_inputOf, hframes]
  rw [hinput] at hrelease
  clear hinput
  induction h generalizing m with
  | none =>
      cases hrelease
      refine ⟨rfl, rfl, hframes ▸ .none, hframes ▸ List.suffix_refl _, .inl ⟨?_, hframes, rfl⟩⟩
      rw [hframes]
      rfl
  | @feature rest id feature bag output below ih =>
      rcases releaseWhile_cons hframes hrelease with ⟨-, between, hreleased, hrest⟩ | ⟨hne, -⟩
      · have hbetween : between.stack.frames = rest := by rw [hreleased.stack]
        have hcursors : between.cursors = m.cursors := by
          rw [hreleased.cursors]
          exact if_pos rfl
        have hcleared := ih hbetween hrest
        have hregions : regions m.stack.frames = regions between.stack.frames := by
          rw [hframes, hbetween]
          rfl
        have hinput : m.input = between.input := by
          rw [input_eq_inputOf, input_eq_inputOf, hframes, hbetween]
          rfl
        refine ⟨hcleared.waiting.trans hreleased.waiting, ?_, hcleared.blocks, ?_, ?_⟩
        · rw [hcleared.limit, hreleased.stack]
        · rw [hframes]
          exact (hbetween ▸ hcleared.below).trans (List.suffix_cons _ _)
        · rw [hregions, hinput, ← hcursors]
          exact hcleared.left
      · exact absurd rfl hne
  | @region rest id rule input output below fresh ih =>
      have hne : inputOf rest ≠ input := fun heq => fresh (heq ▸ below.inputOf_mem)
      rcases releaseWhile_cons hframes hrelease with ⟨-, between, hreleased, hrest⟩ | ⟨hother, -⟩
      · have hbetween : between.stack.frames = rest := by rw [hreleased.stack]
        -- The frame below traverses another node, so it stays.
        have hstop : m' = between := by
          refine releaseWhile_stop hbetween (fun entry hentry => ?_) hrest
          rcases rest with _ | ⟨top, rest⟩
          · cases hentry
          · obtain rfl := Option.some.inj hentry
            exact hne
        subst hstop
        have hinput : m.input = input := by
          rw [input_eq_inputOf, hframes]
          rfl
        refine ⟨hreleased.waiting, by rw [hreleased.stack], hbetween ▸ below, ?_,
          .inr ⟨(id, ⟨.region rule, input, output⟩), ?_, ?_⟩⟩
        · rw [hframes, hbetween]
          exact List.suffix_cons _ _
        · rw [hframes, hbetween]
          rfl
        · rw [hreleased.cursors, if_neg hne, hinput, input_eq_inputOf, hbetween]
      · exact absurd rfl hother

end Leaving

/-! ## Orderly states -/

/-- The stack is a pile of blocks, and indices, candidates and children agree with it. -/
structure Orderly (source : Tree I J) (limit : Nat) (m : Machine D F K V Entry W) : Prop where
  sound : Sound m
  blocks : Blocks m.stack.frames
  noted : ∀ x, (m.cursors.get? x).isSome = true ↔ x ∈ traversed m.stack.frames
  pending : ∀ group, m.waiting = some group → ∃ node, m.node? source = some node
  enclosing : ∀ x ∈ (traversed m.stack.frames).tail,
    ∃ node, source.childAt? x (m.cursors.index x) = some node
  known : ∀ x ∈ traversed m.stack.frames, x < source.size
  newest : m.stack.frames.Pairwise fun inner outer => outer.1 < inner.1
  limited : m.stack.maxDepth = limit
  shallow : m.stack.depth ≤ limit

/-- What the order shows of the frames, the candidates and the indices: the frames of each traversed node
form one block, waiting candidates belong to the current node, and the root and the traversed nodes are
the ones that have an index. -/
structure Piled (m : Machine D F K V Entry W) : Prop where
  blocks : ∀ x, x = Tree.root ∨ Traverses m.stack.frames x → ∃ inner features region outer,
    OneBlock m.stack.frames x inner features region outer
  candidates : ∀ group, m.waiting = some group → group.input = m.input
  indices : ∀ x, (m.cursors.get? x).isSome = true ↔ x = Tree.root ∨ Traverses m.stack.frames x

/-- How long the machine can still stay at one child.  Candidates that wait become active or fail;
when none wait, frames leave until others are asked. -/
def effort (limit : Nat) (m : Machine D F K V Entry W) : Nat :=
  match m.waiting with
  | none => limit + 1 + m.stack.depth
  | some _ => limit - m.stack.depth

theorem effort_of_idle {limit : Nat} {m : Machine D F K V Entry W} (hidle : m.waiting = none) :
    m.effort limit = limit + 1 + m.stack.depth := by
  rw [effort, hidle]

theorem effort_of_waiting {limit : Nat} {m : Machine D F K V Entry W} {group : Candidates F Entry}
    (hwaiting : m.waiting = some group) : m.effort limit = limit - m.stack.depth := by
  rw [effort, hwaiting]

/-- The round from `m` to `m'` opens a region. -/
structure Opens (m m' : Machine D F K V Entry W) (id : FrameId) (region : Frame D F Entry) :
    Prop where
  isRegion : region.isRegion = true
  top : m'.stack.frames.head? = some (id, region)
  fresh : m.stack.pushed ≤ id

/-- What a round of an orderly run does to the regions and to the indices. -/
inductive Moves (g : Grammar D F I J K V Entry W) (source : Tree I J) (start : D) (limit : Nat)
    (m m' : Machine D F K V Entry W) : Prop where
  /-- The child stays the same, but there is less to try. -/
  | stays (answer : answer? g source start m ≠ some .proceed)
      (regions : regions m'.stack.frames = regions m.stack.frames)
      (cursors : m'.cursors = m.cursors) (tries : m'.effort limit < m.effort limit)
  /-- A feature uses the child. -/
  | proceeds (node : NodeId) (child : m.node? source = some node)
      (answer : answer? g source start m = some .proceed)
      (regions : regions m'.stack.frames = regions m.stack.frames)
      (cursors : m'.cursors = m.cursors.bump m.input)
  /-- A region is opened for another node. -/
  | opens (node : NodeId) (child : m.node? source = some node) (target : Redirect D)
      (nested : NodeId) (answer : answer? g source start m = some (.redirect target))
      (named : target.input = some nested) (fresh : nested ∉ traversed m.stack.frames)
      (id : FrameId) (issued : m.stack.pushed ≤ id)
      (top : m'.stack.frames.head? = some (id, ⟨.region target.dispatch, nested, target.output⟩))
      (regions : regions m'.stack.frames =
        (id, ⟨.region target.dispatch, nested, target.output⟩) :: regions m.stack.frames)
      (cursors : m'.cursors = m.cursors.set nested (target.start.getD 0))
  /-- The innermost region ends, and the node around it goes on. -/
  | closes (past : m.node? source = none) (entry : FrameId × Frame D F Entry)
      (regions : regions m.stack.frames = entry :: regions m'.stack.frames)
      (below : m'.stack.frames <:+ m.stack.frames)
      (cursors : m'.cursors = (m.cursors.erase m.input).bump m'.input)

section Rounds

variable {g : Grammar D F I J K V Entry W} {source : Tree I J} {start : D} {limit : Nat}
variable {m m' between : Machine D F K V Entry W}

theorem orderly_initial (g : Grammar D F I J K V Entry W) (start : D) (root : Node K V) (world : W)
    (limits : Limits) : Orderly source limits.maxDepth
      (Machine.initial root world limits : Machine D F K V Entry W) := by
  have hreach : Reachable g source start (Machine.initial root world limits) :=
    .initial root world limits
  refine ⟨hreach.sound, .none, ?_, fun group hgroup => (by cases hgroup), fun x hx => (by cases hx), ?_,
    .nil, rfl, Nat.zero_le _⟩
  · intro x
    change ((Cursors.empty.set Tree.root 0).get? x).isSome = true ↔ x ∈ [Tree.root]
    rw [Cursors.get?_set, List.mem_singleton]
    split
    · next heq => exact ⟨fun _ => heq.symm, fun _ => rfl⟩
    · next hne => exact ⟨fun h => (by cases h), fun heq => absurd heq.symm hne⟩
  · intro x hx
    obtain rfl := List.mem_singleton.1 hx
    exact source.nonempty

theorem pending_of_idle (hidle : m.waiting = none) :
    ∀ group, m.waiting = some group → ∃ node, m.node? source = some node := by
  intro group hgroup
  rw [hidle] at hgroup
  cases hgroup

namespace Orderly

theorem input_mem (h : Orderly source limit m) : m.input ∈ traversed m.stack.frames := by
  rw [input_eq_inputOf]
  exact h.blocks.inputOf_mem

theorem traversed_eq (h : Orderly source limit m) :
    traversed m.stack.frames = m.input :: (traversed m.stack.frames).tail := by
  rw [input_eq_inputOf]
  exact h.blocks.traversed_eq

theorem input_not_mem (h : Orderly source limit m) : m.input ∉ (traversed m.stack.frames).tail := by
  rw [input_eq_inputOf]
  exact h.blocks.inputOf_not_mem

/-- The innermost region is the one of the current node, which is traversed nowhere else. -/
theorem innermost (h : Orderly source limit m) {entry : FrameId × Frame D F Entry}
    {outer : List (FrameId × Frame D F Entry)}
    (hregions : regions m.stack.frames = entry :: regions outer) :
    entry.2.input = m.input ∧ traversed m.stack.frames = m.input :: traversed outer ∧
      m.input ∉ traversed outer := by
  have hcons := traversed_of_cons hregions
  have hinput : entry.2.input = m.input := (List.cons.inj (hcons.symm.trans h.traversed_eq)).1
  rw [hinput] at hcons
  refine ⟨hinput, hcons, ?_⟩
  have hnot := h.input_not_mem
  rw [hcons] at hnot
  exact hnot

theorem piled (h : Orderly source limit m) : Piled m where
  blocks := fun x hx => h.blocks.oneBlock x (h.blocks.mem_traversed_iff.2 hx)
  candidates := h.sound.traverses
  indices := fun x => (h.noted x).trans h.blocks.mem_traversed_iff

/-- The regions are the same, and no index changes but the one of the innermost node. -/
theorem keeps (h : Orderly source limit m) (hsound : Sound m') (hblocks : Blocks m'.stack.frames)
    (hregions : regions m'.stack.frames = regions m.stack.frames)
    (hcursors : m'.cursors = m.cursors ∨ m'.cursors = m.cursors.bump m.input)
    (hpending : ∀ group, m'.waiting = some group → ∃ node, m'.node? source = some node)
    (hnewest : m'.stack.frames.Pairwise fun inner outer => outer.1 < inner.1)
    (hlimited : m'.stack.maxDepth = limit) (hshallow : m'.stack.depth ≤ limit) :
    Orderly source limit m' := by
  have htraversed := traversed_of_regions hregions
  -- The one index that may change belongs to a node that has one already.
  have hget : ∀ x, (m'.cursors.get? x).isSome = true ↔ x ∈ traversed m.stack.frames := by
    intro x
    rcases hcursors with hsame | hbump
    · rw [hsame]
      exact h.noted x
    · rw [hbump, Cursors.bump, Cursors.get?_set]
      split
      · next heq => exact ⟨fun _ => heq ▸ h.input_mem, fun _ => rfl⟩
      · exact h.noted x
  have hindex : ∀ x ∈ (traversed m.stack.frames).tail,
      m'.cursors.index x = m.cursors.index x := by
    intro x hx
    rcases hcursors with hsame | hbump
    · rw [hsame]
    · have hne : m.input ≠ x := fun heq => h.input_not_mem (heq ▸ hx)
      rw [hbump, Cursors.index_bump, if_neg hne]
  refine ⟨hsound, hblocks, ?_, hpending, ?_, ?_, hnewest, hlimited, hshallow⟩
  · rw [htraversed]
    exact hget
  · rw [htraversed]
    intro x hx
    rw [hindex x hx]
    exact h.enclosing x hx
  · rw [htraversed]
    exact h.known

/-- The innermost region is gone, and no index changes but its own and that of the node around it. -/
theorem closed (h : Orderly source limit m) (hsound : Sound m') (hblocks : Blocks m'.stack.frames)
    {entry : FrameId × Frame D F Entry}
    (hregions : regions m.stack.frames = entry :: regions m'.stack.frames)
    (hcursors : m'.cursors = (m.cursors.erase m.input).bump m'.input)
    (hpending : ∀ group, m'.waiting = some group → ∃ node, m'.node? source = some node)
    (hnewest : m'.stack.frames.Pairwise fun inner outer => outer.1 < inner.1)
    (hlimited : m'.stack.maxDepth = limit) (hshallow : m'.stack.depth ≤ limit) :
    Orderly source limit m' := by
  rcases h.innermost hregions with ⟨-, htraversed, hother⟩
  have hinner : m'.input ∈ traversed m'.stack.frames := by
    rw [input_eq_inputOf]
    exact hblocks.inputOf_mem
  refine ⟨hsound, hblocks, ?_, hpending, ?_, ?_, hnewest, hlimited, hshallow⟩
  · intro x
    rw [hcursors, Cursors.bump, Cursors.get?_set]
    split
    · next heq => exact ⟨fun _ => heq ▸ hinner, fun _ => rfl⟩
    · rw [Cursors.get?_erase]
      split
      · next heq => exact ⟨fun hfalse => (by cases hfalse), fun hx => absurd (heq ▸ hx) hother⟩
      · next hne =>
          rw [h.noted x, htraversed, List.mem_cons]
          exact ⟨fun hx => hx.resolve_left (Ne.symm hne), .inr⟩
  · -- The nodes around the one that goes on are at the same children as before.
    intro x hx
    have hmem : x ∈ traversed m'.stack.frames := List.mem_of_mem_tail hx
    have hne : m'.input ≠ x := by
      intro heq
      rw [input_eq_inputOf] at heq
      exact hblocks.inputOf_not_mem (heq ▸ hx)
    have hne' : m.input ≠ x := fun heq => hother (heq ▸ hmem)
    rw [hcursors, Cursors.index_bump, if_neg hne, Cursors.index_erase, if_neg hne']
    refine h.enclosing x ?_
    rw [htraversed]
    exact hmem
  · intro x hx
    refine h.known x ?_
    rw [htraversed]
    exact List.mem_cons_of_mem _ hx

/-- One more region is there, for a node that gets its first index, and only that index changes. -/
theorem opened (h : Orderly source limit m) (hsound : Sound m') (hblocks : Blocks m'.stack.frames)
    {entry : FrameId × Frame D F Entry} {start : Nat} {node : NodeId}
    (hregions : regions m'.stack.frames = entry :: regions m.stack.frames)
    (hfresh : entry.2.input ∉ traversed m.stack.frames) (hknown : entry.2.input < source.size)
    (hcursors : m'.cursors = m.cursors.set entry.2.input start)
    (hchild : m.node? source = some node)
    (hpending : ∀ group, m'.waiting = some group → ∃ node, m'.node? source = some node)
    (hnewest : m'.stack.frames.Pairwise fun inner outer => outer.1 < inner.1)
    (hlimited : m'.stack.maxDepth = limit) (hshallow : m'.stack.depth ≤ limit) :
    Orderly source limit m' := by
  have htraversed := traversed_of_cons hregions
  refine ⟨hsound, hblocks, ?_, hpending, ?_, ?_, hnewest, hlimited, hshallow⟩
  · intro x
    rw [hcursors, Cursors.get?_set, htraversed, List.mem_cons]
    split
    · next heq => exact ⟨fun _ => .inl heq.symm, fun _ => rfl⟩
    · next hne => exact (h.noted x).trans ⟨.inr, fun hx => hx.resolve_left (Ne.symm hne)⟩
  · intro x hx
    rw [htraversed, List.tail_cons] at hx
    have hne : entry.2.input ≠ x := fun heq => hfresh (heq ▸ hx)
    rw [hcursors, Cursors.index_set, if_neg hne]
    -- The innermost node so far is at the child that was asked about.
    rw [h.traversed_eq] at hx
    rcases List.mem_cons.1 hx with rfl | htail
    · exact ⟨node, hchild⟩
    · exact h.enclosing x htail
  · rw [htraversed]
    exact List.forall_mem_cons.2 ⟨hknown, h.known⟩

/-- Candidates do not wait past the last child. -/
theorem idle_of_past (h : Orderly source limit m) (hpast : m.node? source = none) :
    m.waiting = none := by
  cases hwaiting : m.waiting with
  | none => rfl
  | some group =>
      rcases h.pending group hwaiting with ⟨node, hnode⟩
      rw [hpast] at hnode
      cases hnode

end Orderly

/-! ## One round -/

/-- A feature of the traversed node is the innermost frame, and answers. -/
structure Acting (limit : Nat) (m between : Machine D F K V Entry W) : Prop where
  feature : ∃ id feature bag output rest,
    between.stack.frames = (id, ⟨.feature feature bag, inputOf rest, output⟩) :: rest ∧
      Blocks rest
  regions : regions between.stack.frames = regions m.stack.frames
  newest : between.stack.frames.Pairwise fun inner outer => outer.1 < inner.1
  issued : ∀ entry ∈ between.stack.frames, entry.1 < between.stack.pushed
  pushed : m.stack.pushed ≤ between.stack.pushed
  limited : between.stack.maxDepth = limit
  shallow : between.stack.depth ≤ limit
  idle : between.waiting = none
  cursors : between.cursors = m.cursors

theorem Acting.blocks (h : Acting limit m between) : Blocks between.stack.frames := by
  rcases h.feature with ⟨id, feature, bag, output, rest, hframes, hrest⟩
  rw [hframes]
  exact .feature id feature bag output hrest

/-- A candidate has become active. -/
theorem Orderly.acting_claimed (h : Orderly source limit m) {feature : F} {bag : Bag Key Entry}
    {output : NodeId}
    (hpush : m.stack.push ⟨.feature feature bag, m.input, output⟩ = .ok between.stack)
    (hidle : between.waiting = none) (hcursors : between.cursors = m.cursors) :
    Acting limit m between ∧ between.stack.depth = m.stack.depth + 1 := by
  rcases push_frames hpush with ⟨hframes, hpushed⟩
  rcases Stack.depth_push hpush with ⟨hdepth, hroom, hmax⟩
  rw [input_eq_inputOf] at hframes
  refine ⟨⟨⟨_, _, _, _, _, hframes, h.blocks⟩, ?_, ?_, issued_push h.sound.issued hpush, ?_, ?_, ?_,
    hidle, hcursors⟩, hdepth⟩
  · rw [hframes]
    rfl
  · rw [hframes]
    exact List.pairwise_cons.2 ⟨fun entry hentry => h.sound.issued entry hentry, h.newest⟩
  · rw [hpushed]
    exact Nat.le_succ _
  · rw [hmax, h.limited]
  · rw [hdepth, ← h.limited]
    exact hroom

/-- The innermost feature has been asked. -/
theorem Orderly.acting_answered (h : Orderly source limit m) {id : FrameId} {before after : F}
    {bag bag' : Bag Key Entry} {output : NodeId} {rest : List (FrameId × Frame D F Entry)}
    (hframes : m.stack.frames = (id, ⟨.feature before bag, m.input, output⟩) :: rest)
    (hstack : between.stack =
      { m.stack with frames := (id, ⟨.feature after bag', m.input, output⟩) :: rest })
    (hidle : between.waiting = none) (hcursors : between.cursors = m.cursors) :
    Acting limit m between ∧ between.stack.depth = m.stack.depth := by
  have hblocks := h.blocks
  rw [hframes] at hblocks
  obtain ⟨hinput, hrest⟩ : m.input = inputOf rest ∧ Blocks rest := by
    generalize m.input = input at hblocks
    cases hblocks with
    | feature _ _ _ _ below => exact ⟨rfl, below⟩
  have hbetween : between.stack.frames =
      (id, ⟨.feature after bag', inputOf rest, output⟩) :: rest := by rw [hstack, hinput]
  have hdepth : between.stack.depth = m.stack.depth := by
    rw [Stack.depth, hbetween, Stack.depth, hframes]
    rfl
  have hnewest := h.newest
  rw [hframes] at hnewest
  refine ⟨⟨⟨_, _, _, _, _, hbetween, hrest⟩, ?_, ?_, ?_, ?_, ?_, ?_, hidle, hcursors⟩, hdepth⟩
  · rw [hbetween, hframes]
    rfl
  · rw [hbetween]
    exact List.pairwise_cons.2 (List.pairwise_cons.1 hnewest)
  · intro entry hentry
    have hpushed : between.stack.pushed = m.stack.pushed := by rw [hstack]
    rw [hbetween] at hentry
    rw [hpushed]
    rcases List.mem_cons.1 hentry with rfl | hmem
    · exact h.sound.issued (id, ⟨.feature before bag, m.input, output⟩)
        (hframes ▸ List.mem_cons_self)
    · exact h.sound.issued entry (hframes ▸ List.mem_cons_of_mem _ hmem)
  · exact Nat.le_of_eq (congrArg Stack.pushed hstack).symm
  · rw [hstack]
    exact h.limited
  · rw [hdepth]
    exact h.shallow

section Acting

variable {node : NodeId} (h : Orderly source limit m) (hacting : Acting limit m between)
variable (hsound : Sound m') (hchild : m.node? source = some node)

include h hacting hsound hchild

/-- The innermost feature uses the child. -/
theorem Orderly.proceeds (hanswer : answer? g source start m = some .proceed)
    (hstack : m'.stack = between.stack) (hwaiting : m'.waiting = between.waiting)
    (hcursors : m'.cursors = between.cursors.bump m.input) :
    Orderly source limit m' ∧ Moves g source start limit m m' := by
  rw [hacting.idle] at hwaiting
  rw [hacting.cursors] at hcursors
  exact ⟨h.keeps hsound (hstack ▸ hacting.blocks) (hstack ▸ hacting.regions) (.inr hcursors)
    (pending_of_idle hwaiting) (hstack ▸ hacting.newest) (hstack ▸ hacting.limited)
    (hstack ▸ hacting.shallow),
    .proceeds node hchild hanswer (hstack ▸ hacting.regions) hcursors⟩

omit hchild

/-- The innermost feature leaves, and the node below it is the same one. -/
theorem Orderly.declines {id : FrameId} {frame : Frame D F Entry}
    {rest : List (FrameId × Frame D F Entry)}
    (hanswer : answer? g source start m = some .decline) (hreleased : Released between m' id frame rest)
    (hless : limit + between.stack.depth < m.effort limit) :
    Orderly source limit m' ∧ Moves g source start limit m m' := by
  rcases hacting.feature with ⟨_, _, _, _, _, hframes, hrest⟩
  obtain ⟨heq, rfl⟩ := List.cons.inj (hreleased.frames.symm.trans hframes)
  obtain ⟨rfl, rfl⟩ := Prod.mk.inj heq
  have hcursors : m'.cursors = m.cursors := by
    rw [hreleased.cursors, if_pos rfl, hacting.cursors]
  have hstack : m'.stack.frames = rest := by rw [hreleased.stack]
  have hmax : m'.stack.maxDepth = limit := by
    rw [hreleased.stack]
    exact hacting.limited
  have hdepth : between.stack.depth = m'.stack.depth + 1 := by
    rw [Stack.depth, Stack.depth, hframes, hstack, List.length_cons]
  have hregions : regions m'.stack.frames = regions m.stack.frames := by
    rw [← hacting.regions, hframes, hstack]
    rfl
  have hnewest := hacting.newest
  rw [hframes] at hnewest
  have hshallow := hacting.shallow
  have hidle : m'.waiting = none := hreleased.waiting.trans hacting.idle
  refine ⟨h.keeps hsound (hstack ▸ hrest) hregions (.inl hcursors) (pending_of_idle hidle)
    (hstack ▸ (List.pairwise_cons.1 hnewest).2) hmax (by omega), .stays ?_ hregions hcursors ?_⟩
  · rw [hanswer]
    exact fun heq => by cases heq
  · rw [effort_of_idle hidle]
    omega

include hchild

/-- The child is handed to candidates, which wait for it. -/
theorem Orderly.outputs {target : Redirect D} {group : Candidates F Entry}
    (hanswer : answer? g source start m = some (.redirect target))
    (hstack : m'.stack = between.stack) (hwaiting : m'.waiting = some group)
    (hcursors : m'.cursors = between.cursors)
    (hless : limit - between.stack.depth < m.effort limit) :
    Orderly source limit m' ∧ Moves g source start limit m m' := by
  rw [hacting.cursors] at hcursors
  have hsame : m'.input = m.input := by
    rw [input_eq_inputOf, input_eq_inputOf, hstack]
    exact h.blocks.inputOf_eq_of_regions hacting.blocks hacting.regions
  refine ⟨h.keeps hsound (hstack ▸ hacting.blocks) (hstack ▸ hacting.regions) (.inl hcursors) ?_
    (hstack ▸ hacting.newest) (hstack ▸ hacting.limited) (hstack ▸ hacting.shallow),
    .stays ?_ (hstack ▸ hacting.regions) hcursors ?_⟩
  · intro _ _
    rw [node?, index, hcursors, hsame]
    exact ⟨node, hchild⟩
  · rw [hanswer]
    exact fun heq => by cases heq
  · rw [effort_of_waiting hwaiting, hstack]
    exact hless

/-- A region opens for a node that is not traversed yet. -/
theorem Orderly.enters {target : Redirect D} {nested : NodeId}
    (hanswer : answer? g source start m = some (.redirect target))
    (hnamed : target.input = some nested) (hknown : nested < source.size)
    (hpush : between.stack.push ⟨.region target.dispatch, nested, target.output⟩ = .ok m'.stack)
    (hwaiting : m'.waiting = between.waiting)
    (hcursors : m'.cursors =
      between.cursors.set nested (target.start.getD (between.cursors.index nested)))
    (hfresh : ∀ id region, Opens m m' id region → region.input ∉ traversed m.stack.frames) :
    Orderly source limit m' ∧ Moves g source start limit m m' := by
  rcases push_frames hpush with ⟨hframes, hpushed⟩
  rcases Stack.depth_push hpush with ⟨hdepth, hroom, hmax⟩
  have htop : m'.stack.frames.head? =
      some (between.stack.pushed, ⟨.region target.dispatch, nested, target.output⟩) := by
    rw [hframes]
    rfl
  have hnested : nested ∉ traversed m.stack.frames :=
    hfresh between.stack.pushed ⟨.region target.dispatch, nested, target.output⟩
      ⟨rfl, htop, hacting.pushed⟩
  -- The node has no index yet, so the region starts at zero unless the redirection says otherwise.
  have hnone : m.cursors.index nested = 0 := by
    have hget : m.cursors.get? nested = none := by
      rw [← Option.not_isSome_iff_eq_none]
      exact fun hsome => hnested ((h.noted nested).1 hsome)
    rw [Cursors.index, hget]
    rfl
  rw [hacting.cursors, hnone] at hcursors
  rw [hacting.idle] at hwaiting
  have hregions : regions m'.stack.frames =
      (between.stack.pushed, ⟨.region target.dispatch, nested, target.output⟩) ::
        regions m.stack.frames := by
    rw [hframes, ← hacting.regions]
    rfl
  have hblocks : Blocks m'.stack.frames := by
    rw [hframes]
    refine .region _ _ _ _ hacting.blocks ?_
    rw [traversed_of_regions hacting.regions]
    exact hnested
  have hnewest : m'.stack.frames.Pairwise fun inner outer => outer.1 < inner.1 := by
    rw [hframes]
    exact List.pairwise_cons.2 ⟨hacting.issued, hacting.newest⟩
  have hshallow : m'.stack.depth ≤ limit := by
    rw [hdepth, ← hacting.limited]
    exact hroom
  exact ⟨h.opened hsound hblocks hregions hnested hknown hcursors hchild (pending_of_idle hwaiting)
    hnewest (hmax.trans hacting.limited) hshallow,
    .opens node hchild target nested hanswer hnamed hnested between.stack.pushed hacting.pushed htop
      hregions hcursors⟩

/-- Following the answer of a feature. -/
theorem Orderly.heeds {step : Step (Redirect D)} (hanswer : answer? g source start m = some step)
    (hheeds : Heeds source m.input between m' step)
    (hfresh : ∀ id region, Opens m m' id region → region.input ∉ traversed m.stack.frames)
    (houtput : limit - between.stack.depth < m.effort limit)
    (hdecline : step = .decline → limit + between.stack.depth < m.effort limit) :
    Orderly source limit m' ∧ Moves g source start limit m m' := by
  cases hheeds with
  | proceed stack waiting cursors =>
      exact h.proceeds hacting hsound hchild hanswer stack waiting cursors
  | decline id frame rest released =>
      exact h.declines hacting hsound hanswer released (hdecline rfl)
  | output target group stack waiting traverses cursors =>
      exact h.outputs hacting hsound hchild hanswer stack waiting cursors houtput
  | descend target nested named elsewhere known stack waiting cursors =>
      exact h.enters hacting hsound hchild hanswer named known stack waiting cursors hfresh

end Acting

/-- The frames of the innermost node leave past its last child. -/
theorem Orderly.exhausted (h : Orderly source limit m) (hactive : m.isFinished source = false)
    (hpast : m.node? source = none) (hsilent : answer? g source start m = none) (hsound : Sound m')
    (hrelease : releaseWhile g source m.input m.stack.frames { m with waiting := none } =
      .ok () m') : Orderly source limit m' ∧ Moves g source start limit m m' := by
  have hidle := h.idle_of_past hpast
  have hcleared : Cleared { m with waiting := none } m' :=
    h.blocks.cleared (m := { m with waiting := none }) rfl hrelease
  have hpending : ∀ group, m'.waiting = some group → ∃ node, m'.node? source = some node :=
    pending_of_idle hcleared.waiting
  have hnewest := List.Pairwise.sublist hcleared.below.sublist h.newest
  have hlimited : m'.stack.maxDepth = limit := hcleared.limit.trans h.limited
  have hlength : m'.stack.depth ≤ m.stack.depth := hcleared.below.length_le
  have hshallow : m'.stack.depth ≤ limit := Nat.le_trans hlength h.shallow
  rcases hcleared.left with ⟨hregions, hframes, hcursors⟩ | ⟨entry, hregions, hcursors⟩
  · -- Only the root was traversed, and some of its frames were active.
    have hsame : regions m'.stack.frames = regions m.stack.frames := by
      rw [hframes]
      exact hregions.symm
    refine ⟨h.keeps hsound hcleared.blocks hsame (.inl hcursors) hpending hnewest hlimited hshallow,
      .stays ?_ hsame hcursors ?_⟩
    · rw [hsilent]
      exact fun heq => by cases heq
    · have hdepth : 0 < m.stack.depth := by
        refine List.length_pos_iff.2 fun hnil => ?_
        rw [isFinished, hpast, Stack.isEmpty, hnil] at hactive
        cases hactive
      have hzero : m'.stack.depth = 0 := by rw [Stack.depth, hframes, List.length_nil]
      have hidle' : m'.waiting = none := hcleared.waiting
      rw [effort_of_idle hidle, effort_of_idle hidle', hzero]
      exact Nat.add_lt_add_left hdepth _
  · have hinput : ({ m with waiting := none } : Machine D F K V Entry W).input = m.input := rfl
    rw [hinput] at hcursors
    exact ⟨h.closed hsound hcleared.blocks hregions hcursors hpending hnewest hlimited hshallow,
      .closes hpast entry hregions hcleared.below hcursors⟩

/-- A round that opens no region for a traversed node keeps the order. -/
theorem Orderly.round (h : Orderly source limit m) (hround : Round g source start m m')
    (hfresh : ∀ id region, Opens m m' id region → region.input ∉ traversed m.stack.frames) :
    Orderly source limit m' ∧ Moves g source start limit m m' := by
  have hsound : Sound m' := (advance_turn h.sound hround.2).sound h.sound
  cases advance_exchange h.sound hround.2 with
  | exhausted past silent released => exact h.exhausted hround.1 past silent hsound released
  | proposed node child silent idle group stack waiting traverses cursors =>
      have hsame : m'.input = m.input := by rw [input_eq_inputOf, stack, ← input_eq_inputOf]
      refine ⟨h.keeps hsound (stack ▸ h.blocks) (by rw [stack]) (.inl cursors) ?_
        (stack ▸ h.newest) (stack ▸ h.limited) (stack ▸ h.shallow), ?_⟩
      · intro _ _
        rw [node?, index, cursors, hsame]
        exact ⟨node, child⟩
      · refine .stays ?_ (by rw [stack]) cursors ?_
        · rw [silent]
          exact fun heq => by cases heq
        · rw [effort_of_idle idle, effort_of_waiting waiting, stack]
          omega
  | claimed node child step answer claims called feature bag output between stack idle cursors
      heeds =>
      rcases h.acting_claimed stack idle cursors with ⟨hacting, hdepth⟩
      have hshallow := hacting.shallow
      refine h.heeds hacting hsound child answer heeds hfresh ?_ ?_
      · -- Candidates that waited are one frame nearer to the limit now.
        cases hwaiting : m.waiting with
        | none =>
            rw [effort_of_idle hwaiting]
            omega
        | some group =>
            rw [effort_of_waiting hwaiting]
            omega
      · rintro rfl
        cases claims
  | answered node child step answer idle id before after bag bag' output rest frames between stack
      waiting cursors heeds =>
      rcases h.acting_answered frames stack waiting cursors with ⟨hacting, hdepth⟩
      refine h.heeds hacting hsound child answer heeds hfresh ?_ fun _ => ?_
      · rw [effort_of_idle idle]
        omega
      · rw [effort_of_idle idle, hdepth]
        omega

end Rounds

end Machine
end Rebuilding
end FeatureTree
