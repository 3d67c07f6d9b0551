import FeatureTree.Proofs.Calculator.Moves

/-!
# Building — the machine follows the bench

`Setting` says where a child list is rebuilt: the input node and the output node, the frames around it,
and the tree and the indices when its rebuilding starts.  `Builds` ties a site to a bench: a frame for
each open group, and perhaps one more frame on top, which leaves before the next node is looked at.

From such a site one node of the list leads to a site that is tied to the next bench, or to the error
that the bench fails with.
-/

namespace FeatureTree
namespace Calculator

open Rebuilding Site

/-- Where a child list is rebuilt. -/
structure Setting where
  input : NodeId
  output : NodeId
  /-- The label of the output node. -/
  label : Label ExprKind Literal
  /-- The frame of the region; the root has none. -/
  region : List Outline
  outside : List Outline
  /-- The tree when the rebuilding starts. -/
  origin : ExprTree
  /-- The indices when the rebuilding starts. -/
  index : NodeId → Nat

namespace Setting

/-- The frames below those of the open groups. -/
def base (st : Setting) : List Outline := st.region ++ st.outside

/-- The node that terms are attached to: the innermost open group, or the output. -/
def home (st : Setting) (groups : List NodeId) : NodeId := groups.headD st.output

/-- The label of that node. -/
def homeLabel (st : Setting) : List NodeId → Label ExprKind Literal
  | [] => st.label
  | _ :: groups => openLabel (groups.length + 1)

/-- The frames of the open groups. -/
def groupFrames (st : Setting) : List NodeId → List Outline
  | [] => []
  | g :: groups =>
      ⟨some (.grouping g (.ofDepth (groups.length + 1))), st.input, st.home groups⟩ ::
        st.groupFrames groups

/-- The nodes around the innermost one, with the terms in front. -/
def around (st : Setting) : List NodeId → List (List ExprTerm) → List (Bough ExprKind Literal)
  | _ :: groups, front :: outer =>
      ⟨st.home groups, st.homeLabel groups, front⟩ :: st.around groups outer
  | _, _ => []

/-- The nodes under construction, with the terms that the bench says. -/
def boughs (st : Setting) (groups : List NodeId) (b : Bench) : List (Bough ExprKind Literal) :=
  ⟨st.home groups, st.homeLabel groups, b.inner⟩ :: st.around groups b.outer

/-- A region traverses its own input node, which the frames outside do not. -/
structure Valid (st : Setting) : Prop where
  input_eq : inputOf st.base = st.input
  shape : st.region = [] ∧ st.outside = [] ∧ st.output = Tree.root ∨
    st.region = [⟨none, st.input, st.output⟩] ∧ inputOf st.outside ≠ st.input
  label : st.label.kind ≠ .group

theorem length_groupFrames (st : Setting) (groups : List NodeId) :
    (st.groupFrames groups).length = groups.length := by
  induction groups with
  | nil => rfl
  | cons g groups ih => simp [groupFrames, ih]

theorem input_of_mem_groupFrames {st : Setting} {groups : List NodeId} {f : Outline}
    (hf : f ∈ st.groupFrames groups) : f.input = st.input := by
  induction groups with
  | nil => cases hf
  | cons g groups ih =>
      rcases List.mem_cons.1 hf with rfl | hmem
      · rfl
      · exact ih hmem

theorem Valid.inputOf_groups {st : Setting} (hv : st.Valid) (groups : List NodeId) :
    inputOf (st.groupFrames groups ++ st.base) = st.input := by
  cases groups with
  | nil => exact hv.input_eq
  | cons g groups => rfl

theorem Valid.outputLevel_eq {st : Setting} (hv : st.Valid) {groups ids : List NodeId}
    {t : ExprTree} (hget : t.get? (st.home groups) = some ((st.homeLabel groups).over ids)) :
    Piece.outputLevel t (st.home groups) = .ofDepth groups.length := by
  cases groups with
  | nil => exact Site.outputLevel_other hget hv.label
  | cons g groups => exact Site.outputLevel_group hget

end Setting

/-- What the frame on top has to do with the bench: it only waits to leave, or its name waits for a
bracket. -/
inductive Trails (source : SyntaxTree) : Option Piece → Option (Label SyntaxKind Literal) → Prop where
  | nothing : Trails source none none
  | placed : Trails source (some .placed) none
  | applied : Trails source (some .applied) none
  | settled (group : NodeId) : Trails source (some (.settled group)) none
  | named (name : NodeId) (n : Node SyntaxKind Literal) (known : source.get? name = some n) :
      Trails source (some (.named name)) (some n.label)

/-- The tree as it is after a settled group has left. -/
def settledTree (trail : Option Piece) (t : ExprTree) : ExprTree :=
  match trail with
  | some (.settled group) => spanned t group
  | _ => t

/-- The frame of an operator in the innermost group has room. -/
def Roomy (limit : Nat) (st : Setting) (b : Bench) : Prop :=
  b.depth = 0 ∨ st.base.length + b.depth < limit

/-- The frames and the indices are those of the setting, with a frame for each open group and for the
feature on top, in front of the child of index `i`. -/
structure Framed (st : Setting) (b : Bench) (i : Nat) (groups : List NodeId) (trail : Option Piece)
    (stack : List Outline) (cursors : NodeId → Nat) : Prop where
  frames : stack = (trail.map fun p => ⟨some p, st.input, st.home groups⟩).toList ++
    (st.groupFrames groups ++ st.base)
  index : cursors = Function.update st.index st.input i
  length : groups.length = b.depth
  depth_le : b.depth ≤ 2
  fresh : ∀ g ∈ groups, st.origin.size ≤ g

/-- The site holds what the bench says. -/
structure Builds (source : SyntaxTree) (st : Setting) (b : Bench) (i : Nat)
    (groups : List NodeId) (trail : Option Piece) (s : Site) : Prop
    extends Framed st b i groups trail s.frames s.index where
  grows : Tree.Grows st.origin (settledTree trail s.tree) (st.boughs groups b)
  trails : Trails source trail b.name

/-- The site is tied to the bench, in front of the child of index `i`, and nothing waits. -/
def Rested (source : SyntaxTree) (limit : Nat) (st : Setting) (i : Nat) (b : Bench) (s : Site) :
    Prop :=
  s.waiting = none ∧ Roomy limit st b ∧ ∃ groups trail, Builds source st b i groups trail s

variable {source : SyntaxTree} {limit : Nat} {st : Setting} {b b' : Bench} {i k : Nat}
variable {groups : List NodeId} {trail : Option Piece} {s s' : Site}
variable {node : NodeId} {n : Node SyntaxKind Literal}

namespace Framed

variable {stack : List Outline} {cursors : NodeId → Nat}

theorem index_input (h : Framed st b i groups trail stack cursors) : cursors st.input = i := by
  rw [h.index, Function.update_self]

theorem inputOf_eq (h : Framed st b i groups trail stack cursors) (hv : st.Valid) :
    inputOf stack = st.input := by
  rw [h.frames]
  cases trail with
  | none => exact hv.inputOf_groups groups
  | some p => rfl

theorem length_stack (h : Framed st b i groups trail stack cursors) :
    stack.length = st.base.length + b.depth + trail.toList.length := by
  rw [h.frames, List.length_append, List.length_append, st.length_groupFrames, h.length]
  cases trail with
  | none => exact (Nat.zero_add _).trans (Nat.add_comm _ _)
  | some p =>
      change 1 + (b.depth + st.base.length) = st.base.length + b.depth + 1
      omega

/-- A frame is pushed above those of the groups. -/
theorem push (h : Framed st b i groups none stack cursors) (p : Piece) :
    Framed st b i groups (some p) (⟨some p, st.input, st.home groups⟩ :: stack) cursors :=
  ⟨congrArg (_ :: ·) h.frames, h.index, h.length, h.depth_le, h.fresh⟩

/-- The frame on top leaves. -/
theorem pop (h : Framed st b i groups trail stack cursors) (houter : b'.outer = b.outer) :
    Framed st b' i groups none (st.groupFrames groups ++ st.base) cursors := by
  have hdepth : b'.depth = b.depth := congrArg List.length houter
  exact ⟨rfl, h.index, hdepth ▸ h.length, hdepth ▸ h.depth_le, h.fresh⟩

/-- The current child is finished. -/
theorem step (h : Framed st b i groups trail stack cursors) (houter : b'.outer = b.outer) :
    Framed st b' (i + 1) groups trail stack (Function.update cursors st.input (i + 1)) := by
  have hdepth : b'.depth = b.depth := congrArg List.length houter
  refine ⟨h.frames, ?_, hdepth ▸ h.length, hdepth ▸ h.depth_le, h.fresh⟩
  rw [h.index]
  exact Function.update_idem _ _ _

end Framed

namespace Builds

theorem input_eq (h : Builds source st b i groups trail s) (hv : st.Valid) :
    s.input = st.input := h.inputOf_eq hv

theorem length_frames (h : Builds source st b i groups none s) :
    s.frames.length = st.base.length + b.depth := h.length_stack

/-- The level of the list that terms are added to. -/
theorem outputLevel_home (h : Builds source st b i groups none s) (hv : st.Valid) :
    Piece.outputLevel s.tree (st.home groups) = .ofDepth b.depth := by
  rcases h.grows.stands.1 with ⟨drawn, -, hget, -⟩
  exact (hv.outputLevel_eq hget).trans (congrArg Level.ofDepth h.length)

theorem rank_home (h : Builds source st b i groups none s) (hv : st.Valid) :
    (Piece.outputLevel s.tree (st.home groups)).rank = b.depth := by
  rw [h.outputLevel_home hv, Level.rank_ofDepth h.depth_le]

/-- The list around the innermost group is one level further outside. -/
theorem rank_around {g : NodeId} (h : Builds source st b i (g :: groups) none s) (hv : st.Valid) :
    (Piece.outputLevel s.tree (st.home groups)).rank + 1 = b.depth := by
  have hlength : groups.length + 1 = b.depth := h.length
  have hdepth : groups.length ≤ 2 := by
    have hle := h.depth_le
    omega
  obtain ⟨inner, outer, name⟩ := b
  obtain ⟨front, outer, rfl⟩ := List.exists_cons_of_length_eq_add_one h.length.symm
  rcases h.grows.stands.2.1 with ⟨drawn, -, hget, -⟩
  have hlevel : Piece.outputLevel s.tree (st.home groups) = .ofDepth groups.length :=
    hv.outputLevel_eq hget
  rw [hlevel, Level.rank_ofDepth hdepth]
  exact hlength

/-! ### The next node is attached -/

theorem home_lt (h : Builds source st b i groups none s) : st.home groups < s.tree.size :=
  h.grows.head_lt

/-- A frame of the current child is pushed, and the child is finished. -/
theorem next {p : Piece} {t : ExprTree} (waiting : Option (List Piece × NodeId))
    (h : Builds source st b i groups none s) (houter : b'.outer = b.outer)
    (hgrows : Tree.Grows st.origin (settledTree (some p) t) (st.boughs groups b'))
    (htrails : Trails source (some p) b'.name) :
    Builds source st b' (i + 1) groups (some p)
      ⟨t, ⟨some p, st.input, st.home groups⟩ :: s.frames, waiting,
        Function.update s.index st.input (i + 1)⟩ where
  toFramed := (h.push p).step houter
  grows := hgrows
  trails := htrails

/-- A candidate claims the child and is done with it, if there is room for its frame. -/
theorem claim {f : Bench → Bench} {p q : Piece} {features : List Piece} {t : ExprTree}
    (h : Builds source st b i groups none s) (hv : st.Valid)
    (hoffers : Offers source s node (st.home groups))
    (hnode : source.childAt? st.input i = some node)
    (hproposals : proposals source node = p :: features)
    (hacts : Acts p ⟨source, st.input, st.home groups, i⟩ node s.tree q .proceed t)
    (houter : (f b).outer = b.outer)
    (hgrows : Tree.Grows st.origin (settledTree (some q) t) (st.boughs groups (f b)))
    (htrails : Trails source (some q) (f b).name) :
    Leads source limit (k + 1) s ((b.seat limit st.base.length).map f)
      (Rested source limit st (i + 1)) := by
  have hinput := h.input_eq hv
  have hindex := h.index_input
  have hlength := h.length_frames
  rw [← hinput] at hnode hacts hindex
  rw [← hindex] at hnode hacts
  unfold Bench.seat
  split
  · next hfull =>
      exact (stops_full hoffers hnode hproposals hacts rfl (hlength ▸ hfull)).leads
  · next hroom =>
      have hroom' : s.frames.length < limit := hlength ▸ Nat.not_le.1 hroom
      have hnext := h.next none houter hgrows htrails
      have hroomy : Roomy limit st (f b) := by
        rw [Roomy, Bench.depth, houter]
        exact .inr (Nat.not_le.1 hroom)
      have hasks := asks_offer hoffers hnode hproposals hacts rfl hroom'
      refine (hasks.proceed rfl).leads (.here ⟨rfl, hroomy, groups, some q, ?_⟩)
      rw [hindex, hinput]
      exact hnext

/-! ### Frames leave -/

/-- What the bench says after the frame on top has left. -/
theorem left_trail {p : Piece} (h : Builds source st b i groups (some p) s) :
    Builds source st b.flush i groups none
      ⟨left source ⟨some p, st.input, st.home groups⟩ s.tree, st.groupFrames groups ++ st.base,
        none, s.index⟩ where
  toFramed := h.pop b.outer_flush
  grows := by
    have hgrows := h.grows
    rcases b with ⟨inner, outer, name⟩
    cases h.trails with
    | placed => exact hgrows
    | applied => exact hgrows
    | settled group => exact hgrows
    -- A name that leaves without a bracket becomes a leaf.
    | named name n known =>
        have hleaf := hgrows.attach ⟨.bareName, n.value, n.position⟩
        change Tree.Grows _ (s.tree.append _ ⟨.bareName, (source.get? name).bind Node.value,
          source.position? name, none⟩) _
        rw [position?_eq known, known]
        exact hleaf
  trails := by
    rw [Bench.name_flush]
    exact .nothing

/-- What the bench says after the innermost group has left. -/
theorem left_group {g : NodeId} (h : Builds source st b i (g :: groups) none s) :
    Builds source st b.close i groups none
      ⟨spanned s.tree g, st.groupFrames groups ++ st.base, none, s.index⟩ := by
  obtain ⟨inner, outer, name⟩ := b
  obtain ⟨front, outer, rfl⟩ := List.exists_cons_of_length_eq_add_one h.length.symm
  have hlength : groups.length = outer.length := Nat.succ.inj h.length
  have hdepth : outer.length + 1 ≤ 2 := h.depth_le
  have hspanned := (grows_spanned h.grows).fold (h.fresh g List.mem_cons_self)
  exact {
    frames := rfl
    index := h.index
    length := hlength
    depth_le := Nat.le_of_succ_le hdepth
    fresh := fun g' hg' => h.fresh g' (List.mem_cons_of_mem _ hg')
    grows := by
      rw [hlength] at hspanned
      exact hspanned
    trails := by
      have htrails := h.trails
      cases htrails
      exact .nothing }

/-- The frame on top leaves before a node that it does not want. -/
theorem settle {α : Type} {x : Except Rebuilding.Error α} {post : α → Site → Prop}
    (h : Builds source st b i groups trail s) (hv : st.Valid) (hidle : s.waiting = none)
    (hnode : source.childAt? st.input i = some node) (hget : source.get? node = some n)
    (hkind : n.kind ≠ .bracket ∨ b.name = none)
    (hk : ∀ s', s'.waiting = none → Builds source st b.flush i groups none s' →
      Leads source limit k s' x post) : Leads source limit (k + 1) s x post := by
  cases trail with
  | none =>
      have hname : b.name = none := by
        rcases b with ⟨inner, outer, name⟩
        cases h.trails
        rfl
      rw [Bench.flush_of_name _ hname] at hk
      exact (hk s hidle h).mono (Nat.le_succ k)
  | some p =>
      -- Only a waiting name can want the node, and only if it is a bracket.
      have hacts : Acts p ⟨source, st.input, st.home groups, i⟩ node s.tree p .decline s.tree := by
        rcases b with ⟨inner, outer, name⟩
        cases h.trails with
        | placed => exact fun _ _ => rfl
        | applied => exact fun _ _ => rfl
        | settled group => exact fun _ _ => rfl
        | named name n' known =>
            exact acts_named_decline hget (hkind.resolve_right (Option.some_ne_none _))
      have hindex := h.index_input
      rw [← hindex] at hnode hacts
      have hasks := asks_active limit hidle h.frames hnode hacts
      exact (hasks.decline hidle rfl (hv.inputOf_groups groups)).leads (hk _ rfl h.left_trail)

/-! ### Candidates for the next node -/

/-- A group sends the child on to features that build under the group. -/
theorem feed {α : Type} {x : Except Rebuilding.Error α} {post : α → Site → Prop} {g : NodeId}
    (h : Builds source st b i (g :: groups) none s) (hidle : s.waiting = none)
    (hv : st.Valid) (hnode : source.childAt? st.input i = some node)
    (hacts : Acts (.grouping g (.ofDepth (groups.length + 1)))
      ⟨source, st.input, st.home groups, i⟩ node s.tree
        (.grouping g (.ofDepth (groups.length + 1))) (Piece.feed g) s.tree)
    (hk : ∀ s', Builds source st b i (g :: groups) none s' → Offers source s' node g →
      Leads source limit k s' x post) : Leads source limit (k + 1) s x post := by
  have hindex := h.index_input
  rw [← hindex] at hnode hacts
  have hasks := asks_active limit hidle h.frames hnode hacts
  refine (hasks.feed (h.input_eq hv).symm h.home_lt).leads (hk _ ?_ (.inl rfl))
  exact ⟨h.pop rfl, h.grows, h.trails⟩

/-- Candidates for a node are asked to build where terms are added. -/
theorem offered {α : Type} {x : Except Rebuilding.Error α} {post : α → Site → Prop}
    (h : Builds source st b i groups none s) (hv : st.Valid) (hidle : s.waiting = none)
    (hnode : source.childAt? st.input i = some node) (hget : source.get? node = some n)
    (hoperand : n.value.bind Literal.operator? = none ∨ groups = [])
    (hk : ∀ s', Builds source st b i groups none s' →
      Offers source s' node (st.home groups) → Leads source limit k s' x post) :
    Leads source limit (k + 1) s x post := by
  cases groups with
  | cons g groups =>
      have hvalue := hoperand.resolve_right (List.cons_ne_nil _ _)
      exact h.feed hidle hv hnode (acts_feed_operand hget hvalue) hk
  | nil =>
      have hframes : s.frames = st.base := h.frames
      -- At the root nothing is active and the candidates start at once; elsewhere the region
      -- proposes.
      rcases hv.shape with ⟨hregion, houtside, houtput⟩ | ⟨hregion, -⟩
      · have hempty : s.frames = [] := by
          rw [hframes, Setting.base, hregion, houtside]
          rfl
        exact (hk s h (.inr ⟨hidle, hempty, houtput⟩)).mono (Nat.le_succ k)
      · rw [Setting.base, hregion] at hframes
        rw [← h.index_input] at hnode
        refine (turn_region hidle hframes hnode).leads (hk _ ?_ (.inl rfl))
        exact ⟨h.toFramed, h.grows, h.trails⟩

/-! ### Leaves -/

variable {op : Operator}

theorem name_eq_none (h : Builds source st b i groups none s) : b.name = none := by
  rcases b with ⟨inner, outer, name⟩
  cases h.trails
  rfl

/-- A copied leaf is laid behind the other terms. -/
theorem claim_leaf {p : Piece} {features : List Piece} {label : Label ExprKind Literal}
    (h : Builds source st b i groups none s) (hv : st.Valid)
    (hoffers : Offers source s node (st.home groups))
    (hnode : source.childAt? st.input i = some node)
    (hproposals : proposals source node = p :: features)
    (hacts : Acts p ⟨source, st.input, st.home groups, i⟩ node s.tree .placed .proceed
      (s.tree.append (st.home groups) label.leaf)) :
    Leads source limit (k + 1) s ((b.seat limit st.base.length).map (Bench.add (.leaf label)))
      (Rested source limit st (i + 1)) := by
  refine h.claim hv hoffers hnode hproposals hacts rfl (h.grows.attach label) ?_
  change Trails source (some .placed) b.name
  rw [h.name_eq_none]
  exact .placed

/-- A group opens, and takes the last term over. -/
theorem open_group (h : Builds source st b i groups none s) (hdepth : b.depth < 2)
    (waiting : Option (List Piece × NodeId)) :
    Builds source st b.openGroup i (s.tree.size :: groups) none
      ⟨opened s.tree (st.home groups) (.ofDepth (b.depth + 1)),
        ⟨some (.grouping s.tree.size (.ofDepth (b.depth + 1))), st.input, st.home groups⟩ ::
          s.frames, waiting, s.index⟩ where
  frames := by
    rw [h.frames, ← h.length]
    rfl
  index := h.index
  length := congrArg (· + 1) h.length
  depth_le := Nat.succ_le_of_lt hdepth
  fresh := by
    intro g hg
    rcases List.mem_cons.1 hg with rfl | hmem
    · exact h.grows.size_le
    · exact h.fresh g hmem
  grows := by
    have hlabel : st.homeLabel (s.tree.size :: groups) = openLabel (b.depth + 1) := by
      rw [← h.length]
      rfl
    rw [Setting.boughs, hlabel]
    exact grows_opened h.grows
  trails := h.trails

/-- An operator whose candidate is asked opens the missing groups. -/
theorem place_operator {d : Nat} (h : Builds source st b i groups none s) (hv : st.Valid)
    (hoffers : Offers source s node (st.home groups))
    (hnode : source.childAt? st.input i = some node) (hget : source.get? node = some n)
    (hkind : n.kind = .operator) (hvalue : n.value.bind Literal.operator? = some op)
    (hdepth : b.depth + d = op.level.rank) :
    Leads source limit (d + k + 1) s
      (((Bench.openGroup^[d] b).seat limit st.base.length).map
        (Bench.add (.leaf ⟨.operator, n.value, n.position⟩))) (Rested source limit st (i + 1)) := by
  have hproposals : proposals source node = [.operator] := by
    rw [proposals_eq hget, hkind]
    rfl
  -- By induction on the groups that are missing: each round opens one, and feeds the operator to
  -- it.
  induction d generalizing b groups s with
  | zero =>
      exact h.claim_leaf hv hoffers hnode hproposals
        (acts_place hget hvalue ((h.rank_home hv).trans hdepth))
  | succ d ih =>
      have hrank : op.level.rank ≤ 2 := Level.rank_le _
      have hdeep : b.depth < 2 := by omega
      have hbelow : (Piece.outputLevel s.tree (st.home groups)).rank < op.level.rank := by
        rw [h.rank_home hv]
        omega
      have htighter : (Piece.outputLevel s.tree (st.home groups)).tighter? =
          some (.ofDepth (b.depth + 1)) := by
        rw [h.outputLevel_home hv]
        exact Level.tighter?_ofDepth hdeep
      have hacts : Acts .operator ⟨source, st.input, st.home groups, i⟩ node s.tree
          (.grouping s.tree.size (.ofDepth (b.depth + 1))) (Piece.feed s.tree.size)
            (opened s.tree (st.home groups) (.ofDepth (b.depth + 1))) :=
        acts_open hget hvalue hbelow htighter
      have hinput := h.input_eq hv
      have hindex := h.index_input
      have hlength := h.length_frames
      rw [← hinput] at hindex hacts
      have hcurrent : source.childAt? s.input (s.index s.input) = some node := by
        rw [hindex, hinput, hnode]
      rw [← hindex] at hacts
      rw [Function.iterate_succ_apply]
      by_cases hfull : limit ≤ s.frames.length
      · -- There is no room for the frame of the group, so there would be none further inside.
        have hseat : (Bench.openGroup^[d] b.openGroup).seat limit st.base.length =
            .error (.violation (.depthExceeded limit)) := by
          refine if_pos ?_
          rw [Bench.depth_iterate_openGroup, Bench.depth_openGroup]
          omega
        rw [hseat]
        exact (stops_full hoffers hcurrent hproposals hacts rfl hfull).leads
      · have hasks := asks_offer hoffers hcurrent hproposals hacts rfl (Nat.not_le.1 hfull)
        rw [hinput] at hasks
        have hopened := h.open_group hdeep (some (proposals source node, s.tree.size))
        have hdepth' : b.openGroup.depth + d = op.level.rank := by
          rw [Bench.depth_openGroup]
          omega
        have hleads := (hasks.feed hinput.symm hopened.home_lt).leads
          (ih hopened (.inl rfl) hdepth')
        exact hleads.mono (by omega)

/-- The terms of the innermost list lie in the arena, and its node is no other one under
construction. -/
theorem spanned_append {g : NodeId} {leaf : Node ExprKind Literal}
    (h : Builds source st b i (g :: groups) none s) :
    spanned (s.tree.append (st.home groups) leaf) g =
      (spanned s.tree g).append (st.home groups) leaf := by
  obtain ⟨inner, outer, name⟩ := b
  obtain ⟨front, outer, rfl⟩ := List.exists_cons_of_length_eq_add_one h.length.symm
  rcases h.grows.stands.1 with ⟨drawn, -, hget, hterms⟩
  rw [List.append_nil] at hget
  refine Site.spanned_append ?_ h.home_lt ?_
  · exact Ne.symm (h.grows.ne_of_mem List.mem_cons_self)
  · intro id hid
    have hchildren : s.tree.children g = drawn.map Term.id := Tree.children_of_get? hget
    rw [hchildren] at hid
    rcases List.mem_map.1 hid with ⟨D, hD, rfl⟩
    exact (hterms D hD).id_lt

section Operators

variable {g : NodeId} {leaf : Label ExprKind Literal}

/-- The tree in which the innermost group is closed and a leaf stands behind it. -/
theorem grows_settled (h : Builds source st b i (g :: groups) none s) :
    Tree.Grows st.origin
      (settledTree (some (.settled g)) (s.tree.append (st.home groups) leaf.leaf))
      (st.boughs groups (b.close.add (.leaf leaf))) := by
  change Tree.Grows _ (spanned _ g) _
  rw [h.spanned_append]
  exact h.left_group.grows.attach leaf

/-- There is room for an operator in the innermost group, and in the lists around it. -/
theorem seat_of_roomy (h : Builds source st b i (g :: groups) none s) (hroomy : Roomy limit st b)
    {c : Bench} (hc : c.depth ≤ b.depth) : c.seat limit st.base.length = .ok c := by
  have hlength : groups.length + 1 = b.depth := h.length
  refine if_neg ?_
  rcases hroomy with hzero | hroom <;> omega

/-- An operator of the innermost group's own level. -/
theorem operator_own (h : Builds source st b i (g :: groups) none s) (hv : st.Valid)
    (hidle : s.waiting = none) (hroomy : Roomy limit st b)
    (hnode : source.childAt? st.input i = some node) (hget : source.get? node = some n)
    (hvalue : n.value.bind Literal.operator? = some op) (hlevel : b.depth = op.level.rank) :
    Leads source limit (k + 1) s
      (((b.turnTo op.level).seat limit st.base.length).map
        (Bench.add (.leaf ⟨.operator, n.value, n.position⟩))) (Rested source limit st (i + 1)) := by
  have hlength : groups.length + 1 = b.depth := h.length
  have hindex := h.index_input
  rw [← hindex] at hnode
  have hweaker : (Piece.outputLevel s.tree (st.home groups)).rank < op.level.rank := by
    rw [← hlevel, ← h.rank_around hv]
    exact Nat.lt_succ_self _
  have hown : Level.ofDepth (groups.length + 1) = op.level := by
    rw [hlength, hlevel, Level.ofDepth_rank]
  have hasks := asks_active limit hidle h.frames hnode
    (acts_continue hget hvalue hweaker hown)
  rw [Bench.turnTo_self hlevel, h.seat_of_roomy hroomy (Nat.le_refl _)]
  refine (hasks.proceed hidle).leads (.here ⟨hidle, hroomy, g :: groups, none, ?_⟩)
  rw [h.input_eq hv, hindex]
  exact ⟨(h.pop rfl).step rfl, h.grows.attach _, h.trails⟩

/-- An operator of the level around the innermost group, which it ends. -/
theorem operator_around (h : Builds source st b i (g :: groups) none s) (hv : st.Valid)
    (hidle : s.waiting = none) (hroomy : Roomy limit st b)
    (hnode : source.childAt? st.input i = some node) (hget : source.get? node = some n)
    (hvalue : n.value.bind Literal.operator? = some op) (hlevel : b.depth = op.level.rank + 1) :
    Leads source limit (k + 1) s
      (((b.turnTo op.level).seat limit st.base.length).map
        (Bench.add (.leaf ⟨.operator, n.value, n.position⟩))) (Rested source limit st (i + 1)) := by
  have hindex := h.index_input
  rw [← hindex] at hnode
  have hsame : (Piece.outputLevel s.tree (st.home groups)).rank = op.level.rank :=
    Nat.succ.inj ((h.rank_around hv).trans hlevel)
  have hasks := asks_active limit hidle h.frames hnode (acts_settle hget hvalue hsame)
  have hclose : b.close.depth = op.level.rank := by
    rw [Bench.depth_close]
    omega
  rw [Bench.turnTo_close (by omega), Bench.turnTo_self hclose,
    h.seat_of_roomy hroomy (by omega)]
  refine (hasks.proceed hidle).leads (.here ⟨hidle, ?_, groups, some (.settled g), ?_⟩)
  · rcases hroomy with hzero | hroom
    · omega
    · refine .inr ?_
      rw [Bench.depth_add]
      omega
  · rw [h.input_eq hv, hindex]
    refine h.left_group.next s.waiting (by rfl) h.grows_settled ?_
    change Trails source _ b.close.name
    rw [h.left_group.name_eq_none]
    exact .settled g

/-- An operator: groups that bind more tightly are left, and missing ones are opened. -/
theorem operator (h : Builds source st b i groups none s) (hv : st.Valid)
    (hidle : s.waiting = none) (hroomy : Roomy limit st b)
    (hnode : source.childAt? st.input i = some node) (hget : source.get? node = some n)
    (hkind : n.kind = .operator) (hvalue : n.value.bind Literal.operator? = some op) :
    Leads source limit (groups.length + 4) s
      (((b.turnTo op.level).seat limit st.base.length).map
        (Bench.add (.leaf ⟨.operator, n.value, n.position⟩))) (Rested source limit st (i + 1)) := by
  have hrank : op.level.rank ≤ 2 := Level.rank_le _
  -- By induction on the open groups: the innermost one answers, or it leaves and the next is asked.
  induction groups generalizing b s with
  | nil =>
      have hdepth : b.depth = 0 := h.length.symm
      rw [Bench.turnTo_open (by omega)]
      refine h.offered (k := 3) hv hidle hnode hget (.inr rfl) fun s' h' hoffers => ?_
      refine (h'.place_operator (k := 0) hv hoffers hnode hget hkind hvalue ?_).mono ?_ <;> omega
  | cons g groups ih =>
      have hlength : groups.length + 1 = b.depth := h.length
      have hdepth := h.depth_le
      rcases Nat.lt_trichotomy b.depth op.level.rank with hlt | heq | hgt
      · -- The operator opens a group in the innermost one.
        have hother : Level.ofDepth (groups.length + 1) ≠ op.level := by
          intro heq
          rw [← heq, Level.rank_ofDepth (by omega)] at hlt
          omega
        have hweaker : (Piece.outputLevel s.tree (st.home groups)).rank < op.level.rank := by
          have haround := h.rank_around hv
          omega
        -- The group hands the operator on to a new candidate, which finds itself in the group.
        rw [Bench.turnTo_open (by omega)]
        refine h.feed (k := groups.length + 4) hidle hv hnode
          (acts_feed_operator hget hvalue hweaker hother) fun s' h' hoffers => ?_
        refine (h'.place_operator (k := 0) hv hoffers hnode hget hkind hvalue
          (Nat.add_sub_cancel' (Nat.le_of_lt hlt))).mono ?_
        omega
      · exact h.operator_own hv hidle hroomy hnode hget hvalue heq
      · by_cases haround : b.depth = op.level.rank + 1
        · exact h.operator_around hv hidle hroomy hnode hget hvalue haround
        · -- The operator belongs further outside.
          have hindex := h.index_input
          have hcurrent := hnode
          rw [← hindex] at hcurrent
          have htighter : op.level.rank < (Piece.outputLevel s.tree (st.home groups)).rank := by
            have hone := h.rank_around hv
            omega
          have hasks := asks_active limit hidle h.frames hcurrent
            (acts_release hget hvalue htighter)
          rw [Bench.turnTo_close hgt]
          refine (hasks.decline hidle rfl (hv.inputOf_groups groups)).leads
            (ih h.left_group rfl ?_)
          rcases hroomy with hzero | hroom
          · omega
          · refine .inr ?_
            rw [Bench.depth_close]
            omega

end Operators

end Builds
end Calculator
end FeatureTree
