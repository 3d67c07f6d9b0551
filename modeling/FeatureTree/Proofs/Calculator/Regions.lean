import FeatureTree.Proofs.Calculator.Building

/-!
# Regions — brackets, and the end of a child list

A bracket opens a region of its own: its children are rebuilt under its copy on a clear bench, in a
`Setting` around which the frames outside are left alone.  When its children are finished, all frames
of the region leave in one round, and the copy is a finished term of the list outside.

`Builds.bracket` puts these steps together, given that the bench is followed through the children.
-/

namespace FeatureTree
namespace Calculator

open Rebuilding Site

/-- A term of the flat tree with the ids of its nodes. -/
abbrev SourceTerm : Type := Term (NodeId × Label SyntaxKind Literal)

namespace Builds

variable {source : SyntaxTree} {limit : Nat} {st : Setting} {b : Bench} {i k : Nat}
variable {groups : List NodeId} {trail : Option Piece} {s s₁ : Site}
variable {node copy : NodeId} {n : Node SyntaxKind Literal} {q : Piece}

/-! ## The end of a child list -/

/-- All open groups leave, the innermost first. -/
theorem grows_closed (h : Builds source st b i groups none s) :
    Tree.Grows st.origin ((st.groupFrames groups).foldl (fun t f => left source f t) s.tree)
      [⟨st.output, st.label, (Bench.close^[b.depth] b).inner⟩] := by
  -- By induction on the open groups, each of which becomes a term of the list around it.
  induction groups generalizing b s with
  | nil =>
      rw [← h.length]
      exact h.grows
  | cons g groups ih =>
      have hlength : groups.length + 1 = b.depth := h.length
      have hclosed := ih h.left_group
      rw [Bench.depth_close, ← hlength, Nat.add_sub_cancel] at hclosed
      rw [← hlength, Function.iterate_succ_apply]
      exact hclosed

/-- The frames of the child list, in the order in which they leave. -/
def leaving (st : Setting) (groups : List NodeId) (trail : Option Piece) : List Outline :=
  (trail.map fun p => ⟨some p, st.input, st.home groups⟩).toList ++
    (st.groupFrames groups ++ st.region)

theorem frames_eq (h : Builds source st b i groups trail s) :
    s.frames = leaving st groups trail ++ st.outside := by
  rw [h.frames, leaving, Setting.base]
  simp only [List.append_assoc]

theorem input_of_mem_leaving (hv : st.Valid) {f : Outline} (hf : f ∈ leaving st groups trail) :
    f.input = st.input := by
  rcases List.mem_append.1 hf with htrail | hrest
  · cases trail with
    | none => cases htrail
    | some p => rw [List.mem_singleton.1 htrail]
  · rcases List.mem_append.1 hrest with hgroup | hregion
    · exact Setting.input_of_mem_groupFrames hgroup
    · rcases hv.shape with ⟨hnone, -⟩ | ⟨hone, -⟩
      · rw [hnone] at hregion
        cases hregion
      · rw [hone] at hregion
        rw [List.mem_singleton.1 hregion]

/-- The finished list is what the bench says. -/
theorem grows_finished (h : Builds source st b i groups trail s) (hv : st.Valid) :
    Tree.Grows st.origin ((leaving st groups trail).foldl (fun t f => left source f t) s.tree)
      [⟨st.output, st.label, b.finish⟩] := by
  have hregion : ∀ t : ExprTree, st.region.foldl (fun t f => left source f t) t = t := by
    intro t
    rcases hv.shape with ⟨hnone, -⟩ | ⟨hone, -⟩
    · rw [hnone]
      rfl
    · rw [hone]
      rfl
  rw [leaving, List.foldl_append, List.foldl_append, hregion, Bench.finish]
  cases trail with
  | none =>
      rw [Bench.flush_of_name _ h.name_eq_none]
      exact h.grows_closed
  | some p =>
      rw [← Bench.depth_flush]
      exact h.left_trail.grows_closed

/-! ## The start of a region -/

/-- A copy of a bracket has been made, and its region is about to open. -/
structure Enters (st : Setting) (b : Bench) (i : Nat) (groups : List NodeId) (q : Piece)
    (bracket : Label SyntaxKind Literal) (copy : NodeId) (s₁ : Site) : Prop
    extends Framed st b i groups (some q) s₁.frames s₁.index where
  idle : s₁.waiting = none
  copy_ge : st.origin.size ≤ copy
  grows : Tree.Grows st.origin s₁.tree (⟨copy, b.enclosure bracket, []⟩ :: st.boughs groups b)
  waits : q = .placed ∨ q = .applied

/-- A bracket is claimed, by its own candidate or by the name in front of it. -/
theorem enter {α : Type} {f : Bench → Except Rebuilding.Error α} {post : α → Site → Prop}
    (h : Builds source st b i groups trail s) (hv : st.Valid) (hidle : s.waiting = none)
    (hnode : source.childAt? st.input i = some node) (hget : source.get? node = some n)
    (hkind : n.kind = .bracket) (hplain : n.value.bind Literal.operator? = none)
    (hk : ∀ s₀ s₁ copy q, s₀.input = st.input →
      Asks source limit s₀ node s₁ (Piece.into node copy) →
      Enters st b i groups q n.label copy s₁ → Leads source limit k s₀ (f b) post) :
    Leads source limit (k + 1 + 2) s ((b.seatBracket limit st.base.length).bind f) post := by
  cases hname : b.name with
  | none =>
      -- No name waits: the candidate for brackets claims the node, if its frame has room.
      have hseat : b.seatBracket limit st.base.length = b.seat limit st.base.length := by
        rw [Bench.seatBracket, hname]
      rw [hseat]
      refine h.settle hv hidle hnode hget (.inr hname) fun s' hidle' h' => ?_
      rw [Bench.flush_of_name _ hname] at h'
      refine h'.offered hv hidle' hnode hget (.inl hplain) fun s₀ h₀ hoffers => ?_
      have hinput := h₀.input_eq hv
      have hindex := h₀.index_input
      rw [← hinput] at hindex
      have hcurrent : source.childAt? s₀.input (s₀.index s₀.input) = some node := by
        rw [hindex, hinput, hnode]
      have hproposals : proposals source node = [.bracket] := by
        rw [proposals_eq hget, hkind]
        rfl
      have hacts : Acts .bracket ⟨source, s₀.input, st.home groups, s₀.index s₀.input⟩ node s₀.tree
          .placed (Piece.into node s₀.tree.size) _ := acts_bracket hget hkind
      by_cases hfull : limit ≤ s₀.frames.length
      · have herror : b.seat limit st.base.length =
            .error (.violation (.depthExceeded limit)) := if_pos (h₀.length_frames ▸ hfull)
        rw [herror]
        exact (stops_full hoffers hcurrent hproposals hacts rfl hfull).leads
      · have hok : b.seat limit st.base.length = .ok b := if_neg (h₀.length_frames ▸ hfull)
        rw [hok]
        have hasks := asks_offer hoffers hcurrent hproposals hacts rfl (Nat.not_le.1 hfull)
        refine (hk s₀ _ _ .placed hinput hasks ?_).mono (Nat.le_succ k)
        exact {
          toFramed := hinput ▸ h₀.push .placed
          idle := rfl
          copy_ge := h₀.grows.size_le
          grows := by
            have hopened := h₀.grows.open ⟨.bracket, none, n.position⟩
            rw [Bench.enclosure, hname]
            exact hopened
          waits := .inl rfl }
  | some name =>
      -- The name that waits claims the node, and has its frame already.
      have hseat : b.seatBracket limit st.base.length = .ok b := by
        rw [Bench.seatBracket, hname]
      rw [hseat]
      rcases b with ⟨inner, outer, name'⟩
      obtain rfl : name' = some name := hname
      cases h.trails with
      | named id n' known =>
          have hindex := h.index_input
          rw [← hindex] at hnode
          have hasks := asks_active limit hidle h.frames hnode
            (acts_apply known hget hkind)
          refine (hk s _ _ .applied (h.input_eq hv) hasks ?_).mono (by omega)
          exact {
            toFramed := (h.pop rfl).push .applied
            idle := hidle
            copy_ge := h.grows.size_le
            grows := h.grows.open _
            waits := .inr rfl }

/-! ## Inside a region -/

/-- Where the children of a bracket are rebuilt. -/
def inside (b : Bench) (bracket : Label SyntaxKind Literal) (node copy : NodeId) (s₁ : Site) :
    Setting where
  input := node
  output := copy
  label := b.enclosure bracket
  region := [⟨none, node, copy⟩]
  outside := s₁.frames
  origin := s₁.tree
  index := s₁.index

namespace Enters

variable {bracket : Label SyntaxKind Literal}

theorem valid (h : Enters st b i groups q bracket copy s₁) (hother : node ≠ st.input) :
    (inside b bracket node copy s₁).Valid where
  input_eq := rfl
  shape := by
    refine .inr ⟨rfl, ?_⟩
    change inputOf s₁.frames ≠ node
    rw [h.frames]
    exact hother.symm
  label := by
    change (b.enclosure bracket).kind ≠ .group
    unfold Bench.enclosure
    cases b.name <;> exact fun heq => nomatch heq

theorem length_base (h : Enters st b i groups q bracket copy s₁) :
    (inside b bracket node copy s₁).base.length = st.base.length + b.depth + 2 := by
  rw [Setting.base, List.length_append, Nat.add_comm]
  exact congrArg (· + 1) h.length_stack

theorem begins (h : Enters st b i groups q bracket copy s₁) (hzero : s₁.index node = 0) :
    Builds source (inside b bracket node copy s₁) .clear 0 [] none
      { s₁ with frames := ⟨none, node, copy⟩ :: s₁.frames } where
  frames := rfl
  index := (Function.update_eq_self_iff.2 hzero.symm).symm
  length := rfl
  depth_le := Nat.zero_le _
  fresh := fun g hg => nomatch hg
  grows := by
    rcases h.grows.stands.1 with ⟨drawn, hdrawn, hget, -⟩
    obtain rfl : drawn = [] := List.map_eq_nil_iff.1 hdrawn
    exact .start hget rfl
  trails := .nothing

/-- The copy is finished, and its frame waits to leave. -/
theorem ends {content : Bench} {j : Nat} {groups' : List NodeId} {trail' : Option Piece} {s : Site}
    (h : Enters st b i groups q bracket copy s₁) (hother : node ≠ st.input)
    (hzero : s₁.index node = 0)
    (h' : Builds source (inside b bracket node copy s₁) content j groups' trail' s) :
    Builds source st (b.enclose bracket content.finish) (i + 1) groups (some q)
      ⟨(leaving (inside b bracket node copy s₁) groups' trail').foldl
        (fun t f => left source f t) s.tree, s₁.frames, none,
          ascended node s₁.frames s.index⟩ where
  toFramed := by
    have hne : st.input ≠ node := hother.symm
    have hindex : s.index = Function.update s₁.index node j := h'.index
    have hback : Function.update s₁.index node 0 = s₁.index :=
      Function.update_eq_self_iff.2 hzero.symm
    -- The index of the bracket is erased, and that of the node around it goes on by one.
    have hascended : ascended node s₁.frames s.index =
        Function.update s₁.index st.input (i + 1) := by
      rw [ascended, h.frames]
      change (if st.input = node then _ else
        Function.update (Function.update s.index node 0) st.input (s.index st.input + 1)) = _
      rw [if_neg hne, hindex, Function.update_of_ne hne, Function.update_idem, hback,
        h.index_input]
    rw [hascended]
    exact h.step rfl
  grows := by
    have hinner := h'.grows_finished (h.valid hother)
    have hfolded := (h.grows.resume hinner).fold h.copy_ge
    have htree : ∀ t : ExprTree, settledTree (some q) t = t := by
      intro t
      rcases h.waits with rfl | rfl <;> rfl
    rw [htree]
    exact hfolded
  trails := by
    rcases h.waits with rfl | rfl
    · exact .placed
    · exact .applied

end Enters

/-- A bracket with the nodes inside it. -/
theorem bracket {count : Nat} {items : List SourceTerm}
    (h : Builds source st b i groups trail s) (hv : st.Valid) (hidle : s.waiting = none)
    (hnode : source.childAt? st.input i = some node) (hget : source.get? node = some n)
    (hkind : n.kind = .bracket) (hplain : n.value.bind Literal.operator? = none)
    (hparent : n.isParent = true) (hother : node ≠ st.input) (hzero : st.index node = 0)
    (hend : source.childAt? node count = none)
    (hitems : ∀ st' s', st'.Valid → st'.input = node →
      st'.index = Function.update st.index st.input i → Rested source limit st' 0 .clear s' →
        Leads source limit k s' (Bench.takeAll limit st'.base.length 0 .clear items)
          (Rested source limit st' count)) :
    Leads source limit (k + 5) s
      ((b.seatBracket limit st.base.length).bind fun b =>
        (b.seat limit (st.base.length + 1)).bind fun b =>
          (Bench.takeAll limit (st.base.length + b.depth + 2) 0 .clear items).map fun content =>
            b.enclose n.label content.finish)
      (Rested source limit st (i + 1)) := by
  refine h.enter (k := k + 1 + 1) hv hidle hnode hget hkind hplain
    fun s₀ s₁ copy q hinput hasks henters => ?_
  have hother' : node ≠ s₀.input := hinput ▸ hother
  have hknown : copy < s₁.tree.size := henters.grows.head_lt
  have hdepth : s₁.frames.length = st.base.length + 1 + b.depth :=
    henters.length_stack.trans (Nat.add_right_comm _ _ _)
  have hzero₁ : s₁.index node = 0 := by
    rw [henters.index, Function.update_of_ne hother, hzero]
  -- The region needs a frame of its own.
  by_cases hfull : limit ≤ s₁.frames.length
  · have herror : b.seat limit (st.base.length + 1) =
        .error (.violation (.depthExceeded limit)) := if_pos (hdepth ▸ hfull)
    rw [herror]
    exact (hasks.stops_full hother' hknown hget hparent hfull).leads
  · have hok : b.seat limit (st.base.length + 1) = .ok b := if_neg (hdepth ▸ hfull)
    rw [hok]
    have hturn := hasks.descend hother' hknown henters.idle hget hparent (Nat.not_le.1 hfull)
    -- The children are rebuilt on a clear bench, and count from zero.
    have hstart : Rested source limit (inside b n.label node copy s₁) 0 .clear
        { s₁ with frames := ⟨none, node, copy⟩ :: s₁.frames } :=
      ⟨henters.idle, .inl rfl, [], none, henters.begins hzero₁⟩
    have hinside := hitems _ _ (henters.valid hother) rfl henters.index hstart
    rw [henters.length_base] at hinside
    refine hturn.leads (hinside.map fun content s₃ hrested => ?_)
    rcases hrested with ⟨hidle₃, -, groups', trail', h₃⟩
    -- All frames of the region leave at once.
    have hregion : leaving (inside b n.label node copy s₁) groups' trail' ≠ [] := by
      intro hnil
      have hlast := (List.append_eq_nil_iff.1 (List.append_eq_nil_iff.1 hnil).2).2
      cases hlast
    have hall : ∀ f ∈ leaving (inside b n.label node copy s₁) groups' trail', f.input = node :=
      fun f hf => input_of_mem_leaving (henters.valid hother) hf
    have hoverall : source.childAt? node (s₃.index node) = none := by
      have hindex : s₃.index node = count := h₃.index_input
      rw [hindex, hend]
    have hbase : inputOf s₁.frames ≠ node := by
      rw [henters.frames]
      exact hother.symm
    refine (turn_end h₃.frames_eq hregion hall (.inr hbase) hoverall).leads (.here ?_)
    refine ⟨rfl, .inr ?_, groups, some q, henters.ends hother hzero₁ h₃⟩
    change st.base.length + b.depth < limit
    omega

end Builds
end Calculator
end FeatureTree
