import FeatureTree.Proofs.Calculator.Regions

/-!
# Grouped — grouping a tree is a fold over its terms

`follows_of_shows` follows the machine through a node of the input and everything inside it, by
induction on the term that the node shows.  The induction needs to know that no node lies below itself: the index
of a node that is not being traversed is zero, so its children are visited from the first one on.

`group_eq` says what grouping makes of a whole tree, whether it succeeds or fails.
-/

namespace FeatureTree
namespace Calculator

open Rebuilding Site

/-- No node but an operator carries an operator. -/
def Plain (T : SourceTerm) : Prop :=
  ∀ a ∈ T.labels, a.2.kind ≠ .operator → a.2.value.bind Literal.operator? = none

variable {source : SyntaxTree} {limit : Nat} {st : Setting} {b : Bench} {i : Nat} {s : Site}

/-! ## One node -/

section Leaves

variable {node : NodeId} {n : Node SyntaxKind Literal} {k : Nat}

/-- Candidates for a node that is neither an operator nor a bracket, when the frame on top has left. -/
theorem Rested.offered {α : Type} {x : Except Rebuilding.Error α} {post : α → Site → Prop}
    (h : Rested source limit st i b s) (hv : st.Valid)
    (hnode : source.childAt? st.input i = some node) (hget : source.get? node = some n)
    (hkind : n.kind ≠ .bracket) (hvalue : n.value.bind Literal.operator? = none)
    (hk : ∀ groups s', Builds source st b.flush i groups none s' →
      Offers source s' node (st.home groups) → Leads source limit k s' x post) :
    Leads source limit (k + 2) s x post := by
  rcases h with ⟨hidle, -, groups, trail, h⟩
  refine h.settle hv hidle hnode hget (.inl hkind) fun s₁ hidle₁ h₁ => ?_
  exact h₁.offered hv hidle₁ hnode hget (.inl hvalue) fun s' h' hoffers => hk groups s' h' hoffers

/-- Nobody claims a node that is no operand and no operator. -/
theorem Rested.unclaimed {α : Type} {post : α → Site → Prop}
    (h : Rested source limit st i b s) (hv : st.Valid)
    (hnode : source.childAt? st.input i = some node) (hget : source.get? node = some n)
    (hkind : n.kind = .operator ∨ n.kind = .calculator)
    (hvalue : n.value.bind Literal.operator? = none) :
    Leads source limit (k + 3) s (.error (.unclaimed node i)) post := by
  have hne : n.kind ≠ .bracket := by
    rcases hkind with heq | heq <;> rw [heq] <;> decide
  refine h.offered (k := k + 1) hv hnode hget hne hvalue fun groups s' h' hoffers => ?_
  have hinput := h'.input_eq hv
  have hindex := h'.index_input
  rw [← hinput] at hnode hindex
  have hproposals : proposals source node = [] ∨ proposals source node = [.operator] ∧
      Acts .operator ⟨source, s'.input, st.home groups, s'.index s'.input⟩ node s'.tree .operator
        .decline s'.tree := by
    rw [proposals_eq hget]
    rcases hkind with heq | heq
    · exact .inr ⟨by rw [heq]; rfl, acts_operator_decline hget hvalue⟩
    · exact .inl (by rw [heq]; rfl)
  have hstops : Stops source limit s' (.unclaimed node (s'.index s'.input)) :=
    stops_unclaimed hoffers (hindex.symm ▸ hnode) hproposals
  rw [hindex] at hstops
  exact hstops.leads

/-- An operator, once the frame on top has left. -/
theorem Rested.takeOperator (h : Rested source limit st i b s) (hv : st.Valid)
    (hnode : source.childAt? st.input i = some node) (hget : source.get? node = some n)
    (hkind : n.kind = .operator) :
    Leads source limit 7 s (b.takeLeaf limit st.base.length i node n.label)
      (Rested source limit st (i + 1)) := by
  cases hvalue : n.value.bind Literal.operator? with
  | none =>
      rw [b.takeLeaf_unmarked n.label hkind hvalue]
      exact h.unclaimed (k := 4) hv hnode hget (.inl hkind) hvalue
  | some op =>
      rw [b.takeLeaf_operator n.label hkind hvalue]
      rcases h with ⟨hidle, hroomy, groups, trail, h⟩
      have hdepth := h.depth_le
      have hlength := h.length
      have hroomy' : Roomy limit st b.flush := by
        rw [Roomy, Bench.depth_flush]
        exact hroomy
      refine h.settle (k := 6) hv hidle hnode hget (.inl (by rw [hkind]; decide))
        fun s' hidle' h' => ?_
      exact (h'.operator hv hidle' hroomy' hnode hget hkind hvalue).mono (by omega)

/-- A node whose children, if it has any, are not visited. -/
theorem Rested.takeLeaf (h : Rested source limit st i b s) (hv : st.Valid)
    (hnode : source.childAt? st.input i = some node) (hget : source.get? node = some n)
    (hplain : n.kind ≠ .operator → n.value.bind Literal.operator? = none)
    (hother : node ≠ st.input) (hleaf : n.kind = .bracket → n.isParent = false) :
    Leads source limit 7 s (b.takeLeaf limit st.base.length i node n.label)
      (Rested source limit st (i + 1)) := by
  by_cases hoperator : n.kind = .operator
  · exact h.takeOperator hv hnode hget hoperator
  have hvalue := hplain hoperator
  cases hkind : n.kind with
  | operator => exact absurd hkind hoperator
  | calculator =>
      have htake : b.takeLeaf limit st.base.length i node n.label =
          .error (.unclaimed node i) := by
        rw [Bench.takeLeaf, Node.label, hkind]
      rw [htake]
      exact h.unclaimed (k := 4) hv hnode hget (.inr hkind) hvalue
  | number =>
      rw [b.takeLeaf_number n.label hkind]
      -- Past the frame on top, the candidate for numbers copies the node.
      have hproposals : proposals source node = [.number] := by
        rw [proposals_eq hget, hkind]
        rfl
      refine h.offered (k := 5) hv hnode hget (by rw [hkind]; decide) hvalue
        fun groups s' h' hoffers => ?_
      exact h'.claim_leaf hv hoffers hnode hproposals (acts_number hget hkind)
  | name =>
      rw [b.takeLeaf_name n.label hkind]
      have hproposals : proposals source node = [.name] := by
        rw [proposals_eq hget, hkind]
        rfl
      refine h.offered (k := 5) hv hnode hget (by rw [hkind]; decide) hvalue
        fun groups s' h' hoffers => ?_
      exact h'.claim hv hoffers hnode hproposals (acts_name hget hkind) rfl h'.grows
        (.named node _ hget)
  | bracket =>
      have htake : b.takeLeaf limit st.base.length i node n.label =
          (b.seatBracket limit st.base.length).bind fun _ =>
            .error (.violation (.invalidRedirect (.leafInput node))) := by
        rw [Bench.takeLeaf, Node.label, hkind]
      rw [htake]
      rcases h with ⟨hidle, -, groups, trail, h⟩
      refine h.enter (k := 4) hv hidle hnode hget hkind hvalue
        fun s₀ s₁ copy q hinput hasks henters => ?_
      exact (hasks.stops_leaf (hinput ▸ hother) henters.grows.head_lt hget (hleaf hkind)).leads

end Leaves

/-! ## A node with everything inside -/

/-- None of the nodes is being traversed. -/
def Fresh (st : Setting) (T : SourceTerm) : Prop :=
  ∀ a ∈ T.labels, a.1 ≠ st.input ∧ st.index a.1 = 0

/-- Wherever the node of the term is met, the machine follows the bench. -/
def Follows (source : SyntaxTree) (limit : Nat) (T : SourceTerm) : Prop :=
  ∀ st b i s, Rested source limit st i b s → st.Valid →
    source.childAt? st.input i = some T.id → Fresh st T →
      Leads source limit (16 * T.labels.length) s (b.take limit st.base.length i T)
        (Rested source limit st (i + 1))

theorem takeAll_leads {items : List SourceTerm} (hitems : ∀ X ∈ items, Follows source limit X)
    (h : Rested source limit st i b s) (hv : st.Valid)
    (hnodes : ∀ j X, items[j]? = some X → source.childAt? st.input (i + j) = some X.id)
    (hfresh : ∀ X ∈ items, Fresh st X) :
    Leads source limit (16 * (Term.labelsList items).length) s
      (b.takeAll limit st.base.length i items) (Rested source limit st (i + items.length)) := by
  induction items generalizing b i s with
  | nil => exact .here h
  | cons X items ih =>
      -- The first node has its rounds, and the others have the rest of them.
      rw [Bench.takeAll, Term.labelsList, List.length_append, Nat.mul_add]
      refine (hitems X List.mem_cons_self st b i s h hv (hnodes 0 X rfl)
        (hfresh X List.mem_cons_self)).bind fun b' s' _ h' => ?_
      rw [List.length_cons, Nat.add_comm items.length, ← Nat.add_assoc]
      refine ih (fun Y hY => hitems Y (List.mem_cons_of_mem _ hY)) h' ?_
        fun Y hY => hfresh Y (List.mem_cons_of_mem _ hY)
      intro j Y hY
      rw [Nat.add_assoc, Nat.add_comm 1]
      exact hnodes (j + 1) Y hY

theorem childAt?_of_branch {a : NodeId × Label SyntaxKind Literal} {items : List SourceTerm}
    {A : NodeId → Prop} (h : source.Shows A (.branch a items)) (j : Nat) :
    source.childAt? a.1 j = (items[j]?).map Term.id := by
  rw [Tree.childAt?_eq_getElem?, Tree.children_of_get? (Tree.shows_branch.1 h).2.1,
    List.getElem?_map]

variable (limit) in
/-- The machine follows the bench through every term of the input. -/
theorem follows_of_shows {T : SourceTerm} {A : NodeId → Prop} (h : source.Shows A T)
    (hplain : Plain T) : Follows source limit T := by
  induction T using Term.induction with
  | leaf a =>
      intro st b i s hrested hv hnode hfresh
      have hlabel := hplain a List.mem_cons_self
      have hother := (hfresh a List.mem_cons_self).1
      exact (hrested.takeLeaf hv hnode h.2 hlabel hother fun _ => rfl).mono (by simp [Term.labels])
  | branch a items ih =>
      intro st b i s hrested hv hnode hfresh
      rcases Tree.shows_branch.1 h with ⟨-, hget, hterms⟩
      have hlabel := hplain a List.mem_cons_self
      rcases hfresh a List.mem_cons_self with ⟨hother, hzero⟩
      have hcount : (Term.branch a items).labels.length = (Term.labelsList items).length + 1 := rfl
      rw [Bench.take, hcount]
      split
      · next hkind =>
          have hvalue := hlabel (by rw [hkind]; decide)
          have hbelow : ∀ X ∈ items, ∀ c ∈ X.labels, c ∈ (Term.branch a items).labels :=
            fun X hX c hc => Term.mem_labels_of_mem hX hc
          rcases hrested with ⟨hidle, hroomy, groups, trail, hbuilds⟩
          have hend : source.childAt? a.1 items.length = none := by
            rw [childAt?_of_branch h, List.getElem?_eq_none (Nat.le_refl _)]
            rfl
          -- No node below is `a.1` or is being traversed, so inside the bracket all indices are
          -- zero.
          have hinside : ∀ st' s', st'.Valid → st'.input = a.1 →
              st'.index = Function.update st.index st.input i →
                Rested source limit st' 0 .clear s' →
                  Leads source limit (16 * (Term.labelsList items).length) s'
                    (Bench.takeAll limit st'.base.length 0 .clear items)
                    (Rested source limit st' items.length) := by
            intro st' s' hv' hinput hindex hrested'
            have hleads := takeAll_leads (fun X hX => ih X hX (hterms X hX) fun c hc =>
              hplain c (hbelow X hX c hc)) hrested' hv' ?_ ?_
            · rwa [Nat.zero_add] at hleads
            · intro j X hX
              rw [hinput, Nat.zero_add, childAt?_of_branch h, hX]
              rfl
            · intro X hX c hc
              have hne := h.ne_of_mem_labels hX hc
              rcases hfresh c (hbelow X hX c hc) with ⟨hother', hzero'⟩
              refine ⟨hinput ▸ hne, ?_⟩
              rw [hindex, Function.update_of_ne hother', hzero']
          exact (hbuilds.bracket hv hidle hnode hget hkind hvalue rfl hother hzero hend
            hinside).mono (by omega)
      · next hkind =>
          refine (hrested.takeLeaf hv hnode hget hlabel hother fun heq => absurd heq hkind).mono ?_
          omega

/-! ## The whole tree -/

/-- The root, with nothing around it. -/
def rootSetting (t : SyntaxTree) (origin : ExprTree) : Setting where
  input := Tree.root
  output := Tree.root
  label := ⟨.calculator, none, t.rootNode.position⟩
  region := []
  outside := []
  origin := origin
  index := fun _ => 0

theorem rootSetting_valid (t : SyntaxTree) (origin : ExprTree) : (rootSetting t origin).Valid :=
  ⟨rfl, .inl ⟨rfl, rfl, rfl⟩, fun heq => nomatch heq⟩

/-- The machine is done, and the root shows the terms. -/
structure Done (source : SyntaxTree) (st : Setting) (items : List ExprTerm) (s : Site) : Prop where
  frames : s.frames = []
  ended : source.childAt? Tree.root (s.index Tree.root) = none
  grows : Tree.Grows st.origin s.tree [⟨st.output, st.label, items⟩]

/-- The last frames leave, if there are any. -/
theorem finish_leads {t : SyntaxTree} {origin : ExprTree} {count : Nat}
    (hend : t.childAt? Tree.root count = none)
    (h : Rested t limit (rootSetting t origin) count b s) :
    Leads t limit 1 s (.ok b.finish) (Done t (rootSetting t origin)) := by
  rcases h with ⟨hidle, -, groups, trail, h⟩
  have hv := rootSetting_valid t origin
  have hindex : s.index Tree.root = count := h.index_input
  have hover : t.childAt? Tree.root (s.index Tree.root) = none := by rw [hindex, hend]
  have hgrows := h.grows_finished hv
  by_cases hnone : Builds.leaving (rootSetting t origin) groups trail = []
  · rw [hnone] at hgrows
    have hframes := h.frames_eq
    rw [hnone] at hframes
    exact .here ⟨hframes, hover, hgrows⟩
  · have hturn : Turn t limit s _ := turn_end h.frames_eq hnone
      (fun f hf => Builds.input_of_mem_leaving hv hf) (.inl rfl) hover
    refine hturn.leads (.here ⟨rfl, ?_, hgrows⟩)
    exact hover

section Root

variable {t : SyntaxTree} {T : SourceTerm} {A : NodeId → Prop}

theorem position_rootNode (h : t.Shows A T) (hroot : T.id = Tree.root) :
    T.label.2.position = t.rootNode.position := by
  have hget : t.get? Tree.root = some t.rootNode := Array.getElem?_eq_getElem t.nonempty
  rw [← h.position?, hroot, Tree.position?, hget]
  rfl

theorem childAt?_root (h : t.Shows A T) (hroot : T.id = Tree.root) (j : Nat) :
    t.childAt? Tree.root j = (T.children[j]?).map Term.id := by
  rw [← hroot]
  cases T with
  | leaf a =>
      have hchildren : t.children a.1 = [] := by
        rw [Tree.children, Tree.childArray, h.2]
        rfl
      change t.childAt? a.1 j = _
      rw [Tree.childAt?_eq_getElem?, hchildren]
      rfl
  | branch a items => exact childAt?_of_branch h j

/-- The rounds that grouping is given are enough. -/
theorem rounds_le (hT : t.idTerm? Tree.root = some T) :
    16 * (Term.labelsList T.children).length + 1 ≤ roundsFor t := by
  have hspread := Tree.spread_of_expand? hT
  rw [roundsFor, hspread]
  cases T with
  | leaf a =>
      change 1 ≤ 16 * 1
      decide
  | branch a items =>
      change 16 * (Term.labelsList items).length + 1 ≤ 16 * ((Term.labelsList items).length + 1)
      omega

/-- The site of the machine before the first child of the root. -/
def rootSite (origin : ExprTree) : Site := ⟨origin, [], none, fun _ => 0⟩

theorem root_leads {origin : ExprTree} (hT : t.idTerm? Tree.root = some T) (hplain : Plain T)
    (horigin : origin.get? Tree.root = some ((rootSetting t origin).label.over [])) :
    Leads t limit (16 * (Term.labelsList T.children).length + 1) (rootSite origin)
      ((Bench.takeAll limit 0 0 .clear T.children).map Bench.finish)
      (Done t (rootSetting t origin)) := by
  rcases Tree.shows_of_expand? hT with ⟨hshows, hroot⟩
  have hnodes := childAt?_root hshows hroot
  have hstart : Rested t limit (rootSetting t origin) 0 .clear (rootSite origin) := by
    refine ⟨rfl, .inl rfl, [], none, ?_⟩
    exact {
      frames := rfl
      index := (Function.update_eq_self _ _).symm
      length := rfl
      depth_le := Nat.zero_le _
      fresh := fun g hg => nomatch hg
      grows := .start horigin rfl
      trails := .nothing }
  -- The children of the root show their terms, and the root is none of the nodes below.
  have hchildren : ∀ X ∈ T.children, t.Shows (fun _ => True) X ∧
      (∀ c ∈ X.labels, c ∈ T.labels ∧ c.1 ≠ Tree.root) := by
    intro X hX
    cases T with
    | leaf a => cases hX
    | branch a items =>
        refine ⟨(Tree.shows_branch.1 hshows).2.2 X hX, fun c hc => ?_⟩
        exact ⟨Term.mem_labels_of_mem hX hc, hroot ▸ hshows.ne_of_mem_labels hX hc⟩
  have hleads := takeAll_leads (fun X hX => follows_of_shows limit (hchildren X hX).1
    fun c hc => hplain c ((hchildren X hX).2 c hc).1) hstart (rootSetting_valid t origin) ?_ ?_
  · refine hleads.map fun b s h => finish_leads ?_ h
    rw [hnodes, Nat.zero_add, List.getElem?_eq_none (Nat.le_refl _)]
    rfl
  · intro j X hX
    change t.childAt? Tree.root (0 + j) = _
    rw [Nat.zero_add, hnodes, hX]
    rfl
  · exact fun X hX c hc => ⟨((hchildren X hX).2 c hc).2, rfl⟩

/-- The machine before the first child of the root. -/
def firstState (t : SyntaxTree) (limits : Limits) : TreeMachine :=
  ((Grouper.new t limits).updateRoot fun n => { n with position := t.rootNode.position }).machine

theorem group_eq_run (t : SyntaxTree) (limits : Limits) :
    group t limits =
      match (firstState t limits).run Piece.grammar t .expression (roundsFor t) with
      | (.success _, m) => .success m.tree
      | (.failure e, _) => .failure e
      | (.unfinished, _) => .unfinished := by
  unfold group Rebuilder.rebuild firstState
  simp only [Grouper.new, Rebuilder.new, Rebuilder.updateRoot]
  generalize Machine.run _ _ _ _ _ = r
  rcases r with ⟨outcome, m⟩
  cases outcome <;> rfl

theorem rests_firstState (t : SyntaxTree) (limits : Limits) :
    Rests limits.maxDepth (firstState t limits) (rootSite (firstState t limits).tree) := by
  refine ⟨rfl, rfl, rfl, rfl, fun id => ?_⟩
  change (Cursors.empty.set Tree.root 0).index id = 0
  rw [Cursors.index_set]
  split <;> rfl

/-- What grouping makes of a flat tree: the terms of the bench, or its error. -/
theorem group_eq (limits : Limits) (hT : t.idTerm? Tree.root = some T) (hplain : Plain T) :
    match (Bench.takeAll limits.maxDepth 0 0 .clear T.children).map Bench.finish with
    | .ok items => ∃ out, group t limits = .success out ∧
        out.term? Tree.root = some (.branch ⟨.calculator, none, T.label.2.position⟩ items)
    | .error e => group t limits = .failure e := by
  rcases Tree.shows_of_expand? hT with ⟨hshows, hroot⟩
  rcases root_leads hT hplain rfl _ (rests_firstState t limits) with ⟨k, hk, m, hrun⟩
  -- The rounds that are left over change nothing.
  obtain ⟨more, hmore⟩ := Nat.exists_eq_add_of_le (Nat.le_trans hk (rounds_le hT))
  rw [group_eq_run, hmore]
  cases hitems : (Bench.takeAll limits.maxDepth 0 0 .clear T.children).map Bench.finish with
  | error e =>
      rw [hitems] at hrun
      have hfailure := hrun more
      simp only [hfailure]
  | ok items =>
      rw [hitems] at hrun
      rcases hrun with ⟨⟨s, hrests, hdone⟩, hrun⟩
      have hfinished : m.isFinished t = true := by
        have hinput : s.input = Tree.root := by
          rw [Site.input, hdone.frames]
          rfl
        have hframes : m.stack.frames = [] :=
          List.map_eq_nil_iff.1 (hrests.frames.trans hdone.frames)
        rw [Machine.isFinished, hrests.node?, hinput, hdone.ended, Stack.isEmpty_of_nil hframes]
        rfl
      refine ⟨m.tree, ?_, ?_⟩
      · rw [hrun more, Machine.run_of_finished hfinished]
      · rw [hrests.tree, position_rootNode hshows hroot]
        exact hdone.grows.term?

end Root

end Calculator
end FeatureTree
