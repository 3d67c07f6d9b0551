import FeatureTree.Proofs.Calculator.GroupArena

/-!
# Places — groups that stay where they were opened

Opening a group moves the last child of a node into a new group.  If that child is a group itself, it
ends up in a group that binds at least as tightly, and nothing that happens later takes it out of there:
it can only be moved on, into a group that binds more tightly still.  So a group that was moved once is
*misplaced* in the final tree.

`group_stays` turns this round: where the final tree has no misplaced group, every group is, from the
round in which it is opened, in one and the same child list.
-/

namespace FeatureTree
namespace Calculator

open Rebuilding

/-! ## Labels in the arena -/

/-- The kind and the value of a node. -/
def headOf (t : ExprTree) (id : NodeId) : Option (ExprKind × Option Literal) :=
  (t.get? id).map fun n => (n.kind, n.value)

/-- The level that a kind and a value stand for. -/
def headLevel : Option (ExprKind × Option Literal) → Level
  | some (.group, some (.level l)) => l
  | _ => .additive

/-- The node is a group. -/
def HoldsGroup (t : ExprTree) (id : NodeId) : Prop := (t.get? id).map Node.kind = some .group

/-- How tightly the operators of a node bind. -/
def tightness (t : ExprTree) (id : NodeId) : Nat := (Piece.outputLevel t id).rank

variable {t t' : ExprTree} {id output parent p g : NodeId} {level : Level}
variable {node : Node ExprKind Literal}

theorem holdsGroup_congr (h : headOf t' id = headOf t id) : HoldsGroup t' id ↔ HoldsGroup t id := by
  have hkind : ∀ u : ExprTree, (u.get? id).map Node.kind = (headOf u id).map Prod.fst := by
    intro u
    unfold headOf
    cases u.get? id <;> rfl
  rw [HoldsGroup, HoldsGroup, hkind, hkind, h]

theorem outputLevel_eq_headLevel (t : ExprTree) (id : NodeId) :
    Piece.outputLevel t id = headLevel (headOf t id) := by
  unfold Piece.outputLevel headOf
  rcases t.get? id with _ | ⟨kind, value, position, children⟩
  · rfl
  · rcases kind <;> rcases value with _ | (_ | _ | _ | _) <;> rfl

theorem tightness_congr (h : headOf t' id = headOf t id) : tightness t' id = tightness t id := by
  rw [tightness, tightness, outputLevel_eq_headLevel, outputLevel_eq_headLevel, h]

theorem lt_size_of_holdsGroup (h : HoldsGroup t id) : id < t.size := by
  rcases Option.map_eq_some_iff.1 h with ⟨n, hget, -⟩
  exact Tree.lt_size_of_get? hget

theorem lt_size_of_mem_children (h : g ∈ t.children p) : p < t.size := by
  rcases Tree.exists_get?_of_mem h with ⟨n, hget, -⟩
  exact Tree.lt_size_of_get? hget

/-! ### After a change -/

theorem headOf_update {f : Node ExprKind Literal → Node ExprKind Literal}
    (hf : ∀ n, (f n).kind = n.kind ∧ (f n).value = n.value) (t : ExprTree) (id other : NodeId) :
    headOf (t.update id f) other = headOf t other := by
  unfold headOf
  rw [Tree.get?_update]
  split
  · cases t.get? other with
    | none => rfl
    | some n => simp [(hf n).1, (hf n).2]
  · rfl

theorem headOf_attach (t : ExprTree) (parent child id : NodeId) :
    headOf (t.attach parent child) id = headOf t id := by
  apply headOf_update
  rintro ⟨kind, value, position, _ | ids⟩ <;> exact ⟨rfl, rfl⟩

theorem headOf_popChild (t : ExprTree) (parent id : NodeId) :
    headOf (t.popChild parent) id = headOf t id := by
  apply headOf_update
  rintro ⟨kind, value, position, _ | ids⟩ <;> exact ⟨rfl, rfl⟩

theorem headOf_append (t : ExprTree) (parent : NodeId) (node : Node ExprKind Literal) (id : NodeId) :
    headOf (t.append parent node) id =
      if id = t.size then some (node.kind, node.value) else headOf t id := by
  rw [Tree.append, headOf_attach, headOf, Tree.get?_create]
  split <;> rfl

theorem headOf_append_of_lt (h : id < t.size) :
    headOf (t.append parent node) id = headOf t id := by
  rw [headOf_append, if_neg (Nat.ne_of_lt h)]

theorem headOf_opened (t : ExprTree) (output : NodeId) (level : Level) (id : NodeId) :
    headOf (Site.opened t output level) id =
      if id = t.size then some (.group, some (.level level)) else headOf t id := by
  have hsize : (t.popChild output).size = t.size := Tree.size_update t output _
  have happend : headOf ((t.popChild output).append output
      ⟨.group, some (.level level), none, some #[]⟩) id =
        if id = t.size then some (.group, some (.level level)) else headOf t id := by
    rw [headOf_append, hsize, headOf_popChild]
  unfold Site.opened
  cases t.lastChild? output with
  | none => exact happend
  | some operand => exact (headOf_attach _ _ _ _).trans happend

theorem headOf_opened_of_lt (h : id < t.size) :
    headOf (Site.opened t output level) id = headOf t id := by
  rw [headOf_opened, if_neg (Nat.ne_of_lt h)]

theorem headOf_spanned (t : ExprTree) (group id : NodeId) :
    headOf (Site.spanned t group) id = headOf t id := by
  unfold Site.spanned
  dsimp only
  split
  · next position _ =>
      have hf : ∀ n : Node ExprKind Literal,
          ({ n with position := some position } : Node ExprKind Literal).kind = n.kind ∧
            ({ n with position := some position } : Node ExprKind Literal).value = n.value :=
        fun _ => ⟨rfl, rfl⟩
      exact headOf_update hf t group id
  · rfl

theorem children_spanned (t : ExprTree) (group id : NodeId) :
    (Site.spanned t group).children id = t.children id := by
  unfold Site.spanned
  dsimp only
  split
  · next position _ =>
      have hf : ∀ n : Node ExprKind Literal,
          ({ n with position := some position } : Node ExprKind Literal).childList = n.childList :=
        fun _ => rfl
      exact Tree.children_update hf t group id
  · rfl

/-- Who is whose child after a group has been opened. -/
theorem mem_children_opened (houtput : output < t.size) :
    g ∈ (Site.opened t output level).children p ↔
      p = t.size ∧ t.lastChild? output = some g ∨
        p = output ∧ (g ∈ (t.children output).dropLast ∨ g = t.size) ∨
          p ≠ output ∧ g ∈ t.children p := by
  have hfresh : t.children t.size = [] :=
    Tree.children_eq_nil (Array.getElem?_eq_none (Nat.le_refl _))
  have hne : output ≠ t.size := Nat.ne_of_lt houtput
  have hnode : (⟨.group, some (.level level), none, some #[]⟩ : Node ExprKind Literal).childList =
      [] := rfl
  unfold Site.opened
  cases hlast : t.lastChild? output with
  | none =>
      have hsize : (t.popChild output).size = t.size := Tree.size_update t output _
      have hnone : t.children output = [] := by
        rw [Tree.lastChild?_eq_getLast?, List.getLast?_eq_none_iff] at hlast
        exact hlast
      rw [Tree.mem_children_append (hsize ▸ houtput) hnode, Tree.popChild_eq_self hlast, hsize]
      by_cases hp : p = output
      · subst hp
        simp [hnone]
      · simp [hp]
  | some operand =>
      dsimp only
      rw [Tree.children_enclose houtput hnode]
      by_cases hnew : p = t.size
      · subst hnew
        simp [hfresh, hne.symm, eq_comm]
      · by_cases hp : p = output
        · subst hp
          simp [Ne.symm hnew, hnew]
        · simp [Ne.symm hnew, hnew, hp, Ne.symm hp]

/-- A child that is not the last one of its parent keeps its place. -/
theorem mem_dropLast_of_ne (hg : g ∈ t.children output) (hlast : t.lastChild? output ≠ some g) :
    g ∈ (t.children output).dropLast := by
  rw [Tree.lastChild?_eq_getLast?] at hlast
  rcases List.eq_nil_or_concat (t.children output) with hnil | ⟨front, last, hconcat⟩
  · rw [hnil] at hg
    cases hg
  · rw [List.concat_eq_append] at hconcat
    rw [hconcat] at hg hlast ⊢
    rw [List.dropLast_concat]
    rcases List.mem_append.1 hg with hfront | heq
    · exact hfront
    · refine absurd ?_ hlast
      rw [List.getLast?_concat, List.mem_singleton.1 heq]

/-- A child that the new group does not take stays where it is. -/
theorem mem_children_opened_of_stays (houtput : output < t.size) (hg : g ∈ t.children p)
    (hstays : ¬ (p = output ∧ t.lastChild? output = some g)) :
    g ∈ (Site.opened t output level).children p := by
  apply (mem_children_opened houtput).2
  by_cases heq : p = output
  · subst heq
    exact .inr (.inl ⟨rfl, .inl (mem_dropLast_of_ne hg fun hlast => hstays ⟨rfl, hlast⟩)⟩)
  · exact .inr (.inr ⟨heq, hg⟩)

/-! ## Steps -/

/-- No group binds more than one level more tightly than the node that it hangs in. -/
structure Stepped (t : ExprTree) : Prop where
  rooted : t.Rooted
  step : ∀ p, ∀ g ∈ t.children p, HoldsGroup t g → tightness t g ≤ tightness t p + 1

namespace Stepped

theorem child_lt (h : Stepped t) (hg : g ∈ t.children p) : g < t.size :=
  ((h.rooted.listed g).1 (Tree.mem_links.2 ⟨p, hg⟩)).2

theorem lastChild_mem (hlast : t.lastChild? output = some g) : g ∈ t.children output := by
  rw [Tree.lastChild?_eq_getLast?] at hlast
  exact List.mem_of_getLast? hlast

end Stepped

theorem rank_of_tighter? {level level' : Level} (h : level.tighter? = some level') :
    level'.rank = level.rank + 1 := by
  cases level <;> cases h <;> rfl

/-- The new group binds one level more tightly than the node that it is opened in. -/
theorem tightness_opened (h : (Piece.outputLevel t output).tighter? = some level) :
    tightness (Site.opened t output level) t.size = tightness t output + 1 := by
  have hhead : headOf (Site.opened t output level) t.size = some (.group, some (.level level)) := by
    rw [headOf_opened, if_pos rfl]
  have hlevel : Piece.outputLevel (Site.opened t output level) t.size = level := by
    rcases Option.map_eq_some_iff.1 hhead with ⟨⟨kind, value, position, children⟩, hget, heq⟩
    obtain ⟨rfl, rfl⟩ := Prod.mk.inj heq
    rw [Piece.outputLevel, hget]
  rw [tightness, hlevel, tightness, rank_of_tighter? h]

theorem holdsGroup_opened (t : ExprTree) (output : NodeId) (level : Level) :
    HoldsGroup (Site.opened t output level) t.size := by
  have hhead : headOf (Site.opened t output level) t.size = some (.group, some (.level level)) := by
    rw [headOf_opened, if_pos rfl]
  rcases Option.map_eq_some_iff.1 hhead with ⟨n, hget, heq⟩
  rw [HoldsGroup, hget]
  exact congrArg some (Prod.mk.inj heq).1

theorem not_holdsGroup_append (hkind : node.kind ≠ .group) :
    ¬ HoldsGroup (t.append parent node) t.size := by
  intro hgroup
  have hhead : headOf (t.append parent node) t.size = some (node.kind, node.value) := by
    rw [headOf_append, if_pos rfl]
  rcases Option.map_eq_some_iff.1 hhead with ⟨n, hget, heq⟩
  rw [HoldsGroup, hget] at hgroup
  exact hkind ((Prod.mk.inj heq).1.symm.trans (Option.some.inj hgroup))

theorem maintained_stepped : Piece.Maintained Stepped where
  append := by
    intro t parent node h hparent hnode hkind
    refine ⟨Piece.maintained_rooted.append h.rooted hparent hnode hkind, ?_⟩
    intro p g hg hgroup
    rcases (Tree.mem_children_append hparent hnode).1 hg with hold | ⟨rfl, rfl⟩
    · have hg' := h.child_lt hold
      rw [tightness_congr (headOf_append_of_lt hg'),
        tightness_congr (headOf_append_of_lt (lt_size_of_mem_children hold))]
      exact h.step p g hold ((holdsGroup_congr (headOf_append_of_lt hg')).1 hgroup)
    · exact absurd hgroup (not_holdsGroup_append hkind)
  opened := by
    intro t output level h houtput htighter
    refine ⟨Piece.maintained_rooted.opened h.rooted houtput htighter, ?_⟩
    have hnew := tightness_opened htighter
    have houtput' : tightness (Site.opened t output level) output = tightness t output :=
      tightness_congr (headOf_opened_of_lt houtput)
    -- Who was a child before is a child of the same node, or of the new group.
    have hold : ∀ q, ∀ g ∈ t.children q, HoldsGroup (Site.opened t output level) g →
        tightness (Site.opened t output level) g ≤ tightness t q + 1 := by
      intro q g hg hgroup
      have hg' := h.child_lt hg
      rw [tightness_congr (headOf_opened_of_lt hg')]
      exact h.step q g hg ((holdsGroup_congr (headOf_opened_of_lt hg')).1 hgroup)
    intro p g hg hgroup
    rcases (mem_children_opened houtput).1 hg with ⟨rfl, hlast⟩ | ⟨rfl, hfront | rfl⟩ | ⟨-, hother⟩
    · have hmoved := hold output g (Stepped.lastChild_mem hlast) hgroup
      omega
    · have hkept := hold p g (List.mem_of_mem_dropLast hfront) hgroup
      omega
    · omega
    · rw [tightness_congr (headOf_opened_of_lt (lt_size_of_mem_children hother))]
      exact hold p g hother hgroup
  spanned := by
    intro t group h
    refine ⟨Piece.maintained_rooted.spanned group h.rooted, ?_⟩
    intro p g hg hgroup
    rw [children_spanned] at hg
    rw [tightness_congr (headOf_spanned t group g), tightness_congr (headOf_spanned t group p)]
    exact h.step p g hg ((holdsGroup_congr (headOf_spanned t group g)).1 hgroup)

/-! ## Misplaced groups -/

/-- Some group lies in a group that binds at least as tightly. -/
def Misplaced (t : ExprTree) : Prop :=
  ∃ p, ∃ g ∈ t.children p, HoldsGroup t p ∧ HoldsGroup t g ∧ tightness t g ≤ tightness t p

theorem Misplaced.append (h : Misplaced t) (hparent : parent < t.size) (hnode : node.childList = []) :
    Misplaced (t.append parent node) := by
  rcases h with ⟨p, g, hg, hp, hgroup, hle⟩
  have hp' : headOf (t.append parent node) p = headOf t p :=
    headOf_append_of_lt (lt_size_of_holdsGroup hp)
  have hg' : headOf (t.append parent node) g = headOf t g :=
    headOf_append_of_lt (lt_size_of_holdsGroup hgroup)
  refine ⟨p, g, (Tree.mem_children_append hparent hnode).2 (.inl hg), (holdsGroup_congr hp').2 hp,
    (holdsGroup_congr hg').2 hgroup, ?_⟩
  rw [tightness_congr hp', tightness_congr hg']
  exact hle

/-- A group that the new group takes is misplaced there, unless it binds more tightly still. -/
theorem misplaced_opened (houtput : output < t.size)
    (htighter : (Piece.outputLevel t output).tighter? = some level)
    (hlast : t.lastChild? output = some g) (hgroup : HoldsGroup t g)
    (hle : tightness t g ≤ tightness t output + 1) : Misplaced (Site.opened t output level) := by
  have hg' : headOf (Site.opened t output level) g = headOf t g :=
    headOf_opened_of_lt (lt_size_of_holdsGroup hgroup)
  refine ⟨t.size, g, (mem_children_opened houtput).2 (.inl ⟨rfl, hlast⟩),
    holdsGroup_opened t output level, (holdsGroup_congr hg').2 hgroup, ?_⟩
  rw [tightness_opened htighter, tightness_congr hg']
  exact hle

/-- A misplaced group stays misplaced, also if it is moved on into a tighter group. -/
theorem Misplaced.opened (h : Misplaced t) (houtput : output < t.size)
    (htighter : (Piece.outputLevel t output).tighter? = some level) :
    Misplaced (Site.opened t output level) := by
  rcases h with ⟨p, g, hg, hp, hgroup, hle⟩
  have hp' : headOf (Site.opened t output level) p = headOf t p :=
    headOf_opened_of_lt (lt_size_of_holdsGroup hp)
  have hg' : headOf (Site.opened t output level) g = headOf t g :=
    headOf_opened_of_lt (lt_size_of_holdsGroup hgroup)
  by_cases hmoved : p = output ∧ t.lastChild? output = some g
  · rcases hmoved with ⟨rfl, hlast⟩
    exact misplaced_opened houtput htighter hlast hgroup (Nat.le_succ_of_le hle)
  · have hkept : g ∈ (Site.opened t output level).children p :=
      mem_children_opened_of_stays houtput hg hmoved
    refine ⟨p, g, hkept, (holdsGroup_congr hp').2 hp, (holdsGroup_congr hg').2 hgroup, ?_⟩
    rw [tightness_congr hp', tightness_congr hg']
    exact hle

theorem Misplaced.spanned (h : Misplaced t) (group : NodeId) : Misplaced (Site.spanned t group) := by
  rcases h with ⟨p, g, hg, hp, hgroup, hle⟩
  have hp' := headOf_spanned t group p
  have hg' := headOf_spanned t group g
  refine ⟨p, g, (children_spanned t group p).symm ▸ hg, (holdsGroup_congr hp').2 hp,
    (holdsGroup_congr hg').2 hgroup, ?_⟩
  rw [tightness_congr hp', tightness_congr hg']
  exact hle

theorem maintained_misplaced : Piece.Maintained fun t => Misplaced t where
  append h hparent hnode _ := h.append hparent hnode
  opened h houtput htighter := h.opened houtput htighter
  spanned group h := h.spanned group

/-! ## Groups that stay -/

/-- Every group that hangs in a child list of the one tree hangs in the same list of the other. -/
def Stays (t t' : ExprTree) : Prop :=
  ∀ p, ∀ g ∈ t.children p, HoldsGroup t g → g ∈ t'.children p

/-- What a tree becomes from a state of the run on: groups stay, unless one is moved, and then it is
misplaced. -/
structure ComesFrom (origin t : ExprTree) : Prop extends Stepped t where
  heads : ∀ id < origin.size, headOf t id = headOf origin id
  size_le : origin.size ≤ t.size
  stays : Misplaced t ∨ Stays origin t

theorem Stepped.comesFrom (h : Stepped t) : ComesFrom t t :=
  ⟨h, fun _ _ => rfl, Nat.le_refl _, .inr fun _ _ hg _ => hg⟩

section ComesFrom

variable {origin : ExprTree}

theorem ComesFrom.append (h : ComesFrom origin t) (hparent : parent < t.size)
    (hnode : node.childList = []) (hkind : node.kind ≠ .group) :
    ComesFrom origin (t.append parent node) where
  toStepped := maintained_stepped.append h.toStepped hparent hnode hkind
  heads := by
    intro id hid
    rw [headOf_append_of_lt (Nat.lt_of_lt_of_le hid h.size_le)]
    exact h.heads id hid
  size_le := by
    rw [Tree.size_append]
    exact Nat.le_succ_of_le h.size_le
  stays := by
    refine h.stays.imp (fun hmis => hmis.append hparent hnode) fun hstays p g hg hgroup => ?_
    exact (Tree.mem_children_append hparent hnode).2 (.inl (hstays p g hg hgroup))

theorem ComesFrom.opened (h : ComesFrom origin t) (houtput : output < t.size)
    (htighter : (Piece.outputLevel t output).tighter? = some level) :
    ComesFrom origin (Site.opened t output level) where
  toStepped := maintained_stepped.opened h.toStepped houtput htighter
  heads := by
    intro id hid
    rw [headOf_opened_of_lt (Nat.lt_of_lt_of_le hid h.size_le)]
    exact h.heads id hid
  size_le := by
    rw [size_opened]
    exact Nat.le_succ_of_le h.size_le
  stays := by
    rcases h.stays with hmis | hstays
    · exact .inl (hmis.opened houtput htighter)
    · by_cases hmoved : ∃ g, t.lastChild? output = some g ∧ HoldsGroup t g
      · -- The operand is a group: it binds at most as tightly as the new group that takes it.
        rcases hmoved with ⟨g, hlast, hgroup⟩
        have hle := h.step output g (Stepped.lastChild_mem hlast) hgroup
        exact .inl (misplaced_opened houtput htighter hlast hgroup hle)
      · refine .inr fun p g hg hgroup => ?_
        have hgroup' : HoldsGroup t g :=
          (holdsGroup_congr (h.heads g (lt_size_of_holdsGroup hgroup))).2 hgroup
        exact mem_children_opened_of_stays houtput (hstays p g hg hgroup) fun htaken =>
          hmoved ⟨g, htaken.2, hgroup'⟩

theorem ComesFrom.spanned (h : ComesFrom origin t) (group : NodeId) :
    ComesFrom origin (Site.spanned t group) where
  toStepped := maintained_stepped.spanned group h.toStepped
  heads := by
    intro id hid
    rw [headOf_spanned]
    exact h.heads id hid
  size_le := by
    rw [size_spanned]
    exact h.size_le
  stays := by
    refine h.stays.imp (fun hmis => hmis.spanned group) fun hstays p g hg hgroup => ?_
    rw [children_spanned]
    exact hstays p g hg hgroup

theorem maintained_comesFrom (origin : ExprTree) : Piece.Maintained (ComesFrom origin) where
  append h hparent hnode hkind := h.append hparent hnode hkind
  opened h houtput htighter := h.opened houtput htighter
  spanned group h := h.spanned group

end ComesFrom

/-! ## The rounds of a run -/

theorem upheld_stepped (t : SyntaxTree) (limits : Limits) :
    Machine.Upheld Stepped Piece.Valid (firstState t limits) := by
  rw [firstState_eq_initial]
  apply Machine.upheld_initial
  refine ⟨Tree.Rooted.singleton rfl, fun p g hg => ?_⟩
  have hmem : g ∈ (Tree.singleton _).links := Tree.mem_links.2 ⟨p, hg⟩
  simp [Tree.links, Tree.singleton, Node.childList, Node.childArray, Node.parent] at hmem

/-- Another property of the tree, in a state in which frames and candidates are valid. -/
theorem Upheld.withTree {P Q : ExprTree → Prop} {m : TreeMachine}
    (h : Machine.Upheld P Piece.Valid m) (hQ : Q m.tree) : Machine.Upheld Q Piece.Valid m :=
  ⟨hQ, h.frames, h.waiting⟩

/-- If no group of the final tree is misplaced, then groups stay in their child lists from any round to
any later one. -/
theorem group_stays {source : SyntaxTree} {limits : Limits} {out : ExprTree}
    (h : group source limits = .success out) (hout : ¬ Misplaced out) (n k : Nat) :
    Stays (groupTree source limits n) (groupTree source limits (n + k)) := by
  obtain ⟨last, hrun, rfl⟩ : ∃ last : TreeMachine, Machine.run Piece.grammar source .expression
      (roundsFor source) (firstState source limits) = (.success (), last) ∧ last.tree = out := by
    rw [group_eq_run] at h
    split at h
    · next last hrun => exact ⟨last, hrun, Outcome.success.inj h⟩
    · cases h
    · cases h
  rw [groupTree_eq, groupTree_eq, Machine.run_add]
  rcases Machine.run_prefix hrun n with hdone | ⟨between, more, hcut, hmore⟩
  · rw [hdone]
    exact fun _ _ hg _ => hg
  · rw [hcut]
    have hstepped : Machine.Upheld Stepped Piece.Valid between :=
      (upheld_stepped source limits).cutOff (Piece.upholds maintained_stepped) hcut
    have hfrom : Machine.Upheld (ComesFrom between.tree) Piece.Valid between :=
      Upheld.withTree hstepped hstepped.tree.comesFrom
    have hlater := (hfrom.run (Piece.upholds (maintained_comesFrom between.tree)) source
      .expression k).1
    -- A misplaced group would be misplaced in the final tree as well.
    refine hlater.stays.resolve_left fun hmis => hout ?_
    rcases Machine.run_prefix hmore k with hdone | ⟨between', more', hcut', hmore'⟩
    · rw [hdone] at hmis
      exact hmis
    · rw [hcut'] at hmis
      have hstepped' := hstepped.cutOff (Piece.upholds maintained_stepped) hcut'
      have hupheld := Upheld.withTree hstepped' hmis
      have hfinal := (hupheld.run (Piece.upholds maintained_misplaced) source .expression more').1
      rw [hmore'] at hfinal
      exact hfinal

end Calculator
end FeatureTree
