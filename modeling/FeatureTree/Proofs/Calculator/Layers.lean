import FeatureTree.Proofs.Calculator.Faults
import FeatureTree.Proofs.Calculator.Places
import FeatureTree.Proofs.Tree.Nesting

/-!
# Layers — how groups lie inside of each other

Grouping takes any sequence of operators and operands, well-formed or not.  Still the groups of its
output nest in one way only: a multiplicative group lies directly in the calculator, in a bracket or in a
function, and an exponent group lies directly in a multiplicative one.  Each group holds something of its
own level, and only its first member may be an operator of another level.

While a child list is rebuilt, each list on the bench is the list of one level.  A group that is opened
takes over the last term, which is never a group: a group that has just been closed is followed by an
operator before the next group opens.

`groups_layered` says this of whole trees, and that a group stays in the child list in which it was
opened, from one round of the machine to every later one.
-/

namespace FeatureTree
namespace Calculator

open Rebuilding

/-! ## Layered trees -/

/-- A group of the given level. -/
def IsGroup (level : Level) (a : Label ExprKind Literal) : Prop :=
  a.kind = .group ∧ a.value = some (.level level)

/-- An operator of the given level. -/
def IsOperator (level : Level) (a : Label ExprKind Literal) : Prop :=
  a.kind = .operator ∧ ∃ op : Operator, a.value = some (.operator op) ∧ op.level = level

/-- What holds at each node of an expression tree, of its label and its children. -/
structure Layered (a : Label ExprKind Literal) (ts : List ExprTerm) : Prop where
  /-- No group is additive, or without a level. -/
  level : a.kind = .group → IsGroup .multiplicative a ∨ IsGroup .exponent a
  multiplicative : ∀ T ∈ ts, IsGroup .multiplicative T.label →
    a.kind = .calculator ∨ a.kind = .bracket ∨ a.kind = .function
  exponent : ∀ T ∈ ts, IsGroup .exponent T.label → IsGroup .multiplicative a
  /-- Outside of groups there are signs of sums only. -/
  outside : a.kind ≠ .group → ∀ T ∈ ts, T.label.kind = .operator →
    T.label.value = some (.operator .add) ∨ T.label.value = some (.operator .sub)
  /-- Behind its first member a group has operators of its own level only. -/
  behind : ∀ level, IsGroup level a → ∀ T ∈ ts.tail, T.label.kind = .operator →
    IsOperator level T.label
  /-- A group was opened for an operator of its own level, or for one that binds more tightly. -/
  owns : ∀ level, IsGroup level a → (∃ T ∈ ts, IsOperator level T.label) ∨
    level = .multiplicative ∧ ∃ T ∈ ts, IsGroup .exponent T.label

theorem IsGroup.level_eq {level level' : Level} {a : Label ExprKind Literal} (h : IsGroup level a)
    (h' : IsGroup level' a) : level = level' := by
  have hvalue : some (Literal.level level) = some (.level level') := h.2.symm.trans h'.2
  simpa using hvalue

/-- The operators of the weakest level. -/
theorem Operator.of_level_additive {op : Operator} (h : op.level = .additive) :
    op = .add ∨ op = .sub := by
  cases op with
  | add => exact .inl rfl
  | sub => exact .inr rfl
  | mul => cases h
  | div => cases h
  | pow => cases h

/-! ## Child lists inside of open groups -/

/-- A child list inside a number of open groups. -/
structure Layer (depth : Nat) (ts : List ExprTerm) : Prop where
  every : ∀ T ∈ ts, T.Every Layered
  groups : ∀ T ∈ ts, T.label.kind = .group → depth < 2 ∧ IsGroup (.ofDepth (depth + 1)) T.label
  outside : depth = 0 → ∀ T ∈ ts, T.label.kind = .operator → IsOperator .additive T.label
  behind : ∀ T ∈ ts.tail, T.label.kind = .operator → IsOperator (.ofDepth depth) T.label

/-- A child list that holds something of its own level, or a group. -/
def Owns (depth : Nat) (ts : List ExprTerm) : Prop :=
  (∃ T ∈ ts, IsOperator (.ofDepth depth) T.label) ∨
    depth = 1 ∧ ∃ T ∈ ts, IsGroup .exponent T.label

/-- The last term, if there is one, is no group. -/
def Loose (ts : List ExprTerm) : Prop := ∀ T, ts.getLast? = some T → T.label.kind ≠ .group

variable {depth : Nat} {ts : List ExprTerm} {T : ExprTerm}

namespace Layer

theorem nil (depth : Nat) : Layer depth [] :=
  ⟨fun _ hT => (nomatch hT), fun _ hT => (nomatch hT), fun _ _ hT => (nomatch hT),
    fun _ hT => (nomatch hT)⟩

/-- A term that fits into the list is added at its end. -/
theorem append (h : Layer depth ts) (hT : T.Every Layered)
    (hgroup : T.label.kind = .group → depth < 2 ∧ IsGroup (.ofDepth (depth + 1)) T.label)
    (hoperator : T.label.kind = .operator → IsOperator (.ofDepth depth) T.label) :
    Layer depth (ts ++ [T]) := by
  have hmem : ∀ S ∈ ts ++ [T], S ∈ ts ∨ S = T := by
    intro S hS
    simpa using hS
  refine ⟨?_, ?_, ?_, ?_⟩
  · intro S hS
    rcases hmem S hS with hold | rfl
    · exact h.every S hold
    · exact hT
  · intro S hS hkind
    rcases hmem S hS with hold | rfl
    · exact h.groups S hold hkind
    · exact hgroup hkind
  · intro hzero S hS hkind
    rcases hmem S hS with hold | rfl
    · exact h.outside hzero S hold hkind
    · simpa [hzero, Level.ofDepth] using hoperator hkind
  · -- The new term is the first of the list, or it comes behind the others.
    intro S hS hkind
    rcases ts with _ | ⟨first, rest⟩
    · cases hS
    · rcases List.mem_append.1 hS with hold | hnew
      · exact h.behind S hold hkind
      · obtain rfl := List.mem_singleton.1 hnew
        exact hoperator hkind

theorem dropLast (h : Layer depth ts) : Layer depth ts.dropLast := by
  have hmem : ∀ S ∈ ts.dropLast, S ∈ ts := fun S hS => List.mem_of_mem_dropLast hS
  refine ⟨fun S hS => h.every S (hmem S hS), fun S hS => h.groups S (hmem S hS),
    fun hzero S hS => h.outside hzero S (hmem S hS), fun S hS => h.behind S ?_⟩
  rw [List.tail_dropLast] at hS
  exact List.mem_of_mem_dropLast hS

/-- A group opens with the last term of the list around it. -/
theorem getLast (h : Layer depth ts) (hloose : Loose ts) (inside : Nat) (hinside : inside ≠ 0) :
    Layer inside ts.getLast?.toList := by
  have hmem : ∀ S ∈ ts.getLast?.toList, ts.getLast? = some S := by
    intro S hS
    simpa using hS
  refine ⟨?_, ?_, ?_, ?_⟩
  · intro S hS
    exact h.every S (List.mem_of_getLast? (hmem S hS))
  · intro S hS hkind
    exact absurd hkind (hloose S (hmem S hS))
  · intro hzero
    exact absurd hzero hinside
  · intro S hS
    cases hlast : ts.getLast? with
    | none => simp [hlast] at hS
    | some first => simp [hlast] at hS

/-- The members of a group that closes. -/
theorem layered_group (h : Layer depth ts) (hdepth : depth = 1 ∨ depth = 2) (howns : Owns depth ts) :
    Layered (groupLabel depth ts) ts := by
  have hgroup : IsGroup (.ofDepth depth) (groupLabel depth ts) := ⟨rfl, rfl⟩
  refine ⟨?_, ?_, ?_, ?_, ?_, ?_⟩
  · intro _
    rcases hdepth with rfl | rfl
    · exact .inl hgroup
    · exact .inr hgroup
  · -- A group in a group binds more tightly than a multiplicative one.
    intro S hS hS'
    rcases h.groups S hS hS'.1 with ⟨hlt, hlevel⟩
    have hone : depth = 1 := by omega
    subst hone
    cases hlevel.level_eq hS'
  · intro S hS hS'
    have hone : depth = 1 := by
      have hlt := (h.groups S hS hS'.1).1
      omega
    subst hone
    exact hgroup
  · intro hkind
    exact absurd rfl hkind
  · intro level hlevel S hS hkind
    exact hgroup.level_eq hlevel ▸ h.behind S hS hkind
  · intro level hlevel
    obtain rfl := hgroup.level_eq hlevel
    rcases howns with hown | ⟨rfl, htight⟩
    · exact .inl hown
    · exact .inr ⟨rfl, htight⟩

/-- The children of a node that is no group. -/
theorem layered_outside {a : Label ExprKind Literal} (h : Layer 0 ts)
    (ha : a.kind = .calculator ∨ a.kind = .bracket ∨ a.kind = .function) : Layered a ts := by
  have hkind : a.kind ≠ .group := by
    intro heq
    simp [heq] at ha
  refine ⟨fun heq => absurd heq hkind, fun _ _ _ => ha, ?_, ?_, fun _ hlevel => absurd hlevel.1 hkind,
    fun _ hlevel => absurd hlevel.1 hkind⟩
  · -- An open group is missing, so there is no exponent group here.
    intro S hS hS'
    cases (h.groups S hS hS'.1).2.level_eq hS'
  · intro _ S hS hoperator
    rcases h.outside rfl S hS hoperator with ⟨-, op, hvalue, hlevel⟩
    rcases Operator.of_level_additive hlevel with rfl | rfl
    · exact .inl hvalue
    · exact .inr hvalue

end Layer

/-- A leaf that is no group. -/
theorem layered_leaf {a : Label ExprKind Literal} (ha : a.kind ≠ .group) :
    (Term.leaf a).Every Layered := by
  refine .leaf ⟨fun heq => absurd heq ha, fun _ hT => (nomatch hT), fun _ hT => (nomatch hT),
    fun _ _ hT => (nomatch hT), fun _ hlevel => absurd hlevel.1 ha,
    fun _ hlevel => absurd hlevel.1 ha⟩

/-! ## The bench -/

/-- Lists inside of each other, the innermost first. -/
def Layers : List (List ExprTerm) → Prop
  | [] => True
  | ts :: outer => Layer outer.length ts ∧ Layers outer

namespace Bench

variable {b b' : Bench} {limit base index : Nat}

/-- Every list on the bench is the list of its level. -/
structure Stratified (b : Bench) : Prop where
  layers : Layers (b.inner :: b.outer)
  depth_le : b.depth ≤ 2

/-- The innermost group, if there is one, has something of its own level. -/
def Founded (b : Bench) : Prop := b.depth ≠ 0 → Owns b.depth b.inner

/-- What holds of a bench between two nodes. -/
structure Poised (b : Bench) : Prop extends Stratified b where
  founded : b.Founded
  loose : Loose b.inner

theorem poised_clear : clear.Poised :=
  ⟨⟨⟨Layer.nil 0, trivial⟩, Nat.zero_le 2⟩, fun hzero => absurd rfl hzero,
    fun _ hT => (nomatch hT)⟩

/-- A group closes, and is a member of the group around it. -/
theorem Stratified.close (h : b.Stratified) (hfounded : b.Founded) :
    b.close.Stratified ∧ b.close.Founded := by
  rcases b with ⟨inner, _ | ⟨around, outer⟩, name⟩
  · exact ⟨h, hfounded⟩
  · have hdepth_le : outer.length + 1 ≤ 2 := h.depth_le
    have hdepth : outer.length + 1 = 1 ∨ outer.length + 1 = 2 := by omega
    have hinner : Layer (outer.length + 1) inner := h.layers.1
    have howns : Owns (outer.length + 1) inner := hfounded (Nat.succ_ne_zero _)
    have hgroup : IsGroup (.ofDepth (outer.length + 1)) (groupLabel (outer.length + 1) inner) :=
      ⟨rfl, rfl⟩
    have hnew : (Term.branch (groupLabel (outer.length + 1) inner) inner).Every Layered :=
      .branch (hinner.layered_group hdepth howns) hinner.every
    refine ⟨⟨⟨?_, h.layers.2.2⟩, ?_⟩, ?_⟩
    · apply h.layers.2.1.append hnew
      · intro _
        exact ⟨by omega, hgroup⟩
      · intro hkind
        cases hkind
    · exact Nat.le_of_succ_le hdepth_le
    · -- The only open group that is left is the multiplicative one, around an exponent group.
      intro hne
      have hone : outer.length = 1 := by
        have hpos : outer.length ≠ 0 := hne
        omega
      have hlevel : Level.ofDepth (outer.length + 1) = .exponent := by
        rw [hone]
        rfl
      exact .inr ⟨hone, _, List.mem_concat_self, hlevel ▸ hgroup⟩

/-- A group opens, and takes over a term that is no group. -/
theorem Stratified.openGroup (h : b.Stratified) (hloose : Loose b.inner) (hdepth : b.depth < 2) :
    b.openGroup.Stratified ∧ Loose b.openGroup.inner := by
  have hinner : Layer b.depth b.inner := h.layers.1
  refine ⟨⟨⟨?_, hinner.dropLast, h.layers.2⟩, hdepth⟩, ?_⟩
  · exact hinner.getLast hloose _ (Nat.succ_ne_zero _)
  · intro T hT
    have hlast : b.inner.getLast? = some T := by
      cases hinner' : b.inner.getLast? with
      | none => simp [Bench.openGroup, hinner'] at hT
      | some first => simpa [Bench.openGroup, hinner'] using hT
    exact hloose T hlast

/-- On its way to a level a bench either closes groups or opens some. -/
theorem Poised.turnTo (h : b.Poised) (level : Level) : (b.turnTo level).Stratified := by
  have hrank : level.rank ≤ 2 := level.rank_le
  rcases Nat.lt_or_ge level.rank b.depth with hlt | hle
  · have hclosed : ∀ n, (Bench.close^[n] b).Stratified ∧ (Bench.close^[n] b).Founded :=
      Function.Iterate.rec (fun c : Bench => c.Stratified ∧ c.Founded)
        ⟨h.toStratified, h.founded⟩ fun c hc => hc.1.close hc.2
    rw [Bench.turnTo, Nat.sub_eq_zero_of_le (Nat.le_of_lt hlt)]
    exact (hclosed _).1
  · -- By induction on the groups that open: there is room for each of them.
    have hopened : ∀ n, b.depth + n ≤ 2 →
        (Bench.openGroup^[n] b).Stratified ∧ Loose (Bench.openGroup^[n] b).inner := by
      intro n
      induction n with
      | zero => exact fun _ => ⟨h.toStratified, h.loose⟩
      | succ n ih =>
          intro hroom
          have hroom' : (Bench.openGroup^[n] b).depth < 2 := by
            rw [depth_iterate_openGroup]
            omega
          rcases ih (by omega) with ⟨hstratified, hloose⟩
          rw [Function.iterate_succ_apply']
          exact hstratified.openGroup hloose hroom'
    rw [turnTo_open hle]
    exact (hopened _ (by omega)).1

/-- A term that is neither a group nor an operator is added. -/
theorem Poised.add (h : b.Poised) (hT : T.Every Layered) (hgroup : T.label.kind ≠ .group)
    (hoperator : T.label.kind ≠ .operator) : (b.add T).Poised := by
  have hinner : Layer b.depth b.inner := h.layers.1
  refine ⟨⟨⟨?_, h.layers.2⟩, h.depth_le⟩, ?_, ?_⟩
  · exact hinner.append hT (fun heq => absurd heq hgroup) fun heq => absurd heq hoperator
  · intro hdepth
    rcases h.founded hdepth with ⟨S, hS, hown⟩ | ⟨hone, S, hS, htight⟩
    · exact .inl ⟨S, List.mem_append_left _ hS, hown⟩
    · exact .inr ⟨hone, S, List.mem_append_left _ hS, htight⟩
  · intro S hS
    have hlast : S = T := by simpa [Bench.add] using hS.symm
    exact hlast ▸ hgroup

/-- An operator is added to the list of its level, which it makes a list of its own. -/
theorem Stratified.addOperator (h : b.Stratified) {a : Label ExprKind Literal}
    (ha : IsOperator (.ofDepth b.depth) a) : (b.add (.leaf a)).Poised := by
  have hkind : a.kind ≠ .group := by
    intro heq
    have hoperator := ha.1
    rw [heq] at hoperator
    cases hoperator
  have hinner : Layer b.depth b.inner := h.layers.1
  refine ⟨⟨⟨?_, h.layers.2⟩, h.depth_le⟩, ?_, ?_⟩
  · exact hinner.append (layered_leaf hkind) (fun heq => absurd heq hkind) fun _ => ha
  · exact fun _ => .inl ⟨_, List.mem_concat_self, ha⟩
  · intro S hS
    have hlast : S = .leaf a := by simpa [Bench.add] using hS.symm
    exact hlast ▸ hkind

theorem Poised.flush (h : b.Poised) : b.flush.Poised := by
  rcases b with ⟨inner, outer, name⟩
  cases name with
  | none => exact h
  | some name =>
      have hadd := h.add (T := .leaf ⟨.bareName, name.value, name.position⟩)
        (layered_leaf (show ExprKind.bareName ≠ .group by decide))
        (show ExprKind.bareName ≠ .group by decide) (show ExprKind.bareName ≠ .operator by decide)
      exact ⟨⟨hadd.layers, hadd.depth_le⟩, hadd.founded, hadd.loose⟩

/-! ### One node -/

theorem Poised.takeLeaf {id : NodeId} {label : Label SyntaxKind Literal} (h : b.Poised)
    (htake : b.takeLeaf limit base index id label = .ok b') : b'.Poised := by
  cases takeLeaf_eq_ok htake with
  | number hkind hb =>
      subst hb
      exact h.flush.add (layered_leaf (show ExprKind.number ≠ .group by decide))
        (show ExprKind.number ≠ .group by decide) (show ExprKind.number ≠ .operator by decide)
  | name hkind hb =>
      subst hb
      exact ⟨⟨h.flush.layers, h.flush.depth_le⟩, h.flush.founded, h.flush.loose⟩
  | operator op hkind hvalue hb =>
      subst hb
      -- The bench has turned to the level of the operator.
      have hlevel : Level.ofDepth (b.flush.turnTo op.level).depth = op.level := by
        rw [depth_turnTo, Level.ofDepth_rank]
      have hliteral : label.value = some (.operator op) := by
        rcases Option.bind_eq_some_iff.1 hvalue with ⟨v, hv, hop⟩
        cases v with
        | operator op' => simpa [Literal.operator?, hv] using hop
        | number x => cases hop
        | name text => cases hop
        | level l => cases hop
      apply (h.flush.turnTo op.level).addOperator
      exact ⟨rfl, op, hliteral, hlevel.symm⟩

theorem Poised.enclose {bracket : Label SyntaxKind Literal} {items : List ExprTerm} (h : b.Poised)
    (hitems : Layer 0 items) : (b.enclose bracket items).Poised := by
  have hkind : (b.enclosure bracket).kind = .bracket ∨ (b.enclosure bracket).kind = .function := by
    unfold enclosure
    cases b.name with
    | none => exact .inl rfl
    | some name => exact .inr rfl
  have hgroup : (b.enclosure bracket).kind ≠ .group := by
    rcases hkind with heq | heq <;> simp [heq]
  have hoperator : (b.enclosure bracket).kind ≠ .operator := by
    rcases hkind with heq | heq <;> simp [heq]
  have hlaid : (Term.branch (b.enclosure bracket) items).Every Layered :=
    .branch (hitems.layered_outside (.inr hkind)) hitems.every
  have hadd := h.add hlaid hgroup hoperator
  exact ⟨⟨hadd.layers, hadd.depth_le⟩, hadd.founded, hadd.loose⟩

/-- When all groups are closed, the terms form the list of the weakest level. -/
theorem Poised.finish (h : b.Poised) : Layer 0 b.finish := by
  have hturned := h.flush.turnTo .additive
  have houter : (b.flush.turnTo .additive).outer = [] :=
    List.length_eq_zero_iff.1 (depth_turnTo .additive b.flush)
  have hinner : Layer (b.flush.turnTo .additive).outer.length (b.flush.turnTo .additive).inner :=
    hturned.layers.1
  rw [houter] at hinner
  rw [← terms_turnTo_additive, terms, houter]
  exact hinner

/-- The node of a term leaves a bench as it should be between two nodes, wherever it is taken. -/
def KeepsPoised (limit : Nat) (X : SourceTerm) : Prop :=
  ∀ base index b b', take limit base index b X = .ok b' → b.Poised → b'.Poised

theorem poised_takeAll {Xs : List SourceTerm} (hXs : ∀ X ∈ Xs, KeepsPoised limit X)
    (htake : takeAll limit base index b Xs = .ok b') (h : b.Poised) : b'.Poised := by
  induction Xs generalizing b index with
  | nil =>
      obtain rfl := Except.ok.inj htake
      exact h
  | cons X Xs ih =>
      rw [takeAll] at htake
      rcases bind_eq_ok htake with ⟨b₁, hfirst, hrest⟩
      have h₁ : b₁.Poised := hXs X List.mem_cons_self base index b b₁ hfirst h
      exact ih (fun Y hY => hXs Y (List.mem_cons_of_mem _ hY)) hrest h₁

theorem keepsPoised (limit : Nat) (X : SourceTerm) : KeepsPoised limit X := by
  induction X using Term.induction with
  | leaf a =>
      intro base index b b' htake h
      exact h.takeLeaf htake
  | branch a inner ih =>
      intro base index b b' htake h
      by_cases hkind : a.2.kind = .bracket
      · -- Inside the bracket a clear bench is filled, and all its groups close in the end.
        rcases takeBracket_eq_ok hkind htake with ⟨content, hcontent, hb⟩
        have hinside : content.Poised := poised_takeAll ih hcontent poised_clear
        subst hb
        exact h.enclose hinside.finish
      · rw [take, if_neg hkind] at htake
        exact h.takeLeaf htake

end Bench

/-! ## Layers in the arena -/

section Arena

variable {t : ExprTree} {A : NodeId → Prop} {D : Term (NodeId × Label ExprKind Literal)}

theorem holdsGroup_iff_of_shows (h : t.Shows A D) : HoldsGroup t D.id ↔ D.label.2.kind = .group := by
  rcases Option.map_eq_some_iff.1 h.label_eq with ⟨n, hget, hlabel⟩
  rw [HoldsGroup, hget, ← hlabel]
  exact Option.some_inj

theorem tightness_of_shows {level : Level} (h : t.Shows A D) (hlevel : IsGroup level D.label.2) :
    tightness t D.id = level.rank := by
  rcases Option.map_eq_some_iff.1 h.label_eq with ⟨⟨kind, value, position, children⟩, hget, hlabel⟩
  rw [← hlabel] at hlevel
  rcases hlevel with ⟨rfl, rfl⟩
  rw [tightness, Piece.outputLevel, hget]

/-- In a layered tree every group binds more tightly than a group around it. -/
theorem not_misplaced_of_every (hrooted : t.Rooted) (hD : t.idTerm? Tree.root = some D)
    (hevery : (D.map Prod.snd).Every Layered) : ¬ Misplaced t := by
  rintro ⟨p, g, hg, hp, hgroup, hle⟩
  have hshows := (Tree.shows_of_expand? hD).1
  have hlayered : ∀ id < t.size, ∃ S, t.Shows (fun _ => True) S ∧ S.id = id ∧
      Layered S.label.2 (S.children.map (Term.map Prod.snd)) := by
    intro id hid
    have hmem : id ∈ Tree.root :: t.descendants Tree.root :=
      (hrooted.isForest.mem_descendants t.nonempty).2 (hrooted.reached id hid)
    rw [Tree.descendants_of_idTerm? hD] at hmem
    rcases List.mem_map.1 hmem with ⟨a, ha, rfl⟩
    rcases hshows.of_every hevery a ha with ⟨S, hS, rfl, h⟩
    exact ⟨S, hS, rfl, h⟩
  rcases hlayered p (lt_size_of_holdsGroup hp) with ⟨P, hP, rfl, houter⟩
  rcases hlayered g (lt_size_of_holdsGroup hgroup) with ⟨G, hG, rfl, hinner⟩
  -- The inner group is a child of the outer one, in the term as in the arena.
  have hchild : G.map Prod.snd ∈ P.children.map (Term.map Prod.snd) := by
    rcases hP.children with ⟨hids, hterms⟩
    rw [hids] at hg
    rcases List.mem_map.1 hg with ⟨S, hS, hid⟩
    obtain rfl : S = G := (hterms S hS).unique hG hid
    exact List.mem_map_of_mem hS
  have hlabel : (G.map Prod.snd).label = G.label.2 := Term.label_map _ _
  have hkind := (holdsGroup_iff_of_shows hP).1 hp
  rcases hinner.level ((holdsGroup_iff_of_shows hG).1 hgroup) with hmul | hexp
  · have hplace := houter.multiplicative _ hchild (hlabel ▸ hmul)
    rw [hkind] at hplace
    simp at hplace
  · have hmul := houter.exponent _ hchild (hlabel ▸ hexp)
    rw [tightness_of_shows hP hmul, tightness_of_shows hG hexp] at hle
    exact absurd hle (by decide)

end Arena

/-! ## The result -/

/-- A tree that is grouped is layered, whatever its operators and operands look like: multiplicative
groups lie directly in the calculator, in brackets and in functions only, exponent groups in
multiplicative ones only, and each group holds something of its own level.  No group is moved on the
way: from the round in which it is opened it is in one and the same child list. -/
theorem groups_layered {t : SyntaxTree} {T : SourceTerm} {limits : Limits} {out : ExprTree}
    (hT : t.idTerm? Tree.root = some T) (hplain : Plain T) (h : group t limits = .success out) :
    (∃ E, out.term? Tree.root = some E ∧ E.label.kind = .calculator ∧ E.Every Layered) ∧
      ∀ m n, m ≤ n → ∀ p, ∀ g ∈ (groupTree t limits m).children p,
        HoldsGroup (groupTree t limits m) g → g ∈ (groupTree t limits n).children p := by
  rcases (group_eq_success_iff hT hplain).1 ⟨out, h⟩ with ⟨b, htake⟩
  have hlayer : Layer 0 b.finish :=
    (Bench.poised_takeAll (fun X _ => Bench.keepsPoised _ X) htake Bench.poised_clear).finish
  have hevery : (Term.branch ⟨.calculator, none, T.label.2.position⟩ b.finish).Every Layered :=
    .branch (hlayer.layered_outside (.inl rfl)) hlayer.every
  have hterm : out.term? Tree.root =
      some (.branch ⟨.calculator, none, T.label.2.position⟩ b.finish) := by
    rcases exists_group hT hplain htake with ⟨out', hout, hterm⟩
    obtain rfl : out' = out := by
      rw [h] at hout
      exact (Outcome.success.inj hout).symm
    exact hterm
  refine ⟨⟨_, hterm, rfl, hevery⟩, ?_⟩
  intro m n hle p g hg hgroup
  obtain ⟨k, rfl⟩ := Nat.exists_eq_add_of_le hle
  have hrooted : out.Rooted := by
    rw [← groupTree_of_group h, groupTree_eq]
    exact ((upheld_firstState t limits).run Piece.upholds_rooted t .expression _).1
  rcases Option.map_eq_some_iff.1 hterm with ⟨D, hD, hmap⟩
  exact group_stays h (not_misplaced_of_every hrooted hD (hmap ▸ hevery)) m k p g hg hgroup

/-- Operators without operands, and an exponent in a function: `a*^b*+f(^c)`. -/
def doubledOperators : SyntaxTerm :=
  .branch ⟨.calculator, none, none⟩
    [.leaf ⟨.name, some (.name "a"), none⟩,
      .leaf ⟨.operator, some (.operator .mul), none⟩,
      .leaf ⟨.operator, some (.operator .pow), none⟩,
      .leaf ⟨.name, some (.name "b"), none⟩,
      .leaf ⟨.operator, some (.operator .mul), none⟩,
      .leaf ⟨.operator, some (.operator .add), none⟩,
      .leaf ⟨.name, some (.name "f"), none⟩,
      .branch ⟨.bracket, none, none⟩
        [.leaf ⟨.operator, some (.operator .pow), none⟩,
          .leaf ⟨.name, some (.name "c"), none⟩]]

theorem doubledOperators_layered :
    ∃ out, group (Tree.ofTerm doubledOperators) ⟨7⟩ = .success out ∧
      (∃ E, out.term? Tree.root = some E ∧ E.label.kind = .calculator ∧ E.Every Layered) ∧
      ∀ m n, m ≤ n → ∀ p, ∀ g ∈ (groupTree (Tree.ofTerm doubledOperators) ⟨7⟩ m).children p,
        HoldsGroup (groupTree (Tree.ofTerm doubledOperators) ⟨7⟩ m) g →
          g ∈ (groupTree (Tree.ofTerm doubledOperators) ⟨7⟩ n).children p := by
  obtain ⟨T, b, hT, hplain, htake⟩ : ∃ (T : SourceTerm) (b : Bench),
      (Tree.ofTerm doubledOperators).idTerm? Tree.root = some T ∧ Plain T ∧
        Bench.takeAll (Limits.mk 7).maxDepth 0 0 .clear T.children = .ok b := by
    refine ⟨_, _, rfl, ?_, rfl⟩
    unfold Plain
    decide
  rcases exists_group hT hplain htake with ⟨out, hout, -⟩
  exact ⟨out, hout, groups_layered hT hplain hout⟩

end Calculator
end FeatureTree
