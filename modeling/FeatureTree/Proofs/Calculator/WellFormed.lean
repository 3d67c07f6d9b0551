import FeatureTree.Proofs.Calculator.Grouped
import FeatureTree.Proofs.Calculator.Precedence

/-!
# WellFormed — flat trees whose child lists alternate

In a well-formed flat tree the root and every bracket have either no children or operands with an
operator between any two of them.  A name in front of a bracket forms one operand with it.

`group_expression` is the result: within a depth limit that grows with the nesting of brackets only,
grouping succeeds, and its output is `expression` of the input: precedence grouping in every child
list, with names applied to the brackets behind them.
-/

namespace FeatureTree
namespace Calculator

open Rebuilding

/-! ## The expected output -/

/-- The kind of a copied leaf. -/
def leafKind : SyntaxKind → ExprKind
  | .calculator => .calculator
  | .bracket => .bracket
  | .number => .number
  | .operator => .operator
  | .name => .bareName

/-- Each name in front of a bracket becomes the function of that bracket. -/
def applyNames : List ExprTerm → List ExprTerm
  | name :: bracket :: rest =>
      if name.label.kind = .bareName ∧ bracket.label.kind = .bracket then
        .branch ⟨.function, name.label.value,
          Piece.spanOf? name.label.position bracket.label.position⟩ bracket.children ::
            applyNames rest
      else name :: applyNames (bracket :: rest)
  | items => items

mutual

/-- The expression tree of a node of the flat tree. -/
def expression : SyntaxTerm → ExprTerm
  | .leaf label => .leaf ⟨leafKind label.kind, label.value, label.position⟩
  | .branch label items =>
      if label.kind = .bracket then
        .branch ⟨.bracket, none, label.position⟩ (grouped (applyNames (expressions items)))
      else .leaf ⟨leafKind label.kind, label.value, label.position⟩

/-- The expression trees of several nodes. -/
def expressions : List SyntaxTerm → List ExprTerm
  | [] => []
  | T :: items => expression T :: expressions items

end

mutual

/-- The largest number of brackets on a path down from a node. -/
def bracketDepth : SyntaxTerm → Nat
  | .leaf label => if label.kind = .bracket then 1 else 0
  | .branch label items => (if label.kind = .bracket then 1 else 0) + bracketDepthAll items

/-- The largest number of brackets on a path down from one of several nodes. -/
def bracketDepthAll : List SyntaxTerm → Nat
  | [] => 0
  | T :: items => max (bracketDepth T) (bracketDepthAll items)

end

/-! ## Well-formed child lists -/

/-- What stands next in a child list. -/
inductive Next where
  /-- An operand, or nothing at all. -/
  | anything
  | operand
  /-- An operator, or the end of the list. -/
  | operator

/-- Operands and operators alternate, also inside brackets. -/
inductive WellFormed : Next → List SyntaxTerm → Prop where
  | empty : WellFormed .anything []
  | begin {items : List SyntaxTerm} (rest : WellFormed .operand items) : WellFormed .anything items
  | number {T : SyntaxTerm} {items : List SyntaxTerm} (kind : T.label.kind = .number)
      (rest : WellFormed .operator items) : WellFormed .operand (T :: items)
  | name {T : SyntaxTerm} {items : List SyntaxTerm} (kind : T.label.kind = .name)
      (rest : WellFormed .operator items) : WellFormed .operand (T :: items)
  | bracket {label : Label SyntaxKind Literal} {inner items : List SyntaxTerm}
      (kind : label.kind = .bracket) (inside : WellFormed .anything inner)
      (rest : WellFormed .operator items) : WellFormed .operand (.branch label inner :: items)
  | application {T : SyntaxTerm} {label : Label SyntaxKind Literal} {inner items : List SyntaxTerm}
      (name : T.label.kind = .name) (kind : label.kind = .bracket)
      (inside : WellFormed .anything inner) (rest : WellFormed .operator items) :
      WellFormed .operand (T :: .branch label inner :: items)
  | stop : WellFormed .operator []
  | operator {T : SyntaxTerm} {items : List SyntaxTerm} (kind : T.label.kind = .operator)
      (rest : WellFormed .operand items) : WellFormed .operator (T :: items)

/-- Operators carry operators, and no other node does. -/
def OperatorsMarked (T : SyntaxTerm) : Prop :=
  ∀ label ∈ T.labels, label.kind = .operator ↔ (label.value.bind Literal.operator?).isSome = true

variable {T : SyntaxTerm} {items rest : List SyntaxTerm} {next : Next}

/-! ### Names -/

theorem expression_of_kind {kind : SyntaxKind} (h : T.label.kind = kind) (hne : kind ≠ .bracket) :
    expression T = .leaf ⟨leafKind kind, T.label.value, T.label.position⟩ := by
  subst h
  cases T with
  | leaf label =>
      rw [expression]
      rfl
  | branch label items => exact if_neg hne

theorem expression_bracket {label : Label SyntaxKind Literal} (h : label.kind = .bracket) :
    expression (.branch label items) =
      .branch ⟨.bracket, none, label.position⟩ (grouped (applyNames (expressions items))) := by
  rw [expression, if_pos h]

theorem applyNames_cons {U : ExprTerm} {more : List ExprTerm} (h : U.label.kind ≠ .bareName) :
    applyNames (U :: more) = U :: applyNames more := by
  cases more with
  | nil => rfl
  | cons V more => rw [applyNames, if_neg fun hboth => h hboth.1]

theorem applyNames_name {U : ExprTerm} {more : List ExprTerm}
    (h : ∀ V ∈ more.head?, V.label.kind ≠ .bracket) :
    applyNames (U :: more) = U :: applyNames more := by
  cases more with
  | nil => rfl
  | cons V more => rw [applyNames, if_neg fun hboth => h V rfl hboth.2]

theorem applyNames_function {U : ExprTerm} {label : Label ExprKind Literal}
    {inner more : List ExprTerm} (hname : U.label.kind = .bareName) (hkind : label.kind = .bracket) :
    applyNames (U :: .branch label inner :: more) =
      .branch ⟨.function, U.label.value, Piece.spanOf? U.label.position label.position⟩ inner ::
        applyNames more := by
  rw [applyNames, if_pos ⟨hname, hkind⟩]
  rfl

/-! ### Well-formed lists alternate -/

/-- Operators in front of operands. -/
def Pairs (more : List (ExprTerm × ExprTerm)) : Prop :=
  ∀ q ∈ more, (levelOf? q.1).isSome ∧ levelOf? q.2 = none

/-- The list starts with what stands next, and alternates from there on. -/
def Alternates (items : List ExprTerm) : Next → Prop
  | .anything => items = [] ∨ ∃ u more, items = alternating u more ∧ levelOf? u = none ∧ Pairs more
  | .operand => ∃ u more, items = alternating u more ∧ levelOf? u = none ∧ Pairs more
  | .operator => ∃ more : List (ExprTerm × ExprTerm),
      items = more.flatMap (fun q => [q.1, q.2]) ∧ Pairs more

theorem levelOf?_operand {U : ExprTerm} (h : U.label.kind ≠ .operator) : levelOf? U = none :=
  if_neg h

/-- An operand in front of an operator or the end. -/
theorem Alternates.operand {U : ExprTerm} {more : List ExprTerm} (h : Alternates more .operator)
    (hU : U.label.kind ≠ .operator) : Alternates (U :: more) .operand := by
  rcases h with ⟨pairs, rfl, hpairs⟩
  exact ⟨U, pairs, rfl, levelOf?_operand hU, hpairs⟩

/-- An operator in front of an operand. -/
theorem Alternates.operator {O : ExprTerm} {more : List ExprTerm} (h : Alternates more .operand)
    (hO : (levelOf? O).isSome) : Alternates (O :: more) .operator := by
  rcases h with ⟨u, pairs, rfl, hu, hpairs⟩
  exact ⟨(O, u) :: pairs, rfl, List.forall_mem_cons.2 ⟨⟨hO, hu⟩, hpairs⟩⟩

/-- No bracket stands where an operator or the end is due. -/
theorem WellFormed.head_ne_bracket (h : WellFormed .operator items) :
    ∀ V ∈ (expressions items).head?, V.label.kind ≠ .bracket := by
  intro V hV
  cases h with
  | stop => cases hV
  | operator kind rest =>
      rw [expressions, expression_of_kind kind (by decide)] at hV
      obtain rfl := Option.some.inj hV
      exact show leafKind .operator ≠ .bracket by decide

/-- In the expression of a well-formed list, operands and operators alternate. -/
theorem WellFormed.alternates (h : WellFormed next items)
    (hmarked : ∀ T ∈ items, T.label.kind = .operator →
      (T.label.value.bind Literal.operator?).isSome = true) :
    Alternates (applyNames (expressions items)) next := by
  induction h with
  | empty => exact .inl rfl
  | begin rest ih => exact .inr (ih hmarked)
  | number kind rest ih =>
      rw [expressions, expression_of_kind kind (by decide), applyNames_cons]
      · exact (ih fun S hS => hmarked S (List.mem_cons_of_mem _ hS)).operand
          (show leafKind .number ≠ .operator by decide)
      · exact show leafKind .number ≠ .bareName by decide
  | name kind rest ih =>
      -- No bracket follows, so the name stays a term of its own.
      rw [expressions, expression_of_kind kind (by decide), applyNames_name rest.head_ne_bracket]
      exact (ih fun S hS => hmarked S (List.mem_cons_of_mem _ hS)).operand
        (show leafKind .name ≠ .operator by decide)
  | bracket kind inside rest _ ih =>
      rw [expressions, expression_bracket kind, applyNames_cons]
      · exact (ih fun S hS => hmarked S (List.mem_cons_of_mem _ hS)).operand
          (show ExprKind.bracket ≠ .operator by decide)
      · exact show ExprKind.bracket ≠ .bareName by decide
  | application name kind inside rest _ ih =>
      rw [expressions, expressions, expression_of_kind name (by decide), expression_bracket kind,
        applyNames_function rfl rfl]
      refine (ih fun S hS => hmarked S ?_).operand (show ExprKind.function ≠ .operator by decide)
      exact List.mem_cons_of_mem _ (List.mem_cons_of_mem _ hS)
  | stop => exact ⟨[], rfl, fun q hq => nomatch hq⟩
  | @operator T items kind rest ih =>
      have hlevel : (levelOf? (.leaf ⟨.operator, T.label.value, T.label.position⟩)).isSome := by
        change ((T.label.value.bind Literal.operator?).map Operator.level).isSome = true
        rw [Option.isSome_map]
        exact hmarked T List.mem_cons_self kind
      rw [expressions, expression_of_kind kind (by decide), applyNames_cons]
      · exact (ih fun S hS => hmarked S (List.mem_cons_of_mem _ hS)).operator hlevel
      · exact show leafKind .operator ≠ .bareName by decide

/-- What a well-formed list is made of. -/
theorem WellFormed.of_mem (h : WellFormed next items) (hT : T ∈ items) :
    T.label.kind = .number ∨ T.label.kind = .name ∨ T.label.kind = .operator ∨
      ∃ label inner, T = .branch label inner ∧ label.kind = .bracket ∧
        WellFormed .anything inner := by
  induction h with
  | empty => cases hT
  | stop => cases hT
  | begin rest ih => exact ih hT
  | number kind rest ih =>
      rcases List.mem_cons.1 hT with rfl | hmem
      · exact .inl kind
      · exact ih hmem
  | name kind rest ih =>
      rcases List.mem_cons.1 hT with rfl | hmem
      · exact .inr (.inl kind)
      · exact ih hmem
  | operator kind rest ih =>
      rcases List.mem_cons.1 hT with rfl | hmem
      · exact .inr (.inr (.inl kind))
      · exact ih hmem
  | bracket kind inside rest _ ih =>
      rcases List.mem_cons.1 hT with rfl | hmem
      · exact .inr (.inr (.inr ⟨_, _, rfl, kind, inside⟩))
      · exact ih hmem
  | application name kind inside rest _ ih =>
      rcases List.mem_cons.1 hT with rfl | hmem
      · exact .inr (.inl name)
      · rcases List.mem_cons.1 hmem with rfl | hmem'
        · exact .inr (.inr (.inr ⟨_, _, rfl, kind, inside⟩))
        · exact ih hmem'

/-! ## The bench of a well-formed list -/

namespace Bench

/-- The name that waits, as a term of its own. -/
def pending (b : Bench) : List ExprTerm :=
  match b.name with
  | none => []
  | some name => [.leaf ⟨.bareName, name.value, name.position⟩]

/-- The bench after further terms, the first of which a waiting name may be applied to. -/
def laid (b : Bench) (items : List ExprTerm) : Bench :=
  (applyNames (b.pending ++ items)).foldl lay { b with name := none }

variable {b : Bench} {U : ExprTerm} {more : List ExprTerm}

theorem lay_operand (b : Bench) (h : U.label.kind ≠ .operator) : b.lay U = b.add U := by
  rw [lay, levelOf?_operand h]

theorem foldl_pending (b : Bench) : b.pending.foldl lay { b with name := none } = b.flush := by
  rcases b with ⟨inner, outer, name⟩
  cases name with
  | none => rfl
  | some name =>
      change lay _ (.leaf ⟨.bareName, name.value, name.position⟩) = _
      rw [lay_operand]
      · rfl
      · exact fun heq => nomatch heq

theorem laid_nil (b : Bench) : b.laid [] = b.flush := by
  rw [laid, List.append_nil, ← foldl_pending]
  rcases b with ⟨inner, outer, name⟩
  cases name <;> rfl

/-- What is no bracket is laid behind a waiting name. -/
theorem laid_cons (b : Bench) (h : U.label.kind ≠ .bracket) :
    b.laid (U :: more) = (applyNames (U :: more)).foldl lay b.flush := by
  have hnames : applyNames (b.pending ++ U :: more) = b.pending ++ applyNames (U :: more) := by
    unfold pending
    cases b.name with
    | none => rfl
    | some name =>
        refine applyNames_name fun V hV => ?_
        obtain rfl : U = V := Option.some.inj hV
        exact h
  rw [laid, hnames, List.foldl_append, foldl_pending]

theorem laid_of_name (h : b.name = none) (items : List ExprTerm) :
    b.laid items = (applyNames items).foldl lay b := by
  rcases b with ⟨inner, outer, name⟩
  obtain rfl : name = none := h
  rfl

theorem lay_operator (b : Bench) {value : Option Literal} {position : Option Position}
    {op : Operator} (hvalue : value.bind Literal.operator? = some op) :
    b.lay (.leaf ⟨.operator, value, position⟩) =
      (b.turnTo op.level).add (.leaf ⟨.operator, value, position⟩) := by
  have hlevel : levelOf? (.leaf ⟨.operator, value, position⟩) = some op.level := by
    change (value.bind Literal.operator?).map Operator.level = _
    rw [hvalue]
    rfl
  rw [lay, hlevel]

/-- A name waits for the next term. -/
theorem laid_name (b : Bench) (label : Label SyntaxKind Literal) :
    b.laid (.leaf ⟨.bareName, label.value, label.position⟩ :: more) =
      ({ b.flush with name := some label } : Bench).laid more := by
  rw [laid_cons]
  · have hname := b.name_flush
    generalize b.flush = c at hname ⊢
    rcases c with ⟨inner, outer, name⟩
    obtain rfl : name = none := hname
    rfl
  · exact fun heq => nomatch heq

/-- What is neither a bracket nor a name is laid behind a waiting name. -/
theorem laid_leaf (b : Bench) (hbracket : U.label.kind ≠ .bracket)
    (hname : U.label.kind ≠ .bareName) : b.laid (U :: more) = (b.flush.lay U).laid more := by
  have hclosed : (b.flush.lay U).name = none := by
    unfold lay
    split
    · exact (name_turnTo _ _).trans b.name_flush
    · exact b.name_flush
  calc b.laid (U :: more)
      = (applyNames (U :: more)).foldl lay b.flush := laid_cons b hbracket
    _ = (applyNames more).foldl lay (b.flush.lay U) := by
        rw [applyNames_cons hname, List.foldl_cons]
    _ = (b.flush.lay U).laid more := (laid_of_name hclosed more).symm

/-- A bracket that a waiting name is applied to, or that is laid as it is. -/
theorem laid_bracket (b : Bench) {bracket : Label SyntaxKind Literal} {inner : List ExprTerm} :
    b.laid (.branch ⟨.bracket, none, bracket.position⟩ inner :: more) =
      (b.enclose bracket inner).laid more := by
  have hclosed : (b.enclose bracket inner).laid more =
      (applyNames more).foldl lay (b.enclose bracket inner) := laid_of_name rfl more
  rw [hclosed]
  rcases b with ⟨terms, outer, name⟩
  cases name with
  | none =>
      rw [laid_of_name rfl, applyNames_cons, List.foldl_cons, lay_operand]
      · rfl
      · exact fun heq => nomatch heq
      · exact fun heq => nomatch heq
  | some name =>
      rw [laid, pending, List.singleton_append, applyNames_function rfl rfl, List.foldl_cons,
        lay_operand]
      · rfl
      · exact fun heq => nomatch heq

end Bench

/-! ### One node -/

section Nodes

variable {limit base : Nat} {X : SourceTerm} {b : Bench}

/-- Wherever the node is taken, the bench lays its expression. -/
def Taken (limit base : Nat) (X : SourceTerm) : Prop :=
  ∀ b index, Bench.depth b ≤ 2 → ∃ b', b.take limit base index X = .ok b' ∧ b'.depth ≤ 2 ∧
    ∀ more, b.laid (expression (X.map Prod.snd) :: more) = b'.laid more

theorem seat_of_room (hroom : base + 3 ≤ limit) (hdepth : b.depth ≤ 2) :
    b.seat limit base = .ok b := if_neg (by omega)

theorem seatBracket_of_room (hroom : base + 3 ≤ limit) (hdepth : b.depth ≤ 2) :
    b.seatBracket limit base = .ok b := by
  unfold Bench.seatBracket
  cases b.name with
  | none => exact seat_of_room hroom hdepth
  | some name => rfl

theorem take_of_ne (h : X.label.2.kind ≠ .bracket) (b : Bench) (index : Nat) :
    b.take limit base index X = b.takeLeaf limit base index X.id X.label.2 := by
  cases X with
  | leaf a => rfl
  | branch a items => exact if_neg h

theorem taken_leaf (hroom : base + 3 ≤ limit)
    (hkind : X.label.2.kind = .number ∨ X.label.2.kind = .name ∨ X.label.2.kind = .operator ∧
      (X.label.2.value.bind Literal.operator?).isSome = true) : Taken limit base X := by
  intro b index hdepth
  have hdepth' : b.flush.depth ≤ 2 := by
    rw [Bench.depth_flush]
    exact hdepth
  have hne : X.label.2.kind ≠ .bracket := by
    rcases hkind with heq | heq | ⟨heq, -⟩ <;> rw [heq] <;> decide
  have hexpression : expression (X.map Prod.snd) =
      .leaf ⟨leafKind X.label.2.kind, X.label.2.value, X.label.2.position⟩ := by
    rw [← Term.label_map Prod.snd X] at hne ⊢
    exact expression_of_kind rfl hne
  rw [take_of_ne hne, hexpression]
  have hroomy : ∀ c : Bench, c.depth ≤ 2 → c.seat limit base = .ok c := fun c => seat_of_room hroom
  rcases hkind with heq | heq | ⟨heq, hsome⟩
  · rw [b.takeLeaf_number _ heq, hroomy _ hdepth', heq]
    refine ⟨_, rfl, hdepth', fun more => ?_⟩
    exact b.laid_leaf (show leafKind .number ≠ .bracket by decide)
      (show leafKind .number ≠ .bareName by decide)
  · rw [b.takeLeaf_name _ heq, hroomy _ hdepth', heq]
    exact ⟨_, rfl, hdepth', fun more => b.laid_name X.label.2⟩
  · obtain ⟨op, hop⟩ := Option.isSome_iff_exists.1 hsome
    have hturned : (b.flush.turnTo op.level).depth ≤ 2 := by
      rw [Bench.depth_turnTo]
      exact op.level.rank_le
    rw [b.takeLeaf_operator _ heq hop, hroomy _ hturned, heq]
    refine ⟨_, rfl, hturned, fun more => ?_⟩
    rw [← b.flush.lay_operator hop]
    exact b.laid_leaf (show leafKind .operator ≠ .bracket by decide)
      (show leafKind .operator ≠ .bareName by decide)

/-- A bracket whose content is grouped. -/
theorem taken_bracket {a : NodeId × Label SyntaxKind Literal} {inner : List SourceTerm}
    (hkind : a.2.kind = .bracket) (hroom : base + 4 ≤ limit)
    (hinside : ∀ base' ≤ base + 4, ∃ content,
      Bench.takeAll limit base' 0 .clear inner = .ok content ∧
        content.finish = grouped (applyNames (expressions (inner.map (Term.map Prod.snd))))) :
    Taken limit base (.branch a inner) := by
  intro b index hdepth
  rcases hinside (base + b.depth + 2) (by omega) with ⟨content, hcontent, hfinish⟩
  refine ⟨b.enclose a.2 content.finish, ?_, hdepth, fun more => ?_⟩
  · have hseat : b.seatBracket limit base = .ok b := seatBracket_of_room (by omega) hdepth
    have hregion : b.seat limit (base + 1) = .ok b := seat_of_room (by omega) hdepth
    rw [Bench.take, if_pos hkind, hseat]
    change ((b.seat limit (base + 1)).bind _) = _
    rw [hregion]
    change (Bench.takeAll limit (base + b.depth + 2) 0 .clear inner).map _ = _
    rw [hcontent]
    rfl
  · rw [Term.map, Term.mapList_eq_map, expression_bracket hkind, hfinish]
    exact b.laid_bracket

end Nodes

/-! ### Several nodes -/

section Lists

variable {limit base : Nat} {Xs : List SourceTerm} {b : Bench}

theorem takeAll_of_taken (hXs : ∀ X ∈ Xs, Taken limit base X) (hdepth : b.depth ≤ 2) (index : Nat) :
    ∃ b', b.takeAll limit base index Xs = .ok b' ∧
      b.laid (expressions (Xs.map (Term.map Prod.snd))) = b'.flush := by
  -- What the bench lays for the first node and what it lays for the others is laid one after the
  -- other.
  induction Xs generalizing b index with
  | nil => exact ⟨b, rfl, b.laid_nil⟩
  | cons X Xs ih =>
      rcases hXs X List.mem_cons_self b index hdepth with ⟨b₁, htake, hdepth₁, hlaid⟩
      rcases ih (fun Y hY => hXs Y (List.mem_cons_of_mem _ hY)) hdepth₁ (index + 1) with
        ⟨b', htakeAll, hrest⟩
      refine ⟨b', ?_, ?_⟩
      · rw [Bench.takeAll, htake]
        exact htakeAll
      · rw [List.map_cons, expressions, hlaid, hrest]

theorem bracketDepth_le_of_mem (hT : T ∈ items) : bracketDepth T ≤ bracketDepthAll items := by
  induction items with
  | nil => cases hT
  | cons S items ih =>
      rw [bracketDepthAll]
      rcases List.mem_cons.1 hT with rfl | hmem
      · exact Nat.le_max_left _ _
      · exact Nat.le_trans (ih hmem) (Nat.le_max_right _ _)

/-- The bench shows the groups of a well-formed list. -/
theorem finish_laid (h : WellFormed .anything items)
    (hmarked : ∀ T ∈ items, T.label.kind = .operator →
      (T.label.value.bind Literal.operator?).isSome = true) :
    (Bench.clear.laid (expressions items)).finish = grouped (applyNames (expressions items)) := by
  rw [Bench.laid_of_name rfl]
  rcases h.alternates hmarked with hnil | ⟨u, more, halternates, hu, hpairs⟩
  · rw [hnil]
    rfl
  · rw [halternates]
    exact finish_lay_alternating hpairs hu

/-- Every well-formed child list is taken, and grouped by precedence. -/
theorem takeAll_grouped {T : SourceTerm}
    (hshape : WellFormed .anything (T.children.map (Term.map Prod.snd)))
    (hmarked : ∀ a ∈ T.labels, a.2.kind = .operator →
      (a.2.value.bind Literal.operator?).isSome = true)
    (hroom : base + 4 * bracketDepthAll (T.children.map (Term.map Prod.snd)) + 3 ≤ limit) :
    ∃ content, Bench.takeAll limit base 0 .clear T.children = .ok content ∧
      content.finish =
        grouped (applyNames (expressions (T.children.map (Term.map Prod.snd)))) := by
  induction T using Term.induction generalizing base with
  | leaf a => exact ⟨.clear, rfl, rfl⟩
  | branch a Xs ih =>
      change base + 4 * bracketDepthAll (Xs.map (Term.map Prod.snd)) + 3 ≤ limit at hroom
      have hbelow : ∀ X ∈ Xs, ∀ c ∈ X.labels, c.2.kind = .operator →
          (c.2.value.bind Literal.operator?).isSome = true :=
        fun X hX c hc => hmarked c (Term.mem_labels_of_mem hX hc)
      have htop : ∀ X ∈ Xs, X.label.2.kind = .operator →
          (X.label.2.value.bind Literal.operator?).isSome = true :=
        fun X hX => hbelow X hX X.label X.label_mem_labels
      -- Room is asked for at most three groups; a bracket hands four frames less on to its content.
      have htaken : ∀ X ∈ Xs, Taken limit base X := by
        intro X hX
        have hmem : X.map Prod.snd ∈ Xs.map (Term.map Prod.snd) := List.mem_map_of_mem hX
        have hdepth := bracketDepth_le_of_mem hmem
        have hleast : base + 3 ≤ limit := by omega
        have hkinds := hshape.of_mem hmem
        rw [Term.label_map] at hkinds
        rcases hkinds with hnumber | hname | hoperator | ⟨label, inner, heq, hkind, hinside⟩
        · exact taken_leaf hleast (.inl hnumber)
        · exact taken_leaf hleast (.inr (.inl hname))
        · exact taken_leaf hleast (.inr (.inr ⟨hoperator, htop X hX hoperator⟩))
        · cases X with
          | leaf c => cases heq
          | branch c Ys =>
              rw [Term.map, Term.mapList_eq_map] at heq hdepth
              obtain ⟨rfl, rfl⟩ := Term.branch.inj heq
              rw [bracketDepth, if_pos hkind] at hdepth
              refine taken_bracket hkind (by omega) fun base' hbase' => ?_
              have hroom' : base' + 4 * bracketDepthAll (Ys.map (Term.map Prod.snd)) + 3 ≤ limit := by
                omega
              exact ih _ hX hinside (hbelow _ hX) hroom'
      rcases takeAll_of_taken (b := .clear) htaken (Nat.zero_le 2) 0 with ⟨content, htake, hlaid⟩
      refine ⟨content, htake, ?_⟩
      rw [← Bench.finish_flush, ← hlaid]
      refine finish_laid hshape fun S hS => ?_
      rcases List.mem_map.1 hS with ⟨X, hX, rfl⟩
      rw [Term.label_map]
      exact htop X hX

end Lists

/-! ## The whole tree -/

/-- Grouping a well-formed flat tree succeeds under every limit that leaves four frames for each level
of brackets and three more, and groups every child list by precedence. -/
theorem group_expression {t : SyntaxTree} {T : SyntaxTerm} {limits : Limits}
    (hterm : t.term? Tree.root = some T) (hshape : WellFormed .anything T.children)
    (hmarked : OperatorsMarked T) (hdepth : 4 * bracketDepth T + 3 ≤ limits.maxDepth) :
    ∃ out, group t limits = .success out ∧
      out.term? Tree.root = some (.branch ⟨.calculator, none, T.label.position⟩
        (grouped (applyNames (expressions T.children)))) := by
  rcases Option.map_eq_some_iff.1 hterm with ⟨source, hsource, rfl⟩
  have hmarked' : ∀ a ∈ source.labels,
      a.2.kind = .operator ↔ (a.2.value.bind Literal.operator?).isSome = true := by
    intro a ha
    refine hmarked a.2 ?_
    rw [Term.labels_map]
    exact List.mem_map_of_mem ha
  have hplain : Plain source := by
    intro a ha hkind
    exact Option.not_isSome_iff_eq_none.1 fun hsome => hkind ((hmarked' a ha).2 hsome)
  have hroom : 0 + 4 * bracketDepthAll (source.children.map (Term.map Prod.snd)) + 3 ≤
      limits.maxDepth := by
    have hle : bracketDepthAll (source.map Prod.snd).children ≤
        bracketDepth (source.map Prod.snd) := by
      cases source with
      | leaf a => exact Nat.zero_le _
      | branch a items => exact Nat.le_add_left _ _
    rw [Term.children_map] at hle
    omega
  rw [Term.children_map] at hshape ⊢
  rcases takeAll_grouped hshape (fun a ha => (hmarked' a ha).1) hroom with
    ⟨content, htake, hfinish⟩
  -- Grouping gives what the bench gives, and the bench gives the reference.
  have hgroup := group_eq limits hsource hplain
  rw [htake] at hgroup
  change ∃ out, group t limits = .success out ∧ out.term? Tree.root =
    some (.branch ⟨.calculator, none, source.label.2.position⟩ content.finish) at hgroup
  rw [hfinish] at hgroup
  rw [Term.label_map]
  exact hgroup

/-- The product of a name and a function, plus a name: `a*f(b^c)+d`. -/
def productPlusName : SyntaxTerm :=
  let name (text : String) : SyntaxTerm := .leaf ⟨.name, some (.name text), none⟩
  let operator (op : Operator) : SyntaxTerm := .leaf ⟨.operator, some (.operator op), none⟩
  .branch ⟨.calculator, none, none⟩
    [name "a", operator .mul, name "f",
      .branch ⟨.bracket, none, none⟩ [name "b", operator .pow, name "c"], operator .add, name "d"]

/-- Its groups: the product, and inside the function the power in a product of its own. -/
def productPlusNameGrouped : ExprTerm :=
  let name (text : String) : ExprTerm := .leaf ⟨.bareName, some (.name text), none⟩
  let operator (op : Operator) : ExprTerm := .leaf ⟨.operator, some (.operator op), none⟩
  let group (level : Level) (members : List ExprTerm) : ExprTerm :=
    .branch ⟨.group, some (.level level), none⟩ members
  .branch ⟨.calculator, none, none⟩
    [group .multiplicative
      [name "a", operator .mul, .branch ⟨.function, some (.name "f"), none⟩
        [group .multiplicative [group .exponent [name "b", operator .pow, name "c"]]]],
      operator .add, name "d"]

/-- A limit of seven frames is enough for one level of brackets. -/
theorem group_productPlusName :
    ∃ out, group (Tree.ofTerm productPlusName) ⟨7⟩ = .success out ∧
      out.term? Tree.root = some productPlusNameGrouped := by
  have hinside : WellFormed .anything
      [.leaf ⟨.name, some (.name "b"), none⟩, .leaf ⟨.operator, some (.operator .pow), none⟩,
        .leaf ⟨.name, some (.name "c"), none⟩] :=
    .begin (.name rfl (.operator rfl (.name rfl .stop)))
  have hshape : WellFormed .anything productPlusName.children :=
    .begin (.name rfl (.operator rfl (.application rfl rfl hinside (.operator rfl
      (.name rfl .stop)))))
  have hmarked : OperatorsMarked productPlusName := by
    unfold OperatorsMarked
    decide
  exact group_expression (t := Tree.ofTerm productPlusName) rfl hshape hmarked (by decide)

end Calculator
end FeatureTree
