import FeatureTree.Proofs.Calculator.Drawing
import FeatureTree.Proofs.Calculator.Restoring
import FeatureTree.Proofs.Calculator.Verdict
import FeatureTree.Proofs.Calculator.WellFormed

/-!
# Faults — why a flat tree cannot be grouped

Grouping comes to the children of the root and to what lies in the brackets among them.  Some of these
nodes are faults: an operator without a value, a bracket without a child list, a whole calculator.

`group_first_fault` says that a tree is grouped if it has no fault, and that grouping fails at its
first fault otherwise, under every limit that leaves four frames for each level of brackets and three
more.  The order of operands and operators does not matter.  The tree of a text has no faults, so it
is grouped, whatever the text.
-/

namespace FeatureTree
namespace Calculator

open Rebuilding

/-! ## Nodes that grouping comes to -/

/-- A node with its place among its siblings; it is a parent if it has a child list. -/
structure Visited where
  id : NodeId
  index : Nat
  label : Label SyntaxKind Literal
  isParent : Bool
  deriving DecidableEq, Repr

namespace Visited

/-- The node is no fault. -/
structure Fine (v : Visited) : Prop where
  marked : v.label.kind = .operator → (v.label.value.bind Literal.operator?).isSome = true
  parent : v.label.kind = .bracket → v.isParent = true
  inner : v.label.kind ≠ .calculator

theorem Fine.of_operand {v : Visited} (h : v.label.kind = .number ∨ v.label.kind = .name) :
    v.Fine := by
  refine ⟨fun heq => ?_, fun heq => ?_, fun heq => ?_⟩ <;>
    rcases h with hkind | hkind <;> exact absurd (hkind.symm.trans heq) (by decide)

theorem Fine.of_operator {v : Visited} (h : v.label.kind = .operator)
    (hvalue : (v.label.value.bind Literal.operator?).isSome = true) : v.Fine :=
  ⟨fun _ => hvalue, fun heq => absurd (h.symm.trans heq) (by decide),
    fun heq => absurd (h.symm.trans heq) (by decide)⟩

theorem Fine.of_bracket {v : Visited} (h : v.label.kind = .bracket) (hparent : v.isParent = true) :
    v.Fine :=
  ⟨fun heq => absurd (h.symm.trans heq) (by decide), fun _ => hparent,
    fun heq => absurd (h.symm.trans heq) (by decide)⟩

/-- What grouping says of the node when it is a fault. -/
def complaint (v : Visited) : Rebuilding.Error :=
  if v.label.kind = .bracket then .violation (.invalidRedirect (.leafInput v.id))
  else .unclaimed v.id v.index

theorem isRejection_complaint (v : Visited) : v.complaint.isRejection = false := by
  unfold complaint
  split <;> rfl

end Visited

mutual

/-- A node, and in a bracket all that follows inside, in document order. -/
def visits (index : Nat) : SourceTerm → List Visited
  | .leaf a => [⟨a.1, index, a.2, false⟩]
  | .branch a inner =>
      ⟨a.1, index, a.2, true⟩ :: if a.2.kind = .bracket then visitsAll 0 inner else []

/-- The nodes that are visited in a child list, the first of which has the given index. -/
def visitsAll (index : Nat) : List SourceTerm → List Visited
  | [] => []
  | X :: rest => visits index X ++ visitsAll (index + 1) rest

end

mutual

/-- The largest number of visited brackets on a path down from a node. -/
def nesting : SourceTerm → Nat
  | .leaf a => if a.2.kind = .bracket then 1 else 0
  | .branch a inner => if a.2.kind = .bracket then nestingAll inner + 1 else 0

/-- The largest number of visited brackets on a path down from one of several nodes. -/
def nestingAll : List SourceTerm → Nat
  | [] => 0
  | X :: rest => max (nesting X) (nestingAll rest)

end

theorem nesting_le_of_mem {X : SourceTerm} {Xs : List SourceTerm} (hX : X ∈ Xs) :
    nesting X ≤ nestingAll Xs := by
  induction Xs with
  | nil => cases hX
  | cons Y Xs ih =>
      rw [nestingAll]
      rcases List.mem_cons.1 hX with rfl | hmem
      · exact Nat.le_max_left _ _
      · exact Nat.le_trans (ih hmem) (Nat.le_max_right _ _)

/-! ## Verdicts on lists of nodes -/

/-- The result of taking nodes: it fails at the first fault among them, and leaves a bench with at most
two open groups if there is none. -/
inductive Judged : List Visited → Except Rebuilding.Error Bench → Prop where
  | fine {vs : List Visited} {b : Bench} (all : ∀ v ∈ vs, v.Fine) (depth : b.depth ≤ 2) :
      Judged vs (.ok b)
  | fault {before after : List Visited} {v : Visited} (all : ∀ u ∈ before, u.Fine)
      (here : ¬ v.Fine) : Judged (before ++ v :: after) (.error v.complaint)

namespace Judged

variable {v : Visited} {vs first rest : List Visited} {x : Except Rebuilding.Error Bench}
variable {f : Bench → Except Rebuilding.Error Bench}

theorem single {b : Bench} (hv : v.Fine) (hdepth : b.depth ≤ 2) : Judged [v] (.ok b) :=
  .fine (fun _ hu => List.mem_singleton.1 hu ▸ hv) hdepth

theorem stop (hv : ¬ v.Fine) : Judged (v :: rest) (.error v.complaint) :=
  show Judged ([] ++ v :: rest) _ from .fault (List.forall_mem_nil _) hv

/-- Further nodes are taken when the first ones are fine. -/
theorem bind (hx : Judged first x) (hf : ∀ b : Bench, b.depth ≤ 2 → Judged rest (f b)) :
    Judged (first ++ rest) (x.bind f) := by
  cases hx with
  | @fault before after v hall hv =>
      rw [List.append_assoc, List.cons_append]
      exact .fault hall hv
  | @fine _ b hall hdepth =>
      change Judged (first ++ rest) (f b)
      have hrest := hf b hdepth
      generalize f b = y at hrest
      have hfirst : ∀ {more : List Visited}, (∀ u ∈ more, u.Fine) → ∀ u ∈ first ++ more, u.Fine :=
        fun hmore u hu => (List.mem_append.1 hu).elim (hall u) (hmore u)
      cases hrest with
      | fine hmore hdepth' => exact .fine (hfirst hmore) hdepth'
      | @fault before after v hmore hv =>
          rw [← List.append_assoc]
          exact .fault (hfirst hmore) hv

/-- A node that is fine itself, around others. -/
theorem cons (hv : v.Fine) (hx : Judged vs x) : Judged (v :: vs) x := by
  have hnode : Judged [v] (.ok .clear) := .single hv (Nat.zero_le 2)
  exact hnode.bind (f := fun _ => x) fun _ _ => hx

theorem map {g : Bench → Bench} (hx : Judged vs x) (hg : ∀ b, (g b).depth ≤ 2) :
    Judged vs (x.map g) := by
  cases hx with
  | fine hall hdepth => exact .fine hall (hg _)
  | fault hall hv => exact .fault hall hv

/-- Without a fault the nodes are taken, and only then. -/
theorem isOk_iff (hx : Judged vs x) : (∃ b, x = .ok b) ↔ ∀ v ∈ vs, v.Fine := by
  cases hx with
  | @fine _ b hall hdepth => exact ⟨fun _ => hall, fun _ => ⟨b, rfl⟩⟩
  | @fault before after v hall hv =>
      refine ⟨fun ⟨b, hb⟩ => (nomatch hb), fun hfine => absurd (hfine v ?_) hv⟩
      exact List.mem_append_right _ List.mem_cons_self

/-- What is said is said of the first fault. -/
theorem eq_error {before after : List Visited} (hx : Judged (before ++ v :: after) x)
    (hall : ∀ u ∈ before, u.Fine) (hv : ¬ v.Fine) : x = .error v.complaint := by
  generalize hvs : before ++ v :: after = vs at hx
  cases hx with
  | fine hfine hdepth =>
      exact absurd (hfine v (hvs ▸ List.mem_append_right _ List.mem_cons_self)) hv
  | @fault before' after' u hall' hu =>
      -- Of two places for the first fault none lies in front of the other.
      have hsame : v = u := by
        rcases List.append_eq_append_iff.1 hvs with ⟨more, rfl, hmore⟩ | ⟨more, rfl, hmore⟩
        · cases more with
          | nil => exact (List.cons.inj hmore).1
          | cons w more =>
              obtain rfl := (List.cons.inj hmore).1
              exact absurd (hall' v (List.mem_append_right _ List.mem_cons_self)) hv
        · cases more with
          | nil => exact (List.cons.inj hmore).1.symm
          | cons w more =>
              obtain rfl := (List.cons.inj hmore).1
              exact absurd (hall u (List.mem_append_right _ List.mem_cons_self)) hu
      rw [hsame]

theorem not_isRejection {e : Rebuilding.Error} (hx : Judged vs (.error e)) :
    e.isRejection = false := by
  cases hx with
  | @fault before after v hall hv => exact v.isRejection_complaint

end Judged

/-! ## The bench -/

section Bench

variable {limit base index : Nat} {b : Bench}

/-- A node whose children, if it has any, are not visited. -/
theorem judged_takeLeaf {id : NodeId} {label : Label SyntaxKind Literal} {isParent : Bool}
    {rest : List Visited} (hroom : base + 3 ≤ limit) (hdepth : b.depth ≤ 2)
    (hleaf : label.kind = .bracket → isParent = false) (hrest : label.kind ≠ .bracket → rest = []) :
    Judged (⟨id, index, label, isParent⟩ :: rest) (b.takeLeaf limit base index id label) := by
  have hflush : b.flush.depth ≤ 2 := by
    rw [Bench.depth_flush]
    exact hdepth
  have hroomy : ∀ c : Bench, c.depth ≤ 2 → c.seat limit base = .ok c := fun c => seat_of_room hroom
  cases hkind : label.kind with
  | number =>
      rw [hrest (by rw [hkind]; decide), b.takeLeaf_number label hkind, hroomy _ hflush]
      exact .single (.of_operand (.inl hkind)) hflush
  | name =>
      rw [hrest (by rw [hkind]; decide), b.takeLeaf_name label hkind, hroomy _ hflush]
      exact .single (.of_operand (.inr hkind)) hflush
  | operator =>
      rw [hrest (by rw [hkind]; decide)]
      cases hvalue : label.value.bind Literal.operator? with
      | none =>
          -- Nobody claims an operator without its mark.
          have hcomplaint : (Visited.mk id index label isParent).complaint = .unclaimed id index :=
            if_neg (by rw [hkind]; decide)
          rw [b.takeLeaf_unmarked label hkind hvalue, ← hcomplaint]
          refine .stop fun hfine => ?_
          have hmarked := hfine.marked hkind
          rw [hvalue] at hmarked
          cases hmarked
      | some op =>
          have hturned : (b.flush.turnTo op.level).depth ≤ 2 := by
            rw [Bench.depth_turnTo]
            exact op.level.rank_le
          rw [b.takeLeaf_operator label hkind hvalue, hroomy _ hturned]
          exact .single (.of_operator hkind (by rw [hvalue]; rfl)) hturned
  | bracket =>
      -- The bracket is copied, but there is no list that could be traversed.
      have hcomplaint : (Visited.mk id index label isParent).complaint =
          .violation (.invalidRedirect (.leafInput id)) := if_pos hkind
      have htake : b.takeLeaf limit base index id label =
          .error (.violation (.invalidRedirect (.leafInput id))) := by
        simp only [Bench.takeLeaf, hkind]
        rw [seatBracket_of_room hroom hdepth]
        rfl
      rw [htake, ← hcomplaint]
      refine .stop fun hfine => ?_
      have hparent := hfine.parent hkind
      rw [hleaf hkind] at hparent
      cases hparent
  | calculator =>
      have hcomplaint : (Visited.mk id index label isParent).complaint = .unclaimed id index :=
        if_neg (by rw [hkind]; decide)
      have htake : b.takeLeaf limit base index id label = .error (.unclaimed id index) := by
        simp only [Bench.takeLeaf, hkind]
      rw [htake, ← hcomplaint]
      exact .stop fun hfine => hfine.inner hkind

/-- Wherever there is room for its brackets, taking the node fails at its first fault. -/
def FailsAtFault (limit : Nat) (X : SourceTerm) : Prop :=
  ∀ base index b, base + 4 * nesting X + 3 ≤ limit → Bench.depth b ≤ 2 →
    Judged (visits index X) (b.take limit base index X)

theorem judged_takeAll {Xs : List SourceTerm} (hXs : ∀ X ∈ Xs, FailsAtFault limit X)
    (hroom : base + 4 * nestingAll Xs + 3 ≤ limit) (hdepth : b.depth ≤ 2) :
    Judged (visitsAll index Xs) (b.takeAll limit base index Xs) := by
  have hroomy : ∀ X ∈ Xs, base + 4 * nesting X + 3 ≤ limit := by
    intro X hX
    have hle := nesting_le_of_mem hX
    omega
  clear hroom
  induction Xs generalizing b index with
  | nil => exact .fine (fun v hv => nomatch hv) hdepth
  | cons X Xs ih =>
      rw [visitsAll, Bench.takeAll]
      refine (hXs X List.mem_cons_self base index b (hroomy X List.mem_cons_self) hdepth).bind ?_
      intro b' hdepth'
      exact ih (fun Y hY => hXs Y (List.mem_cons_of_mem _ hY)) hdepth'
        fun Y hY => hroomy Y (List.mem_cons_of_mem _ hY)

theorem failsAtFault (limit : Nat) (X : SourceTerm) : FailsAtFault limit X := by
  induction X using Term.induction with
  | leaf a =>
      intro base index b hroom hdepth
      exact judged_takeLeaf (by omega) hdepth (fun _ => rfl) fun _ => rfl
  | branch a inner ih =>
      intro base index b hroom hdepth
      rw [visits, Bench.take]
      by_cases hkind : a.2.kind = .bracket
      · -- A bracket takes two frames, and at most two groups stand open around it.
        rw [nesting, if_pos hkind] at hroom
        rw [if_pos hkind, if_pos hkind, seatBracket_of_room (by omega) hdepth]
        change Judged _ ((b.seat limit (base + 1)).bind _)
        rw [seat_of_room (by omega) hdepth]
        have hinside : Judged (visitsAll 0 inner)
            (Bench.takeAll limit (base + b.depth + 2) 0 .clear inner) :=
          judged_takeAll ih (by omega) (Nat.zero_le 2)
        exact .cons (.of_bracket hkind rfl) (hinside.map fun _ => hdepth)
      · rw [if_neg hkind, if_neg hkind]
        exact judged_takeLeaf (by omega) hdepth (fun heq => absurd heq hkind) fun _ => rfl

end Bench

/-! ## Flat trees -/

section Groups

variable {t : SyntaxTree} {T : SourceTerm} {limits : Limits}

/-- A tree is grouped exactly if the bench takes all its nodes. -/
theorem group_eq_success_iff (hT : t.idTerm? Tree.root = some T) (hplain : Plain T) :
    (∃ out, group t limits = .success out) ↔
      ∃ b, Bench.takeAll limits.maxDepth 0 0 .clear T.children = .ok b := by
  have hgroup := group_eq limits hT hplain
  cases htake : Bench.takeAll limits.maxDepth 0 0 .clear T.children with
  | error e =>
      rw [htake] at hgroup
      change group t limits = .failure e at hgroup
      rw [hgroup]
      exact ⟨fun ⟨out, hout⟩ => (nomatch hout), fun ⟨b, hb⟩ => (nomatch hb)⟩
  | ok b =>
      rcases exists_group hT hplain htake with ⟨out, hout, -⟩
      exact ⟨fun _ => ⟨b, rfl⟩, fun _ => ⟨out, hout⟩⟩

/-- Grouping fails exactly as the bench does. -/
theorem group_eq_failure_iff {e : Rebuilding.Error} (hT : t.idTerm? Tree.root = some T)
    (hplain : Plain T) : group t limits = .failure e ↔
      Bench.takeAll limits.maxDepth 0 0 .clear T.children = .error e := by
  have hgroup := group_eq limits hT hplain
  cases htake : Bench.takeAll limits.maxDepth 0 0 .clear T.children with
  | error e' =>
      rw [htake] at hgroup
      change group t limits = .failure e' at hgroup
      rw [hgroup]
      exact ⟨fun heq => congrArg _ (Outcome.failure.inj heq),
        fun heq => congrArg _ (Except.error.inj heq)⟩
  | ok b =>
      rcases exists_group hT hplain htake with ⟨out, hout, -⟩
      rw [hout]
      exact ⟨fun heq => (nomatch heq), fun heq => (nomatch heq)⟩

/-- With room for all brackets, the bench fails at the first fault of the tree. -/
theorem judged_tree (hroom : 4 * nestingAll T.children + 3 ≤ limits.maxDepth) :
    Judged (visitsAll 0 T.children)
      (Bench.takeAll limits.maxDepth 0 0 .clear T.children) :=
  judged_takeAll (fun X _ => failsAtFault limits.maxDepth X) (by omega) (Nat.zero_le 2)

end Groups

/-! ## Texts -/

/-- The largest number of brackets that are open at once, with some open in front of the tokens. -/
def deepest (opens : List Nat) : List Token → Nat
  | [] => opens.length
  | token :: rest => max opens.length (deepest (opensAfter opens token) rest)

theorem length_le_deepest (opens : List Nat) (tokens : List Token) :
    opens.length ≤ deepest opens tokens := by
  cases tokens with
  | nil => exact Nat.le_refl _
  | cons token rest => exact Nat.le_max_left _ _

/-- Terms that stand in the tree of a text, with a bound for the brackets on a path. -/
inductive Tidy : Nat → SyntaxTerm → Prop where
  | leaf {depth : Nat} {label : Label SyntaxKind Literal} (bracket : label.kind ≠ .bracket)
      (calculator : label.kind ≠ .calculator)
      (marked : label.kind = .operator ↔ (label.value.bind Literal.operator?).isSome = true) :
      Tidy depth (.leaf label)
  | bracket {depth : Nat} {label : Label SyntaxKind Literal} {inner : List SyntaxTerm}
      (kind : label.kind = .bracket) (value : label.value = none)
      (inside : ∀ T ∈ inner, Tidy depth T) : Tidy (depth + 1) (.branch label inner)

/-- The terms in front of the open brackets, the innermost first, are tidy. -/
def TidyAround (depth : Nat) : List (Nat × List SyntaxTerm) → Prop
  | [] => True
  | level :: levels => (∀ T ∈ level.2, Tidy (depth + 1) T) ∧ TidyAround (depth + 1) levels

section Texts

variable {text : SourceText} {depth : Nat} {T : SyntaxTerm} {items shown : List SyntaxTerm}

theorem tidy_token {token : Token} (hopening : token.kind ≠ .opening)
    (hclosing : token.kind ≠ .closing) : Tidy depth (.leaf (token.label text)) := by
  cases hkind : token.kind with
  | opening => exact absurd hkind hopening
  | closing => exact absurd hkind hclosing
  | number => constructor <;> simp [Token.label, hkind, Literal.operator?]
  | name => constructor <;> simp [Token.label, hkind, Literal.operator?]
  | operator op => constructor <;> simp [Token.label, hkind, Literal.operator?]

theorem tidy_append (hitems : ∀ S ∈ items, Tidy depth S) (hT : Tidy depth T) :
    ∀ S ∈ items ++ [T], Tidy depth S := by
  intro S hS
  rcases List.mem_append.1 hS with hold | hnew
  · exact hitems S hold
  · exact List.mem_singleton.1 hnew ▸ hT

/-- Nesting tidy terms gives tidy terms. -/
theorem tidy_nest {levels : List (Nat × List SyntaxTerm)} {tokens : List Token}
    (hitems : ∀ T ∈ items, Tidy depth T) (haround : TidyAround depth levels)
    (hdeepest : deepest (levels.map Prod.fst) tokens ≤ depth + levels.length)
    (h : nest text levels items tokens = some shown) :
    ∀ T ∈ shown, Tidy (depth + levels.length) T := by
  -- By induction on the tokens; a bracket that opens takes one level from `depth`.
  induction tokens generalizing depth levels items with
  | nil =>
      cases levels with
      | nil =>
          obtain rfl : items = shown := Option.some.inj h
          exact hitems
      | cons level levels => cases h
  | cons token rest ih =>
      have hrest : deepest (opensAfter (levels.map Prod.fst) token) rest ≤ depth + levels.length :=
        Nat.le_trans (Nat.le_max_right _ _) hdeepest
      by_cases hopening : token.kind = .opening
      · rw [nest_opening hopening] at h
        rw [opensAfter_opening hopening] at hrest
        -- The new bracket is open behind the token, so there was a level left for it.
        have hlength := length_le_deepest (token.start :: levels.map Prod.fst) rest
        rw [List.length_cons, List.length_map] at hlength
        obtain ⟨below, rfl⟩ : ∃ below, depth = below + 1 := ⟨depth - 1, by omega⟩
        have hsum : below + 1 + levels.length = below + ((token.start, items) :: levels).length := by
          rw [List.length_cons]
          omega
        rw [hsum] at hrest ⊢
        exact ih (List.forall_mem_nil _) ⟨hitems, haround⟩ hrest h
      · by_cases hclosing : token.kind = .closing
        · rcases levels with _ | ⟨⟨start, outer⟩, levels⟩
          · simp [nest, hclosing] at h
          · rw [nest_closing hclosing] at h
            rw [opensAfter_closing hclosing, List.map_cons, List.tail_cons] at hrest
            have hsum : depth + ((start, outer) :: levels).length = depth + 1 + levels.length := by
              rw [List.length_cons]
              omega
            rw [hsum] at hrest ⊢
            exact ih (tidy_append haround.1 (.bracket rfl rfl hitems)) haround.2 hrest h
        · rw [opensAfter_leaf hopening hclosing] at hrest
          rw [nest_leaf hopening hclosing] at h
          exact ih (tidy_append hitems (tidy_token hopening hclosing)) haround hrest h

/-- A number that took its sign is tidy as well. -/
theorem tidy_negated (sign number : SyntaxTerm) : Tidy depth (negated sign number) := by
  unfold negated
  generalize number.label.value.bind Literal.number? = value
  cases value <;> constructor <;> simp [Literal.operator?]

theorem tidy_takeSign (hitems : ∀ T ∈ items, Tidy depth T) : ∀ T ∈ takeSign items, Tidy depth T := by
  match items, hitems with
  | [], hitems => exact hitems
  | [first], hitems => exact hitems
  | first :: second :: rest, hitems =>
      intro T hT
      rw [takeSign] at hT
      split at hT
      · rcases List.mem_cons.1 hT with rfl | hmem
        · exact tidy_negated first second
        · exact hitems T (List.mem_cons_of_mem _ (List.mem_cons_of_mem _ hmem))
      · exact hitems T hT

theorem signedAll_eq_map (items : List SyntaxTerm) : signedAll items = items.map signed := by
  induction items with
  | nil => rfl
  | cons T items ih => rw [signedAll, ih, List.map_cons]

theorem Tidy.signed (h : Tidy depth T) : Tidy depth (signed T) := by
  induction h with
  | leaf bracket calculator marked => exact .leaf bracket calculator marked
  | bracket kind value inside ih =>
      refine .bracket kind value (tidy_takeSign ?_)
      rw [signedAll_eq_map]
      intro T hT
      rcases List.mem_map.1 hT with ⟨S, hS, rfl⟩
      exact ih S hS

theorem tidy_finished (hitems : ∀ T ∈ items, Tidy depth T) : ∀ T ∈ finished items, Tidy depth T := by
  refine tidy_takeSign ?_
  rw [signedAll_eq_map]
  intro T hT
  rcases List.mem_map.1 hT with ⟨S, hS, rfl⟩
  exact (hitems S hS).signed

/-- Nothing in the term is a fault, no path has more than `depth` brackets, and no node but an operator
carries an operator. -/
structure Faultless (depth : Nat) (X : SourceTerm) : Prop where
  fine : ∀ index, ∀ v ∈ visits index X, v.Fine
  nesting_le : nesting X ≤ depth
  plain : Plain X

theorem visitsAll_fine {Xs : List SourceTerm} (hXs : ∀ X ∈ Xs, Faultless depth X) (index : Nat) :
    ∀ v ∈ visitsAll index Xs, v.Fine := by
  induction Xs generalizing index with
  | nil => exact fun v hv => nomatch hv
  | cons X Xs ih =>
      intro v hv
      rcases List.mem_append.1 hv with hfirst | hrest
      · exact (hXs X List.mem_cons_self).fine index v hfirst
      · exact ih (fun Y hY => hXs Y (List.mem_cons_of_mem _ hY)) (index + 1) v hrest

theorem nestingAll_le {Xs : List SourceTerm} (hXs : ∀ X ∈ Xs, Faultless depth X) :
    nestingAll Xs ≤ depth := by
  induction Xs with
  | nil => exact Nat.zero_le _
  | cons X Xs ih =>
      exact Nat.max_le.2 ⟨(hXs X List.mem_cons_self).nesting_le,
        ih fun Y hY => hXs Y (List.mem_cons_of_mem _ hY)⟩

/-- What none of the terms breaks, the node around them does not break either. -/
theorem plain_branch {a : NodeId × Label SyntaxKind Literal} {inner : List SourceTerm}
    (ha : a.2.kind ≠ .operator → a.2.value.bind Literal.operator? = none)
    (hinner : ∀ X ∈ inner, Plain X) : Plain (.branch a inner) := by
  intro c hc
  rcases Term.mem_labels_branch.1 hc with rfl | ⟨X, hX, hcX⟩
  · exact ha
  · exact hinner X hX c hcX

theorem Tidy.faultless {X : SourceTerm} (h : Tidy depth (X.map Prod.snd)) : Faultless depth X := by
  induction X using Term.induction generalizing depth with
  | leaf a =>
      cases h with
      | leaf bracket calculator marked =>
          refine ⟨?_, ?_, ?_⟩
          · intro index v hv
            obtain rfl := List.mem_singleton.1 hv
            exact ⟨marked.1, fun heq => absurd heq bracket, calculator⟩
          · rw [nesting, if_neg bracket]
            exact Nat.zero_le _
          · intro c hc hkind
            obtain rfl := List.mem_singleton.1 hc
            exact Option.not_isSome_iff_eq_none.1 fun hsome => hkind (marked.2 hsome)
  | branch a inner ih =>
      rw [Term.map, Term.mapList_eq_map] at h
      cases h with
      | @bracket depth _ _ kind value inside =>
          have hinner : ∀ X ∈ inner, Faultless depth X :=
            fun X hX => ih X hX (inside _ (List.mem_map_of_mem hX))
          refine ⟨?_, ?_, ?_⟩
          · intro index v hv
            rw [visits, if_pos kind] at hv
            rcases List.mem_cons.1 hv with rfl | hmem
            · exact .of_bracket kind rfl
            · exact visitsAll_fine hinner 0 v hmem
          · rw [nesting, if_pos kind]
            exact Nat.succ_le_succ (nestingAll_le hinner)
          · exact plain_branch (fun _ => by rw [value]; rfl) fun X hX => (hinner X hX).plain

/-- The tree of a text unfolds to its nested tokens with all signs taken, and all of them are tidy. -/
theorem tidy_of_read {text : SourceText} {limits : Limits} {t : SyntaxTree}
    (h : read text limits = .ok t) : ∃ T items, t.idTerm? Tree.root = some T ∧
      nest text [] [] (tokens text) = some items ∧
      T.map Prod.snd = .branch (rootLabel text) (finished items) ∧
      ∀ X ∈ T.children, Tidy (deepest [] (tokens text)) (X.map Prod.snd) := by
  rcases nest_of_read h with ⟨items, hnest, hterm⟩
  rcases Option.map_eq_some_iff.1 hterm with ⟨T, hT, hmap⟩
  have haround : TidyAround (deepest [] (tokens text)) [] := trivial
  have hitems : ∀ S ∈ items, Tidy (deepest [] (tokens text)) S :=
    tidy_nest (List.forall_mem_nil _) haround (Nat.le_refl _) hnest
  have hchildren : T.children.map (Term.map Prod.snd) = finished items := by
    rw [← Term.children_map, hmap]
    rfl
  refine ⟨T, items, hT, hnest, hmap, fun X hX => tidy_finished hitems _ ?_⟩
  rw [← hchildren]
  exact List.mem_map_of_mem hX

/-- What stands in the root of a text carries no operator either. -/
theorem plain_of_faultless {text : SourceText} {T : SourceTerm} {items : List SyntaxTerm}
    (hmap : T.map Prod.snd = .branch (rootLabel text) items)
    (hfaultless : ∀ X ∈ T.children, Faultless depth X) : Plain T := by
  cases T with
  | leaf a => cases hmap
  | branch a inner =>
      have hlabel : a.2 = rootLabel text := congrArg Term.label hmap
      exact plain_branch (fun _ => by rw [hlabel]; rfl) fun X hX => (hfaultless X hX).plain

/-- The tree of a text unfolds, and nothing in it is a fault. -/
theorem faultless_of_read {text : SourceText} {limits : Limits} {t : SyntaxTree}
    (h : read text limits = .ok t) : ∃ T, t.idTerm? Tree.root = some T ∧ Plain T ∧
      ∀ X ∈ T.children, Faultless (deepest [] (tokens text)) X := by
  rcases tidy_of_read h with ⟨T, items, hT, -, hmap, htidy⟩
  have hfaultless : ∀ X ∈ T.children, Faultless (deepest [] (tokens text)) X :=
    fun X hX => (htidy X hX).faultless
  exact ⟨T, hT, plain_of_faultless hmap hfaultless, hfaultless⟩

/-- The tree of a text is grouped, if there is room for its brackets. -/
theorem exists_group_of_read {text : SourceText} {reading : Limits} {flat : SyntaxTree}
    (limits : Limits) (hread : read text reading = .ok flat)
    (hroom : 4 * deepest [] (tokens text) + 3 ≤ limits.maxDepth) :
    ∃ out, group flat limits = .success out := by
  rcases faultless_of_read hread with ⟨T, hT, hplain, hfaultless⟩
  have hnesting := nestingAll_le hfaultless
  have hjudged : Judged (visitsAll 0 T.children)
      (Bench.takeAll limits.maxDepth 0 0 .clear T.children) := judged_tree (by omega)
  exact (group_eq_success_iff hT hplain).2 (hjudged.isOk_iff.2 (visitsAll_fine hfaultless 0))

end Texts

/-! ## The result -/

/-- Grouping fails only for a fault in the tree, and names the first one.  Under a limit of four frames
for each level of visited brackets and three more, a tree is grouped exactly if it has no fault; it
fails at the first fault in document order otherwise, and never with a rejection.  The tree of a text
that was read has no fault. -/
theorem group_first_fault :
    (∀ (t : SyntaxTree) (T : SourceTerm) (limits : Limits), t.idTerm? Tree.root = some T → Plain T →
      4 * nestingAll T.children + 3 ≤ limits.maxDepth →
        ((∃ out, group t limits = .success out) ↔ ∀ v ∈ visitsAll 0 T.children, v.Fine) ∧
        (∀ before v after, visitsAll 0 T.children = before ++ v :: after →
          (∀ u ∈ before, u.Fine) → ¬ v.Fine → group t limits = .failure v.complaint) ∧
        ∀ e, group t limits = .failure e → e.isRejection = false) ∧
    ∀ (text : SourceText) (reading : Limits) (flat : SyntaxTree) (limits : Limits),
      read text reading = .ok flat → 4 * deepest [] (tokens text) + 3 ≤ limits.maxDepth →
        ∃ out, group flat limits = .success out := by
  constructor
  · intro t T limits hT hplain hroom
    have hjudged := judged_tree hroom
    refine ⟨(group_eq_success_iff hT hplain).trans hjudged.isOk_iff, ?_, ?_⟩
    · intro before v after hvisits hall hv
      rw [hvisits] at hjudged
      exact (group_eq_failure_iff hT hplain).2 (hjudged.eq_error hall hv)
    · intro e he
      rw [(group_eq_failure_iff hT hplain).1 he] at hjudged
      exact hjudged.not_isRejection
  · exact fun text reading flat limits hread hroom => exists_group_of_read limits hread hroom

/-- A bracket with two operators, and behind it an operator without a value: `(*-) ?`. -/
def unmarkedOperator : SyntaxTerm :=
  let operator (value : Option Literal) : SyntaxTerm := .leaf ⟨.operator, value, none⟩
  .branch ⟨.calculator, none, none⟩
    [.branch ⟨.bracket, none, none⟩
      [operator (some (.operator .mul)), operator (some (.operator .sub))], operator none]

/-- It fails at the operator without a value; as a text, without that operator, it is grouped. -/
theorem group_unmarkedOperator :
    group (Tree.ofTerm unmarkedOperator) ⟨7⟩ = .failure (.unclaimed 4 1) ∧
      ∃ flat out, read (SourceText.ofString "(*-)") {} = .ok flat ∧ group flat ⟨7⟩ = .success out := by
  constructor
  · obtain ⟨T, before, v, hT, hplain, hroom, hvisits, hall, hv, hcomplaint⟩ :
        ∃ (T : SourceTerm) (before : List Visited) (v : Visited),
          (Tree.ofTerm unmarkedOperator).idTerm? Tree.root = some T ∧ Plain T ∧
            4 * nestingAll T.children + 3 ≤ 7 ∧ visitsAll 0 T.children = before ++ v :: [] ∧
              (∀ u ∈ before, u.Fine) ∧ ¬ v.Fine ∧ v.complaint = .unclaimed 4 1 := by
      refine ⟨_, [⟨1, 0, ⟨.bracket, none, none⟩, true⟩,
        ⟨2, 0, ⟨.operator, some (.operator .mul), none⟩, false⟩,
        ⟨3, 1, ⟨.operator, some (.operator .sub), none⟩, false⟩],
        ⟨4, 1, ⟨.operator, none, none⟩, false⟩, rfl, ?_, by decide, rfl, ?_, ?_, rfl⟩
      · unfold Plain
        decide
      · intro u hu
        simp only [List.mem_cons, List.not_mem_nil, or_false] at hu
        rcases hu with rfl | rfl | rfl
        · exact .of_bracket rfl rfl
        · exact .of_operator rfl rfl
        · exact .of_operator rfl rfl
      · exact fun hfine => absurd (hfine.marked rfl) (by decide)
    have hfailure := (group_first_fault.1 (Tree.ofTerm unmarkedOperator) T ⟨7⟩ hT hplain hroom).2.1
      before v [] hvisits hall hv
    rw [hfailure, hcomplaint]
  · have hok : (read (SourceText.ofString "(*-)") {}).isOk = true := by
      rw [read_eq_foldlM]
      decide +kernel
    cases h : read (SourceText.ofString "(*-)") {} with
    | error e =>
        rw [h] at hok
        cases hok
    | ok flat =>
        have hroom : 4 * deepest [] (tokens (SourceText.ofString "(*-)")) + 3 ≤ 7 := by decide +kernel
        rcases group_first_fault.2 _ _ flat ⟨7⟩ h hroom with ⟨out, hout⟩
        exact ⟨flat, out, rfl, hout⟩

end Calculator
end FeatureTree
