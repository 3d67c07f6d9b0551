import FeatureTree.Proofs.Calculator.Grouped
import FeatureTree.Proofs.Calculator.Parse

/-!
# Restoring — the flat child lists behind an expression tree

Grouping moves operands into groups, and a name and a bracket into one function.  `restoreAll` takes
this back: a group gives way to its members, and a function to a name and a bracket.  `sequence` is the
child list of the flat tree in the same terms.

`restore_group` says that a tree that is grouped is restored to the child lists it came from, whatever
stands in them: nothing is lost, nothing is there twice, and nothing changes places.  A bracket that
carries a value of its own is copied without it; `bracket_value_dropped` is an example.

The bench carries the proof.  Opening and closing groups changes no restored list, and laying a term
adds its items at the end.
-/

namespace FeatureTree
namespace Calculator

open Rebuilding

/-! ## Items -/

/-- Where an item lies: on a span of its own, or on the span that a name and its bracket have
together. -/
inductive Extent where
  | own (position : Option Position)
  | shared (position : Option Position)
  deriving DecidableEq, Repr

namespace Extent

def position : Extent → Option Position
  | own position => position
  | shared position => position

end Extent

/-- What is compared of a node: its kind in the flat tree, its value and where it lies. -/
structure Item where
  kind : SyntaxKind
  value : Option Literal
  extent : Extent
  deriving DecidableEq, Repr

/-- The item of a node with a span of its own. -/
def ownItem (kind : SyntaxKind) (value : Option Literal) (position : Option Position) : Item :=
  ⟨kind, value, .own position⟩

/-! ### Items of an expression tree -/

/-- The kind of the node that was copied; groups and functions are no copies. -/
def sourceKind : ExprKind → SyntaxKind
  | .number => .number
  | .operator => .operator
  | .bareName => .name
  | .bracket => .bracket
  | .calculator | .group | .function => .calculator

mutual

/-- The items of a term, with groups and functions taken apart. -/
def restore : ExprTerm → List (Term Item)
  | .leaf label => [.leaf (ownItem (sourceKind label.kind) label.value label.position)]
  | .branch label members =>
      match label.kind with
      | .group => restoreAll members
      | .function =>
          [.leaf ⟨.name, label.value, .shared label.position⟩,
            .branch ⟨.bracket, none, .shared label.position⟩ (restoreAll members)]
      | kind => [.branch (ownItem (sourceKind kind) label.value label.position) (restoreAll members)]

/-- The items of several terms, one after the other. -/
def restoreAll : List ExprTerm → List (Term Item)
  | [] => []
  | T :: rest => restore T ++ restoreAll rest

end

/-! ### Items of a flat tree -/

/-- A name and the bracket right behind it lie on one span, from the start of the name to the end of
the bracket. -/
def shareSpans : List (Term Item) → List (Term Item)
  | .leaf name :: .branch bracket inner :: rest =>
      if name.kind = .name then
        let span := Piece.spanOf? name.extent.position bracket.extent.position
        .leaf { name with extent := .shared span } ::
          .branch { bracket with extent := .shared span } inner :: shareSpans rest
      else .leaf name :: shareSpans (.branch bracket inner :: rest)
  | T :: rest => T :: shareSpans rest
  | [] => []

mutual

/-- The item of a node; only brackets have items inside, and they have no value. -/
def item : SyntaxTerm → Term Item
  | .leaf label => .leaf (ownItem label.kind label.value label.position)
  | .branch label inner =>
      if label.kind = .bracket then
        .branch (ownItem .bracket none label.position) (shareSpans (items inner))
      else .leaf (ownItem label.kind label.value label.position)

/-- The items of several nodes. -/
def items : List SyntaxTerm → List (Term Item)
  | [] => []
  | T :: rest => item T :: items rest

end

/-- The items of a child list. -/
def sequence (nodes : List SyntaxTerm) : List (Term Item) := shareSpans (items nodes)

/-! ## Small facts -/

theorem restoreAll_append (first second : List ExprTerm) :
    restoreAll (first ++ second) = restoreAll first ++ restoreAll second := by
  induction first with
  | nil => rfl
  | cons T first ih => rw [List.cons_append, restoreAll, restoreAll, ih, List.append_assoc]

theorem restoreAll_singleton (T : ExprTerm) : restoreAll [T] = restore T := List.append_nil _

theorem restore_group_term {label : Label ExprKind Literal} {members : List ExprTerm}
    (h : label.kind = .group) : restore (.branch label members) = restoreAll members := by
  rw [restore, h]

theorem shareSpans_cons {T : Term Item} {rest : List (Term Item)} (h : T.label.kind ≠ .name) :
    shareSpans (T :: rest) = T :: shareSpans rest := by
  cases T with
  | branch label inner => rfl
  | leaf label =>
      rcases rest with _ | ⟨_ | _, rest⟩
      · rfl
      · rfl
      · exact if_neg h

theorem shareSpans_leaf {label label' : Item} {rest : List (Term Item)} :
    shareSpans (.leaf label :: .leaf label' :: rest) =
      .leaf label :: shareSpans (.leaf label' :: rest) := rfl

theorem shareSpans_applied {name bracket : Item} {inner rest : List (Term Item)}
    (h : name.kind = .name) :
    shareSpans (.leaf name :: .branch bracket inner :: rest) =
      .leaf { name with
        extent := .shared (Piece.spanOf? name.extent.position bracket.extent.position) } ::
        .branch { bracket with
          extent := .shared (Piece.spanOf? name.extent.position bracket.extent.position) } inner ::
          shareSpans rest := if_pos h

theorem item_of_ne {T : SyntaxTerm} (h : T.label.kind ≠ .bracket) :
    item T = .leaf (ownItem T.label.kind T.label.value T.label.position) := by
  cases T with
  | leaf label => rfl
  | branch label inner => exact if_neg h

theorem item_bracket {label : Label SyntaxKind Literal} {inner : List SyntaxTerm}
    (h : label.kind = .bracket) : item (.branch label inner) =
      .branch (ownItem .bracket none label.position) (sequence inner) := if_pos h

/-! ## What lies on the bench -/

namespace Bench

variable {limit base index : Nat} {b b' : Bench} {more : List (Term Item)} {X : SourceTerm}

/-- The items of all lists under construction, the outermost first. -/
def restored (b : Bench) : List (Term Item) := restoreAll (b.outer.reverse.flatten ++ b.inner)

/-- The name that waits for a bracket. -/
def waiting (b : Bench) : List (Term Item) :=
  match b.name with
  | none => []
  | some name => [.leaf (ownItem .name name.value name.position)]

/-- The items on the bench, and further ones behind them. -/
def told (b : Bench) (more : List (Term Item)) : List (Term Item) :=
  b.restored ++ shareSpans (b.waiting ++ more)

theorem restored_eq (b : Bench) : b.restored = restoreAll b.terms := rfl

theorem restored_add (T : ExprTerm) (b : Bench) : (b.add T).restored = b.restored ++ restore T := by
  rw [restored_eq, terms_add, restoreAll_append, restoreAll_singleton, restored_eq]

/-- A group that is closed leaves the items where they are. -/
theorem restored_close (b : Bench) : b.close.restored = b.restored := by
  by_cases houter : b.outer = []
  · rw [close, houter]
  · have hgroup : restore (.branch (groupLabel b.depth b.inner) b.inner) = restoreAll b.inner :=
      restore_group_term rfl
    rcases terms_close houter with ⟨front, hlaid, hclose⟩
    rw [restored_eq, hclose, restoreAll_append, restoreAll_singleton, hgroup, ← restoreAll_append,
      ← hlaid, restored_eq]

/-- A group that is opened leaves the items where they are. -/
theorem restored_openGroup (b : Bench) : b.openGroup.restored = b.restored := by
  rw [restored_eq, terms_openGroup, restored_eq]

theorem restored_turnTo (level : Level) (b : Bench) : (b.turnTo level).restored = b.restored :=
  turnTo_induction (P := fun c => c.restored = b.restored) level rfl
    (fun c hc => c.restored_close.trans hc) fun c hc => c.restored_openGroup.trans hc

/-- A name that does not wait any longer is told as before. -/
theorem restored_flush (b : Bench) : b.flush.restored = b.restored ++ b.waiting := by
  rcases b with ⟨inner, outer, name⟩
  cases name with
  | none => exact (List.append_nil _).symm
  | some name =>
      exact restored_add (.leaf ⟨.bareName, name.value, name.position⟩) ⟨inner, outer, some name⟩

theorem told_of_name (h : b.name = none) : b.told more = b.restored ++ shareSpans more := by
  rw [told, waiting, h]
  rfl

/-- A leaf comes behind a waiting name, which stays a name. -/
theorem told_leaf (b : Bench) (label : Item) :
    b.told (.leaf label :: more) = b.flush.restored ++ shareSpans (.leaf label :: more) := by
  have hwaiting : shareSpans (b.waiting ++ .leaf label :: more) =
      b.waiting ++ shareSpans (.leaf label :: more) := by
    unfold waiting
    cases b.name with
    | none => rfl
    | some name => exact shareSpans_leaf
  rw [told, hwaiting, restored_flush, List.append_assoc]

/-- A leaf that is laid behind a waiting name. -/
theorem told_add {c : Bench} {T : ExprTerm} {label : Item} (hkind : label.kind ≠ .name)
    (hname : c.name = none) (hrestored : c.restored = b.flush.restored)
    (hT : restore T = [.leaf label]) : b.told (.leaf label :: more) = (c.add T).told more := by
  calc b.told (.leaf label :: more)
      = b.flush.restored ++ shareSpans (.leaf label :: more) := b.told_leaf label
    _ = (b.flush.restored ++ [.leaf label]) ++ shareSpans more := by
        rw [shareSpans_cons (T := .leaf label) hkind, List.append_assoc]
        rfl
    _ = (c.add T).restored ++ shareSpans more := by rw [restored_add, hrestored, hT]
    _ = (c.add T).told more := (told_of_name (b := c.add T) hname).symm

/-- A bracket that is laid, alone or as the function of a waiting name. -/
theorem told_enclose (b : Bench) (bracket : Label SyntaxKind Literal) (terms : List ExprTerm) :
    b.told (.branch (ownItem .bracket none bracket.position) (restoreAll terms) :: more) =
      (b.enclose bracket terms).told more := by
  rw [told_of_name (b := b.enclose bracket terms) rfl]
  change _ = (b.add (.branch (b.enclosure bracket) terms)).restored ++ _
  rw [restored_add, List.append_assoc, told, enclosure]
  rcases b with ⟨inner, outer, name⟩
  cases name with
  | none => rfl
  | some name => exact congrArg (restored ⟨inner, outer, some name⟩ ++ ·) (shareSpans_applied rfl)

/-! ### One node -/

/-- What a node adds is its item. -/
theorem told_takeLeaf {id : NodeId} {label : Label SyntaxKind Literal}
    (htake : b.takeLeaf limit base index id label = .ok b') :
    b.told (.leaf (ownItem label.kind label.value label.position) :: more) = b'.told more := by
  cases takeLeaf_eq_ok htake with
  | number hkind hb =>
      rw [hb, hkind]
      exact told_add (show SyntaxKind.number ≠ .name by decide) b.name_flush rfl rfl
  | name hkind hb =>
      rw [hb, hkind, told_leaf]
      rfl
  | operator op hkind hvalue hb =>
      rw [hb, hkind]
      -- The operator turns to its level first, which only opens and closes groups.
      exact told_add (show SyntaxKind.operator ≠ .name by decide)
        ((name_turnTo _ _).trans b.name_flush) (restored_turnTo _ _) rfl

/-- A bench that is finished is told as it is. -/
theorem restoreAll_finish (b : Bench) : restoreAll b.finish = b.told [] := by
  have hwaiting : shareSpans (b.waiting ++ []) = b.waiting := by
    unfold waiting
    cases b.name <;> rfl
  rw [← terms_turnTo_additive, ← restored_eq, restored_turnTo, restored_flush, told, hwaiting]

/-- The node of a term, wherever it is taken, adds its item. -/
def Tells (limit : Nat) (X : SourceTerm) : Prop :=
  ∀ base index b b', take limit base index b X = .ok b' →
    ∀ more, b.told (item (X.map Prod.snd) :: more) = b'.told more

theorem told_takeAll {Xs : List SourceTerm} (hXs : ∀ X ∈ Xs, Tells limit X) :
    takeAll limit base index b Xs = .ok b' →
      ∀ more, b.told (items (Xs.map (Term.map Prod.snd)) ++ more) = b'.told more := by
  induction Xs generalizing b index with
  | nil =>
      intro htake more
      obtain rfl := Except.ok.inj htake
      rfl
  | cons X Xs ih =>
      intro htake more
      rw [takeAll] at htake
      rcases bind_eq_ok htake with ⟨b₁, hfirst, hrest⟩
      rw [List.map_cons, items, List.cons_append,
        hXs X List.mem_cons_self base index b b₁ hfirst]
      exact ih (fun Y hY => hXs Y (List.mem_cons_of_mem _ hY)) hrest more

theorem tells (limit : Nat) (X : SourceTerm) : Tells limit X := by
  induction X using Term.induction with
  | leaf a =>
      intro base index b b' htake more
      exact told_takeLeaf htake
  | branch a inner ih =>
      intro base index b b' htake more
      by_cases hkind : a.2.kind = .bracket
      · -- Inside, a clear bench is filled; what it shows in the end is what the bracket holds.
        rcases takeBracket_eq_ok hkind htake with ⟨content, hcontent, hlaid⟩
        subst hlaid
        have hinside := told_takeAll ih hcontent []
        rw [List.append_nil, told_of_name rfl] at hinside
        have hsequence : sequence (inner.map (Term.map Prod.snd)) = restoreAll content.finish := by
          rw [restoreAll_finish, ← hinside]
          rfl
        rw [Term.map, Term.mapList_eq_map, item_bracket hkind, hsequence]
        exact b.told_enclose a.2 content.finish
      · rw [take, if_neg hkind] at htake
        rw [item_of_ne (by rw [Term.label_map]; exact hkind), Term.label_map]
        exact told_takeLeaf htake

end Bench

/-! ## The whole tree -/

/-- A tree is grouped if the bench takes all its nodes. -/
theorem exists_group {t : SyntaxTree} {T : SourceTerm} {limits : Limits} {b : Bench}
    (hT : t.idTerm? Tree.root = some T) (hplain : Plain T)
    (htake : Bench.takeAll limits.maxDepth 0 0 .clear T.children = .ok b) :
    ∃ out, group t limits = .success out ∧
      out.term? Tree.root = some (.branch ⟨.calculator, none, T.label.2.position⟩ b.finish) := by
  have hgroup := group_eq limits hT hplain
  rw [htake] at hgroup
  exact hgroup

/-- A tree that is grouped shows, with groups and functions taken apart, the child lists that it came
from: at the root and in every bracket the same nodes in the same order, with their kinds, values and
spans. -/
theorem restore_group {t : SyntaxTree} {T : SourceTerm} {limits : Limits} {out : ExprTree}
    (hT : t.idTerm? Tree.root = some T) (hplain : Plain T) (h : group t limits = .success out) :
    ∃ terms, out.term? Tree.root = some (.branch ⟨.calculator, none, T.label.2.position⟩ terms) ∧
      restoreAll terms = sequence (T.children.map (Term.map Prod.snd)) := by
  cases htake : Bench.takeAll limits.maxDepth 0 0 .clear T.children with
  | error e =>
      have hgroup := group_eq limits hT hplain
      rw [htake] at hgroup
      change group t limits = .failure e at hgroup
      rw [h] at hgroup
      cases hgroup
  | ok b =>
      rcases exists_group hT hplain htake with ⟨out', hout, hterm⟩
      obtain rfl : out = out' := by
        rw [h] at hout
        exact Outcome.success.inj hout
      refine ⟨b.finish, hterm, ?_⟩
      have htold := Bench.told_takeAll (fun X _ => Bench.tells limits.maxDepth X) htake []
      rw [List.append_nil, Bench.told_of_name rfl] at htold
      rw [Bench.restoreAll_finish, ← htold]
      rfl

/-- Two operators in front of a function that ends in an operator: `*^f(x+)`. -/
def misplacedOperators : SyntaxTerm :=
  let span (first last : Nat) : Option Position :=
    some ⟨⟨1, first + 1, first⟩, ⟨1, last + 1, last⟩⟩
  .branch ⟨.calculator, none, span 0 7⟩
    [.leaf ⟨.operator, some (.operator .mul), span 0 1⟩,
      .leaf ⟨.operator, some (.operator .pow), span 1 2⟩,
      .leaf ⟨.name, some (.name "f"), span 2 3⟩,
      .branch ⟨.bracket, none, span 3 7⟩
        [.leaf ⟨.name, some (.name "x"), span 4 5⟩,
          .leaf ⟨.operator, some (.operator .add), span 5 6⟩]]

/-- All of it is there again: the name and its bracket on one span, everything else on its own. -/
theorem restore_misplacedOperators :
    ∃ out terms, group (Tree.ofTerm misplacedOperators) ⟨7⟩ = .success out ∧
      out.term? Tree.root =
        some (.branch ⟨.calculator, none, misplacedOperators.label.position⟩ terms) ∧
      restoreAll terms =
        [.leaf ⟨.operator, some (.operator .mul), .own (some ⟨⟨1, 1, 0⟩, ⟨1, 2, 1⟩⟩)⟩,
          .leaf ⟨.operator, some (.operator .pow), .own (some ⟨⟨1, 2, 1⟩, ⟨1, 3, 2⟩⟩)⟩,
          .leaf ⟨.name, some (.name "f"), .shared (some ⟨⟨1, 3, 2⟩, ⟨1, 8, 7⟩⟩)⟩,
          .branch ⟨.bracket, none, .shared (some ⟨⟨1, 3, 2⟩, ⟨1, 8, 7⟩⟩)⟩
            [.leaf ⟨.name, some (.name "x"), .own (some ⟨⟨1, 5, 4⟩, ⟨1, 6, 5⟩⟩)⟩,
              .leaf ⟨.operator, some (.operator .add), .own (some ⟨⟨1, 6, 5⟩, ⟨1, 7, 6⟩⟩)⟩]] := by
  obtain ⟨T, b, hT, hplain, hlabel, hitems, htake⟩ : ∃ (T : SourceTerm) (b : Bench),
      (Tree.ofTerm misplacedOperators).idTerm? Tree.root = some T ∧ Plain T ∧
        T.label.2 = misplacedOperators.label ∧
        T.children.map (Term.map Prod.snd) = misplacedOperators.children ∧
        Bench.takeAll (Limits.mk 7).maxDepth 0 0 .clear T.children = .ok b := by
    refine ⟨_, _, rfl, ?_, rfl, rfl, rfl⟩
    unfold Plain
    decide
  rcases exists_group hT hplain htake with ⟨out, hout, -⟩
  rcases restore_group hT hplain hout with ⟨terms, hterm, hrestore⟩
  rw [hlabel] at hterm
  rw [hitems] at hrestore
  exact ⟨out, terms, hout, hterm, hrestore⟩

/-- An empty bracket that carries a name. -/
def valuedBracket : SyntaxTerm :=
  .branch ⟨.calculator, none, none⟩ [.branch ⟨.bracket, some (.name "a"), none⟩ []]

/-- The name that the bracket carries is lost, although no node carries an operator. -/
theorem bracket_value_dropped :
    ∃ T out terms, (Tree.ofTerm valuedBracket).idTerm? Tree.root = some T ∧ Plain T ∧
      group (Tree.ofTerm valuedBracket) {} = .success out ∧
      out.term? Tree.root = some (.branch ⟨.calculator, none, none⟩ terms) ∧
      (restoreAll terms).map (fun X => X.label.value) ≠
        valuedBracket.children.map fun X => X.label.value := by
  obtain ⟨T, hT, hplain, hlabel, htake⟩ : ∃ T : SourceTerm,
      (Tree.ofTerm valuedBracket).idTerm? Tree.root = some T ∧ Plain T ∧
        T.label.2.position = none ∧
        Bench.takeAll ({} : Limits).maxDepth 0 0 .clear T.children =
          .ok (Bench.clear.enclose ⟨.bracket, some (.name "a"), none⟩ []) := by
    refine ⟨_, rfl, ?_, rfl, rfl⟩
    unfold Plain
    decide
  rcases exists_group hT hplain htake with ⟨out, hout, hterm⟩
  rw [hlabel] at hterm
  refine ⟨T, out, _, hT, hplain, hout, hterm, ?_⟩
  decide

end Calculator
end FeatureTree
