import FeatureTree.Proofs.Calculator.Bench
import FeatureTree.Proofs.Calculator.Sites
import FeatureTree.Proofs.Tree.Spine

/-!
# Moves — how the grouping features answer

Each lemma takes a feature and says for which nodes it gives which answer, and what it makes of the
tree.  The last section says what the new trees show, in terms of the path under construction.
-/

namespace FeatureTree
namespace Calculator
namespace Site

open Rebuilding

variable {source : SyntaxTree} {input output node group : NodeId} {i : Nat} {t : ExprTree}
variable {n : Node SyntaxKind Literal} {op : Operator} {level : Level} {p : Piece}

/-! ## Looking at a node -/

theorem kind?_eq {kind : SyntaxKind} (hget : source.get? node = some n) (hkind : n.kind = kind) :
    Piece.kind? ⟨source, input, output, i⟩ node = some kind := by
  simp [Piece.kind?, hget, hkind]

theorem value?_eq (hget : source.get? node = some n) :
    Piece.value? ⟨source, input, output, i⟩ node = n.value := by
  simp [Piece.value?, hget]

theorem operator?_eq (hget : source.get? node = some n) :
    Piece.operator? ⟨source, input, output, i⟩ node = n.value.bind Literal.operator? := by
  simp [Piece.operator?, value?_eq hget]

theorem position?_eq (hget : source.get? node = some n) : source.position? node = n.position := by
  simp [Tree.position?, hget]

theorem proposals_eq (hget : source.get? node = some n) :
    proposals source node = Piece.candidates n.kind := by
  simp [proposals, hget]

/-! ## The answer of a feature -/

section Answers

variable {cx : Piece.Place} {name : NodeId}

theorem handle_number (h : Piece.kind? cx node = some .number) :
    Piece.handle .number cx node = (do
      Piece.copyLeaf cx node .number cx.output
      return (.placed, .proceed)) := if_pos h

theorem handle_name (h : Piece.kind? cx node = some .name) :
    Piece.handle .name cx node = pure (.named node, .proceed) := if_pos h

theorem handle_bracket (h : Piece.kind? cx node = some .bracket) :
    Piece.handle .bracket cx node = Piece.placeBracket cx node := if_pos h

theorem handle_named (h : Piece.kind? cx node = some .bracket) :
    Piece.handle (.named name) cx node = Piece.applyName cx name node := if_pos h

theorem handle_named_decline (h : Piece.kind? cx node ≠ some .bracket) :
    Piece.handle (.named name) cx node = pure (.named name, .decline) := if_neg h

theorem handle_operator : Piece.handle .operator cx node =
    match Piece.operator? cx node with
    | none => pure (.operator, .decline)
    | some op => Piece.placeOperator cx node op := rfl

theorem handle_grouping : Piece.handle (.grouping group level) cx node =
    match Piece.operator? cx node with
    | none => pure (.grouping group level, Piece.feed group)
    | some op => Piece.feedOperator cx node op group level := rfl

end Answers

/-! ## Leaves -/

theorem copyLeaf_eq (hget : source.get? node = some n) (kind : ExprKind) (parent : NodeId)
    (bag : Bag Empty NoEntry) (world : Unit) :
    Piece.copyLeaf ⟨source, input, output, i⟩ node kind parent ⟨t, bag, world⟩ =
      .ok () ⟨t.append parent (Label.leaf ⟨kind, n.value, n.position⟩), bag, world⟩ := by
  simp only [Piece.copyLeaf, value?_eq hget, position?_eq hget]
  rfl

theorem acts_number (hget : source.get? node = some n) (hkind : n.kind = .number) :
    Acts .number ⟨source, input, output, i⟩ node t .placed .proceed
      (t.append output (Label.leaf ⟨.number, n.value, n.position⟩)) := by
  intro bag world
  rw [handle_number (kind?_eq hget hkind)]
  simp only [bind, EStateM.bind, copyLeaf_eq hget]
  rfl

theorem acts_name (hget : source.get? node = some n) (hkind : n.kind = .name) :
    Acts .name ⟨source, input, output, i⟩ node t (.named node) .proceed t := by
  intro bag world
  rw [handle_name (kind?_eq hget hkind)]
  rfl

/-! ## Brackets -/

theorem acts_bracket (hget : source.get? node = some n) (hkind : n.kind = .bracket) :
    Acts .bracket ⟨source, input, output, i⟩ node t .placed (Piece.into node t.size)
      (t.append output (Label.over ⟨.bracket, none, n.position⟩ [])) := by
  intro bag world
  rw [handle_bracket (kind?_eq hget hkind)]
  simp only [Piece.placeBracket, position?_eq hget]
  rfl

/-- A name is applied to the bracket that follows it. -/
theorem acts_apply {name : NodeId} {n' : Node SyntaxKind Literal}
    (hname : source.get? name = some n') (hget : source.get? node = some n)
    (hkind : n.kind = .bracket) :
    Acts (.named name) ⟨source, input, output, i⟩ node t .applied (Piece.into node t.size)
      (t.append output (Label.over
        ⟨.function, n'.value, Piece.spanOf? n'.position n.position⟩ [])) := by
  intro bag world
  rw [handle_named (kind?_eq hget hkind)]
  simp only [Piece.applyName, position?_eq hget, position?_eq hname, value?_eq hname]
  rfl

theorem acts_named_decline {name : NodeId} (hget : source.get? node = some n)
    (hkind : n.kind ≠ .bracket) :
    Acts (.named name) ⟨source, input, output, i⟩ node t (.named name) .decline t := by
  intro bag world
  rw [handle_named_decline]
  · rfl
  · rw [kind?_eq hget rfl]
    exact fun h => hkind (Option.some.inj h)

/-! ## Operators -/

theorem acts_operator_decline (hget : source.get? node = some n)
    (hvalue : n.value.bind Literal.operator? = none) :
    Acts .operator ⟨source, input, output, i⟩ node t .operator .decline t := by
  intro bag world
  simp only [handle_operator, operator?_eq hget, hvalue]
  rfl

/-- An operator on the level of its surroundings is copied in place. -/
theorem acts_place (hget : source.get? node = some n)
    (hvalue : n.value.bind Literal.operator? = some op)
    (hlevel : (Piece.outputLevel t output).rank = op.level.rank) :
    Acts .operator ⟨source, input, output, i⟩ node t .placed .proceed
      (t.append output (Label.leaf ⟨.operator, n.value, n.position⟩)) := by
  intro bag world
  have hcompare : compare (Piece.outputLevel t output) op.level = .eq := Nat.compare_eq_eq.2 hlevel
  simp only [handle_operator, operator?_eq hget, hvalue, Piece.placeOperator, bind, EStateM.bind,
    Scene.run_get, hcompare, copyLeaf_eq hget]
  rfl

/-- The tree with a new group, which takes the last child over. -/
def opened (t : ExprTree) (output : NodeId) (level : Level) : ExprTree :=
  let tree := (t.popChild output).append output ⟨.group, some (.level level), none, some #[]⟩
  match t.lastChild? output with
  | some operand => tree.attach t.size operand
  | none => tree

/-- A tighter operator opens a group, one level at a time. -/
theorem acts_open (hget : source.get? node = some n)
    (hvalue : n.value.bind Literal.operator? = some op)
    (hlevel : (Piece.outputLevel t output).rank < op.level.rank)
    (htighter : (Piece.outputLevel t output).tighter? = some level) :
    Acts .operator ⟨source, input, output, i⟩ node t (.grouping t.size level)
      (Piece.feed t.size) (opened t output level) := by
  intro bag world
  have hcompare : compare (Piece.outputLevel t output) op.level = .lt := Nat.compare_eq_lt.2 hlevel
  simp only [handle_operator, operator?_eq hget, hvalue, Piece.placeOperator, bind, EStateM.bind,
    Scene.run_get, hcompare, htighter]
  rfl

/-! ## Operators that feed a group -/

/-- What is no operator goes into the group. -/
theorem acts_feed_operand (hget : source.get? node = some n)
    (hvalue : n.value.bind Literal.operator? = none) :
    Acts (.grouping group level) ⟨source, input, output, i⟩ node t (.grouping group level)
      (Piece.feed group) t := by
  intro bag world
  simp only [handle_grouping, operator?_eq hget, hvalue]
  rfl

/-- An operator of the surroundings ends the group. -/
theorem acts_settle (hget : source.get? node = some n)
    (hvalue : n.value.bind Literal.operator? = some op)
    (hlevel : (Piece.outputLevel t output).rank = op.level.rank) :
    Acts (.grouping group level) ⟨source, input, output, i⟩ node t (.settled group) .proceed
      (t.append output (Label.leaf ⟨.operator, n.value, n.position⟩)) := by
  intro bag world
  have hcompare : compare (Piece.outputLevel t output) op.level = .eq := Nat.compare_eq_eq.2 hlevel
  simp only [handle_grouping, operator?_eq hget, hvalue, Piece.feedOperator, bind, EStateM.bind,
    Scene.run_get, hcompare, copyLeaf_eq hget]
  rfl

/-- An operator weaker than the surroundings is left to them. -/
theorem acts_release (hget : source.get? node = some n)
    (hvalue : n.value.bind Literal.operator? = some op)
    (hlevel : op.level.rank < (Piece.outputLevel t output).rank) :
    Acts (.grouping group level) ⟨source, input, output, i⟩ node t (.grouping group level)
      .decline t := by
  intro bag world
  have hcompare : compare (Piece.outputLevel t output) op.level = .gt := Nat.compare_eq_gt.2 hlevel
  simp only [handle_grouping, operator?_eq hget, hvalue, Piece.feedOperator, bind, EStateM.bind,
    Scene.run_get, hcompare]
  rfl

/-- An operator of the group's own level is copied into it. -/
theorem acts_continue (hget : source.get? node = some n)
    (hvalue : n.value.bind Literal.operator? = some op)
    (hlevel : (Piece.outputLevel t output).rank < op.level.rank) (hown : level = op.level) :
    Acts (.grouping group level) ⟨source, input, output, i⟩ node t (.grouping group level)
      .proceed (t.append group (Label.leaf ⟨.operator, n.value, n.position⟩)) := by
  intro bag world
  have hcompare : compare (Piece.outputLevel t output) op.level = .lt := Nat.compare_eq_lt.2 hlevel
  simp only [handle_grouping, operator?_eq hget, hvalue, Piece.feedOperator, bind, EStateM.bind,
    Scene.run_get, hcompare, hown, if_true, copyLeaf_eq hget]
  rfl

/-- A tighter operator goes into the group, too. -/
theorem acts_feed_operator (hget : source.get? node = some n)
    (hvalue : n.value.bind Literal.operator? = some op)
    (hlevel : (Piece.outputLevel t output).rank < op.level.rank) (hother : level ≠ op.level) :
    Acts (.grouping group level) ⟨source, input, output, i⟩ node t (.grouping group level)
      (Piece.feed group) t := by
  intro bag world
  have hcompare : compare (Piece.outputLevel t output) op.level = .lt := Nat.compare_eq_lt.2 hlevel
  simp only [handle_grouping, operator?_eq hget, hvalue, Piece.feedOperator, bind, EStateM.bind,
    Scene.run_get, hcompare, hother, if_false]
  rfl

/-! ## What the new trees show -/

section Trees

open FeatureTree.Tree

variable {t₀ : ExprTree} {b : Bough ExprKind Literal} {rest : List (Bough ExprKind Literal)}
variable {depth : Nat} {shown : List ExprTerm} {label : Label ExprKind Literal}

/-- A group holds operators of its own level. -/
theorem outputLevel_group {ids : List NodeId}
    (hget : t.get? output = some ((openLabel depth).over ids)) :
    Piece.outputLevel t output = .ofDepth depth := by
  rw [Piece.outputLevel, hget]
  rfl

/-- What is no group holds the weakest operators. -/
theorem outputLevel_other {ids : List NodeId} (hget : t.get? output = some (label.over ids))
    (hkind : label.kind ≠ .group) : Piece.outputLevel t output = .additive := by
  rw [Piece.outputLevel, hget]
  split
  · next heq =>
      exact absurd (congrArg Node.kind (Option.some.inj heq)) hkind
  · rfl

/-- A new group takes the last term over. -/
theorem grows_opened (h : Grows t₀ t (b :: rest)) :
    Grows t₀ (opened t b.node (.ofDepth depth))
      (⟨t.size, openLabel depth, b.shown.getLast?.toList⟩ ::
        { b with shown := b.shown.dropLast } :: rest) := by
  unfold opened
  -- The list may be empty: then nothing is taken over.
  rcases List.eq_nil_or_concat b.shown with hnil | ⟨front, T, hconcat⟩
  · rcases h.openWithout hnil (openLabel depth) with ⟨hlast, hopened⟩
    rcases b with ⟨node, label, shown⟩
    obtain rfl : shown = [] := hnil
    rw [hlast]
    exact hopened
  · rw [List.concat_eq_append] at hconcat
    rcases h.openWith hconcat (openLabel depth) with ⟨operand, hlast, hopened⟩
    rw [hlast, hconcat, List.getLast?_concat, List.dropLast_concat]
    exact hopened

/-! ### Spans of groups -/

/-- What a closed group spans. -/
theorem spanned_eq {drawn : List (Term (NodeId × Label ExprKind Literal))} {A : NodeId → Prop}
    (hget : t.get? group = some (label.over (drawn.map Term.id)))
    (hterms : ∀ D ∈ drawn, t.Shows A D) (hshown : drawn.map (Term.map Prod.snd) = shown) :
    spanned t group =
      (Piece.spanOf? (shown.head?.bind fun T => T.label.position)
        (shown.getLast?.bind fun T => T.label.position)).elim t (t.setPosition group) := by
  have hposition : ∀ D ∈ drawn, t.position? D.id = (D.map Prod.snd).label.position := by
    intro D hD
    rw [(hterms D hD).position?, Term.label_map]
  have hfirst : (t.firstChild? group).bind t.position? =
      shown.head?.bind fun T => T.label.position := by
    rw [firstChild?_eq_head?, children_of_get? hget, ← hshown]
    cases drawn with
    | nil => rfl
    | cons D drawn => exact hposition D List.mem_cons_self
  have hlast : (t.lastChild? group).bind t.position? =
      shown.getLast?.bind fun T => T.label.position := by
    rw [lastChild?_eq_getLast?, children_of_get? hget, ← hshown, List.getLast?_map,
      List.getLast?_map]
    cases hD : drawn.getLast? with
    | none => rfl
    | some D => exact hposition D (List.mem_of_getLast? hD)
  simp only [spanned, hfirst, hlast]
  cases Piece.spanOf? _ _ <;> rfl

/-- The innermost group gets its span. -/
theorem grows_spanned (h : Grows t₀ t (⟨group, openLabel depth, shown⟩ :: rest)) :
    Grows t₀ (spanned t group) (⟨group, groupLabel depth shown, shown⟩ :: rest) := by
  rcases h.stands.1 with ⟨drawn, hshown, hget, hterms⟩
  rw [List.append_nil] at hget
  rw [spanned_eq hget hterms hshown]
  -- Without spans at both ends the group keeps its label.
  cases hspan : Piece.spanOf? (shown.head?.bind fun T => T.label.position)
      (shown.getLast?.bind fun T => T.label.position) with
  | none =>
      have hlabel : groupLabel depth shown = openLabel depth := by
        rw [groupLabel, hspan, openLabel]
      rw [hlabel]
      exact h
  | some position =>
      refine h.relabel (groupLabel depth shown) fun ids => ?_
      rw [groupLabel, hspan]
      rfl

theorem position?_append {parent id : NodeId} {node : Node ExprKind Literal} (hid : id < t.size) :
    (t.append parent node).position? id = t.position? id := by
  have hne : id ≠ t.size := Nat.ne_of_lt hid
  by_cases hparent : id = parent
  · subst hparent
    rw [position?, get?_append_parent hid, position?]
    rcases t.get? id with _ | ⟨kind, value, position, _ | children⟩ <;> rfl
  · rw [position?, get?_append_of_ne hparent hne, position?]

/-- It makes no difference whether a group gets its span before or after a leaf is attached behind. -/
theorem spanned_append {parent : NodeId} {leaf : Node ExprKind Literal} (hne : group ≠ parent)
    (hgroup : group < t.size) (hchildren : ∀ id ∈ t.children group, id < t.size) :
    spanned (t.append parent leaf) group = (spanned t group).append parent leaf := by
  have hget : (t.append parent leaf).get? group = t.get? group :=
    get?_append_of_ne hne (Nat.ne_of_lt hgroup)
  have hsame : (t.append parent leaf).children group = t.children group := by
    rw [children, childArray, hget]
    rfl
  -- The first and the last child are old nodes, whose spans stay.
  have hposition : ∀ child : Option NodeId, (∀ id ∈ child, id ∈ t.children group) →
      child.bind (t.append parent leaf).position? = child.bind t.position? := by
    intro child hchild
    cases child with
    | none => rfl
    | some id => exact position?_append (hchildren id (hchild id rfl))
  unfold spanned
  rw [firstChild?_eq_head?, lastChild?_eq_getLast?, firstChild?_eq_head?, lastChild?_eq_getLast?,
    hsame, hposition _ fun id hid => List.mem_of_mem_head? hid,
    hposition _ fun id hid => List.mem_of_getLast? hid]
  dsimp only
  cases Piece.spanOf? ((t.children group).head?.bind t.position?)
      ((t.children group).getLast?.bind t.position?) with
  | none => rfl
  | some position =>
      -- Both orders make the same changes, node by node.
      refine ext_get? fun id => ?_
      simp only [setPosition, append, attach, get?_update, get?_create, size_update]
      by_cases hid : group = id
      · subst hid
        simp [hne.symm, Nat.ne_of_lt hgroup]
      · simp [hid]

end Trees

end Site
end Calculator
end FeatureTree
