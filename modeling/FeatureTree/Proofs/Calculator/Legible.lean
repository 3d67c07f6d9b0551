import FeatureTree.Proofs.Calculator.Origins
import FeatureTree.Proofs.Decimal.Display
import FeatureTree.Proofs.Tree.OneLine

/-!
# Legible — the trees of the calculator can be told from one line

Numbers, operators, names and levels are words.  Which branches carry a value is decided by their kind: a
group has a level and a function has a name, and all other branches have nothing.  So a word behind the
head of a branch is a leaf, even if it spells a kind or a level, and a minus that stands alone is an
operator.

`render_alike` says that two texts which are read have trees that are alike, if their trees are the same
line; and so for their expression trees.
-/

namespace FeatureTree
namespace Calculator

/-! ## Words -/

theorem isWordChar_of_isFigure {c : Char} (h : Layout.isFigure c = true) : isWordChar c = true := by
  have hne : ∀ d, Layout.isFigure d = false → c ≠ d := by
    rintro d hd rfl
    rw [h] at hd
    cases hd
  simp [isWordChar, hne ' ' rfl, hne '(' rfl, hne ')' rfl]

/-- Every number is shown by a word. -/
theorem isWord_display (x : Binary64) : IsWord x.display := by
  cases hfinite : x.isFinite with
  | true =>
      rcases Binary64.figures_display hfinite with ⟨hne, hall⟩
      exact ⟨hne, fun c hc => isWordChar_of_isFigure (hall c hc)⟩
  | false =>
      rcases Binary64.display_of_not_finite hfinite with h | h | h <;> rw [h] <;> decide

theorem isWord_operator (op : Operator) : IsWord op.symbol.toString := by
  cases op <;> decide

/-- Names are words. -/
theorem isWord_name {word : List Char} (h : isName word = true) : IsWord (String.ofList word) := by
  rcases Bool.and_eq_true_iff.1 h with ⟨hne, hall⟩
  refine ⟨?_, fun c hc => ?_⟩
  · rw [String.toList_ofList]
    simpa using hne
  · rw [String.toList_ofList] at hc
    have hletter := List.all_eq_true.1 hall c hc
    have hdiffers : ∀ d, Lexeme.isLetter d = false → c ≠ d := by
      rintro d hd rfl
      rw [hletter] at hd
      cases hd
    simp [isWordChar, hdiffers ' ' rfl, hdiffers '(' rfl, hdiffers ')' rfl]

theorem Worded.isWord {a : Label SyntaxKind Literal} (h : Worded a) :
    ∃ v, a.value = some v ∧ IsWord v.text := by
  cases h with
  | number x position => exact ⟨_, rfl, isWord_display x⟩
  | operator op position => exact ⟨_, rfl, isWord_operator op⟩
  | name position name => exact ⟨_, rfl, isWord_name name⟩

theorem isWord_level (l : Level) : IsWord l.name := by
  cases l <;> decide

theorem Level.name_injective : Function.Injective Level.name := by
  intro l l' h
  cases l <;> cases l' <;> first | rfl | exact absurd h (by decide)

theorem isWord_syntaxKind (kind : SyntaxKind) : IsWord kind.word := by
  cases kind <;> decide

theorem SyntaxKind.word_injective : Function.Injective SyntaxKind.word := by
  intro kind kind' h
  cases kind <;> cases kind' <;> first | rfl | exact absurd h (by decide)

theorem isWord_exprKind (kind : ExprKind) : IsWord kind.word := by
  cases kind <;> decide

theorem ExprKind.word_injective : Function.Injective ExprKind.word := by
  intro kind kind' h
  cases kind <;> cases kind' <;> first | rfl | exact absurd h (by decide)

/-! ## Heads -/

/-- The label of a branch of a flat tree. -/
inductive SyntaxHead : Label SyntaxKind Literal → Prop where
  | calculator (position : Option Position) : SyntaxHead ⟨.calculator, none, position⟩
  | bracket (position : Option Position) : SyntaxHead ⟨.bracket, none, position⟩

theorem heads_syntax : Term.Heads SyntaxHead where
  kind := isWord_syntaxKind
  kind_injective := SyntaxKind.word_injective
  value h hv := by cases h <;> cases hv
  isSome_eq ha hb _ := by cases ha <;> cases hb <;> rfl
  value_inj ha _ _ hv := by cases ha <;> cases hv

/-- The label of a branch of an expression tree: groups carry a level, and functions a name. -/
inductive ExprHead : Label ExprKind Literal → Prop where
  | calculator (position : Option Position) : ExprHead ⟨.calculator, none, position⟩
  | bracket (position : Option Position) : ExprHead ⟨.bracket, none, position⟩
  | group (l : Level) (position : Option Position) : ExprHead ⟨.group, some (.level l), position⟩
  | function {word : List Char} (position : Option Position) (name : isName word = true) :
      ExprHead ⟨.function, some (.name (String.ofList word)), position⟩

theorem heads_expr : Term.Heads ExprHead where
  kind := isWord_exprKind
  kind_injective := ExprKind.word_injective
  value h hv := by
    cases h with
    | calculator position => cases hv
    | bracket position => cases hv
    | group l position =>
        cases hv
        exact isWord_level l
    | function position name =>
        cases hv
        exact isWord_name name
  isSome_eq ha hb hkind := by cases ha <;> cases hb <;> first | rfl | cases hkind
  value_inj ha hb hkind hv hw htext := by
    cases ha with
    | calculator position => cases hv
    | bracket position => cases hv
    | group l position =>
        cases hb <;> cases hkind
        cases hv
        cases hw
        exact congrArg Literal.level (Level.name_injective htext)
    | function position name =>
        cases hb <;> cases hkind
        cases hv
        cases hw
        exact congrArg Literal.name htext

/-! ## Legible trees -/

/-- A leaf that carries a word is written as that word. -/
theorem isWord_leafText {K : Type} [Written K] {a : Label K Literal}
    (h : ∃ v, a.value = some v ∧ IsWord v.text) : IsWord (Term.leafText a) := by
  rcases h with ⟨v, hv, hword⟩
  rw [Term.leafText, hv]
  exact hword

theorem Spoken.legible {T : SyntaxTerm} (h : Spoken T) : T.Legible SyntaxHead := by
  induction h with
  | leaf worded => exact .leaf (isWord_leafText worded.isWord)
  | bracket _ ih => exact .branch (.bracket _) ih

theorem Made.legible {S : ExprTerm} {Source : Label SyntaxKind Literal → Prop} (h : Made Source S)
    (hSource : ∀ a, Source a → a.kind ≠ .bracket → Worded a) : S.Legible ExprHead := by
  have hword : ∀ {a kind}, Source a → a.kind = kind → kind ≠ .bracket → Worded a :=
    fun ha hkind hne => hSource _ ha (hkind ▸ hne)
  induction h with
  | number source kind =>
      exact .leaf (isWord_leafText (hword source kind (by decide)).isWord)
  | operator source kind =>
      exact .leaf (isWord_leafText (hword source kind (by decide)).isWord)
  | bareName source kind =>
      exact .leaf (isWord_leafText (hword source kind (by decide)).isWord)
  | group _ ih => exact .branch (.group _ _) ih
  | bracket _ ih => exact .branch (.bracket _) ih
  | function source kind _ ih =>
      cases hword source kind (by decide) with
      | number x position => cases kind
      | operator op position => cases kind
      | name position name => exact .branch (.function _ name) ih

/-- The tree of a text is legible. -/
theorem legible_of_read {text : SourceText} {limits : Limits} {t : SyntaxTree}
    (h : read text limits = .ok t) : t.Legible SyntaxHead := by
  rcases spoken_of_read h with ⟨T, items, hT, -, -, hmap, hspoken⟩
  refine ⟨.branch (rootLabel text) (finished items), ?_, ?_⟩
  · rw [Tree.term?, hT, Option.map_some, hmap]
  · exact .branch (.calculator _) fun S hS => (hspoken S hS).legible

/-- The expression tree of a text is legible. -/
theorem legible_of_group {text : SourceText} {reading limits : Limits} {t : SyntaxTree}
    {out : ExprTree} (h : read text reading = .ok t) (hout : group t limits = .success out) :
    out.Legible ExprHead := by
  rcases spoken_of_read h with ⟨T, items, hT, hplain, -, hmap, hspoken⟩
  have hchildren : T.children.map (Term.map Prod.snd) = finished items := by
    rw [← Term.children_map, hmap]
    rfl
  rcases made_of_group hT hplain hout with ⟨terms, hterm, hmade⟩
  refine ⟨_, hterm, .branch (.calculator _) fun S hS => (hmade S hS).legible ?_⟩
  rintro a ⟨X, hX, ha⟩ hkind
  have hX' : X.map Prod.snd ∈ finished items := hchildren ▸ List.mem_map_of_mem hX
  exact ((hspoken _ hX').worded a ha).resolve_right fun hbracket => hkind hbracket.1

/-- What is read and grouped was read first. -/
theorem exists_read_of_readAndGroup {text : SourceText} {limits : Limits} {out : ExprTree}
    (h : readAndGroup text limits = .success out) :
    ∃ t, read text limits = .ok t ∧ group t limits = .success out := by
  cases hread : read text limits with
  | error e =>
      rw [readAndGroup_of_error hread] at h
      cases h
  | ok t =>
      rw [readAndGroup, readBoth, hread] at h
      dsimp only at h
      cases hgroup : group t limits with
      | success out' =>
          rw [hgroup] at h
          obtain rfl : out' = out := Outcome.success.inj h
          exact ⟨t, rfl, hgroup⟩
      | failure e =>
          rw [hgroup] at h
          cases h
      | unfinished =>
          rw [hgroup] at h
          cases h

/-! ## The result -/

/-- Two texts whose trees are the same line have trees of the same shape, with the same kinds and values
at all branches and the same texts at all leaves; and so for their expression trees. -/
theorem render_alike :
    (∀ (text text' : SourceText) (limits limits' : Limits) (t t' : SyntaxTree),
      read text limits = .ok t → read text' limits' = .ok t' → t.render = t'.render → t.Alike t') ∧
    ∀ (text text' : SourceText) (limits limits' : Limits) (out out' : ExprTree),
      readAndGroup text limits = .success out → readAndGroup text' limits' = .success out' →
        out.render = out'.render → out.Alike out' := by
  constructor
  · intro text text' limits limits' t t' h h' heq
    exact (legible_of_read h).alike heads_syntax (legible_of_read h') heq
  · intro text text' limits limits' out out' h h' heq
    rcases exists_read_of_readAndGroup h with ⟨t, hread, hgroup⟩
    rcases exists_read_of_readAndGroup h' with ⟨t', hread', hgroup'⟩
    exact (legible_of_group hread hgroup).alike heads_expr (legible_of_group hread' hgroup') heq

/-- Names that spell kinds, and a number with a sign, in two texts that differ by a blank. -/
theorem render_alike_kindNames :
    ∃ t t' out out', read (.ofString "group(-2)*bracket") {} = .ok t ∧
      read (.ofString "group (-2)*bracket") {} = .ok t' ∧ t.render = t'.render ∧ t.Alike t' ∧
      readAndGroup (.ofString "group(-2)*bracket") {} = .success out ∧
      readAndGroup (.ofString "group (-2)*bracket") {} = .success out' ∧
      out.render = out'.render ∧ out.Alike out' := by
  have hok : (read (.ofString "group(-2)*bracket") {}).isOk = true := by
    rw [read_eq_foldlM]
    decide +kernel
  have hroom : 4 * deepest [] (tokens (.ofString "group(-2)*bracket")) + 3 ≤
      ({} : Limits).maxDepth := by decide +kernel
  have htokens : tokens (.ofString "group (-2)*bracket") =
      (tokens (.ofString "group(-2)*bracket")).map (Token.shift 5) := by decide +kernel
  rcases sameOutcome_of_tokens htokens {} with ⟨hreading, houtcome⟩
  cases h : read (.ofString "group(-2)*bracket") {} with
  | error e =>
      rw [h] at hok
      cases hok
  | ok t =>
      rcases exists_group_of_read {} h hroom with ⟨out, hout⟩
      have hboth : readAndGroup (.ofString "group(-2)*bracket") {} = .success out := by
        rw [readAndGroup, readBoth, h]
        dsimp only
        rw [hout]
      rw [h] at hreading
      rw [hboth] at houtcome
      generalize h' : read (.ofString "group (-2)*bracket") {} = reading at hreading
      generalize hboth' : readAndGroup (.ofString "group (-2)*bracket") {} = outcome at houtcome
      cases hreading with
      | ok hrender =>
          cases houtcome with
          | success hrender' =>
              exact ⟨t, _, out, _, rfl, rfl, hrender, render_alike.1 _ _ _ _ _ _ h h' hrender,
                hboth, rfl, hrender', render_alike.2 _ _ _ _ _ _ hboth hboth' hrender'⟩

end Calculator
end FeatureTree
