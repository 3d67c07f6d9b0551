import FeatureTree.Proofs.Calculator.Origins
import FeatureTree.Proofs.Decimal.Display
import FeatureTree.Proofs.Decimal.Rounding
import Mathlib.Data.List.TakeWhile

/-!
# Overflow — which texts give finite numbers only

Reading does not change the numbers of a text: those of the flat tree are those of its tokens, in order,
but for their signs (`ordinals_of_read`).  Grouping copies them.

A literal is never refused.  From `2 ^ 1024 - 2 ^ 970` on it is read as infinity, which is no number in
JSON, and which is written as the name `inf` is.  `numbers_finite_iff` says that nothing else goes wrong:
all numbers of both trees are finite, are numbers in JSON and are not written like names, exactly if all
literals of the text are smaller.  `nines_overflow` is the least literal of nines that is not.
-/

namespace FeatureTree
namespace Calculator

/-! ## Literals -/

/-- All digits of a number. -/
def figures (word : List Char) : List Char := (spelling word).filter Char.isDigit

/-- How many digits stand behind the point. -/
def placesOf (word : List Char) : Nat := ((spelling word).dropWhile Char.isDigit).length - 1

/-- The number is smaller than what is rounded to infinity. -/
def InRange (word : List Char) : Prop :=
  Binary64.natOfDigits (figures word) < Binary64.overflow * 10 ^ placesOf word

instance (word : List Char) : Decidable (InRange word) := Nat.decLt _ _

/-- A number has a value, which is infinity if the number is out of range. -/
theorem parse?_inRange {word : List Char} (h : isNumber word = true) :
    ∃ x, Binary64.parse? (spelling word) = some x ∧ x.isNaN = false ∧
      (x.isFinite = true ↔ InRange word) := by
  have hjudge : ∀ n places, (Binary64.mk false (Binary64.roundDecimal n (-(places : Nat)))).isNaN =
      false ∧ ((Binary64.mk false (Binary64.roundDecimal n (-(places : Nat)))).isFinite = true ↔
        n < Binary64.overflow * 10 ^ places) := by
    intro n places
    constructor
    · simpa [Binary64.isNaN] using Binary64.roundDecimal_le n (-places)
    · simpa [Binary64.isFinite] using Binary64.roundDecimal_lt_iff n places
  have hpoint : ('.' : Char).isDigit = false := rfl
  unfold InRange figures placesOf
  rcases spelling_of_isNumber h with ⟨whole, hne, hwhole, heq | ⟨behind, hbehind, heq⟩⟩
  · have hfigures : whole.filter Char.isDigit = whole := List.filter_eq_self.2 hwhole
    have hplaces : (whole.dropWhile Char.isDigit).length - 1 = 0 := by
      rw [List.dropWhile_eq_nil_iff.2 hwhole]
      rfl
    rw [heq, hfigures, hplaces]
    exact ⟨_, Binary64.parse?_digits hne hwhole, hjudge _ 0⟩
  · have hfigures : (whole ++ '.' :: behind).filter Char.isDigit = whole ++ behind := by
      rw [List.filter_append, List.filter_eq_self.2 hwhole, List.filter_cons_of_neg (by simp [hpoint]),
        List.filter_eq_self.2 hbehind]
    have hplaces : ((whole ++ '.' :: behind).dropWhile Char.isDigit).length - 1 = behind.length := by
      rw [List.dropWhile_append_of_pos hwhole, List.dropWhile_cons_of_neg (by simp [hpoint])]
      rfl
    rw [heq, hfigures, hplaces]
    exact ⟨_, Binary64.parse?_point hne hwhole hbehind, hjudge _ _⟩

/-! ## The numbers of a flat tree -/

/-- The ordinal of a label that carries a number; it tells nothing about the sign. -/
def ordinal? (a : Label SyntaxKind Literal) : Option Nat :=
  (a.value.bind Literal.number?).map Binary64.ordinal

/-- The ordinal of a token that is a number. -/
def Token.ordinal? (text : SourceText) (token : Token) : Option Nat :=
  Calculator.ordinal? (token.label text)

/-- The ordinals of the numbers in a term, from left to right. -/
def ordinals (T : SyntaxTerm) : List Nat := T.labels.filterMap ordinal?

variable {text : SourceText} {items shown : List SyntaxTerm} {T : SyntaxTerm}

theorem ordinals_branch {a : Label SyntaxKind Literal} (h : a.value = none) :
    ordinals (.branch a items) = items.flatMap ordinals := by
  have hnone : ordinal? a = none := by rw [ordinal?, h]; rfl
  rw [ordinals, Term.labels, Term.labelsList_eq_flatMap, List.filterMap_cons_none hnone,
    List.filterMap_flatMap]
  rfl

theorem ordinals_leaf (a : Label SyntaxKind Literal) : ordinals (.leaf a) = (ordinal? a).toList := by
  rw [ordinals, Term.labels, List.filterMap_cons, List.filterMap_nil]
  cases ordinal? a <;> rfl

/-- Nesting keeps the numbers of the tokens, and their order. -/
theorem ordinals_nest {levels : List (Nat × List SyntaxTerm)} {tokens : List Token}
    (h : nest text levels items tokens = some shown) :
    shown.flatMap ordinals = (levels.reverse.flatMap fun level => level.2.flatMap ordinals) ++
      (items.flatMap ordinals ++ tokens.filterMap (Token.ordinal? text)) := by
  induction tokens generalizing levels items with
  | nil =>
      cases levels with
      | nil =>
          obtain rfl : items = shown := Option.some.inj h
          simp
      | cons level levels => cases h
  | cons token rest ih =>
      by_cases hopening : token.kind = .opening
      · have hnone : token.ordinal? text = none := by
          simp [Token.ordinal?, Token.label, hopening, ordinal?]
        rw [nest_opening hopening] at h
        rw [ih h, List.filterMap_cons_none hnone]
        simp
      · by_cases hclosing : token.kind = .closing
        · have hnone : token.ordinal? text = none := by
            simp [Token.ordinal?, Token.label, hclosing, ordinal?]
          rcases levels with _ | ⟨⟨start, outer⟩, levels⟩
          · simp [nest, hclosing] at h
          · rw [nest_closing hclosing] at h
            have hbracket : ordinals (.branch (bracketLabel text start token.stop) items) =
                items.flatMap ordinals := ordinals_branch rfl
            rw [ih h, List.filterMap_cons_none hnone]
            simp [hbracket]
        · rw [nest_leaf hopening hclosing] at h
          have hleaf : ordinals (.leaf (token.label text)) = (token.ordinal? text).toList :=
            ordinals_leaf _
          rw [ih h, List.filterMap_cons]
          cases hordinal : token.ordinal? text <;> simp [hleaf, hordinal]

/-! ### Signs -/

theorem ordinals_minus (h : Spoken T) (hminus : isMinus T = true) : ordinals T = [] := by
  cases h with
  | leaf worded =>
      cases worded with
      | number x position => cases hminus
      | operator op position => rfl
      | name position name => rfl
  | bracket inside => cases hminus

theorem ordinals_negated (sign : SyntaxTerm) (h : Spoken T) (hnumeral : isNumeral T = true) :
    ordinals (negated sign T) = ordinals T := by
  cases h with
  | leaf worded =>
      cases worded with
      | number x position => rfl
      | operator op position => cases hnumeral
      | name position name => cases hnumeral
  | bracket inside => cases hnumeral

/-- A sign that is taken changes the sign of a number only. -/
theorem ordinals_takeSign (hitems : ∀ T ∈ items, Spoken T) :
    (takeSign items).flatMap ordinals = items.flatMap ordinals := by
  match items, hitems with
  | [], _ => rfl
  | [first], _ => rfl
  | first :: second :: rest, hitems =>
      rw [takeSign]
      split
      · next hboth =>
          rcases Bool.and_eq_true_iff.1 hboth with ⟨hminus, hnumeral⟩
          have hfirst := ordinals_minus (hitems first List.mem_cons_self) hminus
          have hsecond := ordinals_negated first (hitems second (by simp)) hnumeral
          rw [List.flatMap_cons, List.flatMap_cons, List.flatMap_cons, hfirst, hsecond,
            List.nil_append]
      · rfl

theorem ordinals_takeSign_map (hitems : ∀ T ∈ items, Spoken T)
    (heach : ∀ T ∈ items, ordinals (signed T) = ordinals T) :
    (takeSign (signedAll items)).flatMap ordinals = items.flatMap ordinals := by
  rw [signedAll_eq_map, ordinals_takeSign (List.forall_mem_map.2 fun S hS => (hitems S hS).signed),
    List.flatMap_map]
  exact List.flatMap_congr heach

theorem ordinals_signed (h : Spoken T) : ordinals (signed T) = ordinals T := by
  induction h with
  | leaf worded => rfl
  | bracket inside ih =>
      rw [signed, ordinals_branch rfl, ordinals_branch rfl]
      exact ordinals_takeSign_map inside ih

/-- The numbers of the tree of a text are those of its tokens, in order, but for their signs.  Number
nodes carry numbers, and no other nodes do. -/
theorem ordinals_of_read {limits : Limits} {t : SyntaxTree} (h : read text limits = .ok t) :
    ∃ T : SourceTerm, t.idTerm? Tree.root = some T ∧ Plain T ∧
      ordinals (T.map Prod.snd) = (tokens text).filterMap (Token.ordinal? text) ∧
      ∀ a ∈ (T.map Prod.snd).labels, a.kind = .number ↔ ∃ x, a.value = some (.number x) := by
  rcases spoken_of_read h with ⟨T, items, hT, hplain, hnest, hmap, hfinished⟩
  have hspoken := spoken_of_nest hnest
  refine ⟨T, hT, hplain, ?_, ?_⟩
  · rw [hmap, ordinals_branch rfl, finished,
      ordinals_takeSign_map hspoken fun S hS => ordinals_signed (hspoken S hS), ordinals_nest hnest]
    rfl
  · intro a ha
    rw [hmap] at ha
    rcases Term.mem_labels_branch.1 ha with rfl | ⟨S, hS, haS⟩
    · simp [rootLabel]
    · rcases (hfinished S hS).worded a haS with hworded | ⟨hkind, hvalue⟩
      · cases hworded <;> simp
      · simp [hkind, hvalue]

/-! ## Trees of finite numbers -/

section Terms

variable {K : Type} [Written K] {number : K}

/-- Every number node holds a finite number. -/
def HoldsFinite (number : K) (T : Term (Label K Literal)) : Prop :=
  ∀ a ∈ T.labels, a.kind = number → ∃ x : Binary64, a.value = some (.number x) ∧ x.isFinite = true

/-- In the JSON of a tree, an object of the type of numbers has a number as its value, and not null. -/
inductive GivesNumbers : Json.Value → Prop where
  | node {members : List (String × Json.Value)}
      (value : ("type", .string "number") ∈ members →
        (∃ text, ("value", .number text) ∈ members) ∧ ("value", .null) ∉ members)
      (children : ∀ items, ("children", .array items) ∈ members → ∀ v ∈ items, GivesNumbers v) :
      GivesNumbers (.object members)

/-- No number node is written as a name is. -/
def NamelessNumbers (number : K) (T : Term (Label K Literal)) : Prop :=
  ∀ a ∈ T.labels, a.kind = number → isName (Term.leafText a).toList = false

/-- All numbers of a tree are finite, are numbers in JSON, and are not written like names. -/
def NumbersFinite (number : K) (t : Tree K Literal) : Prop :=
  ∃ T, t.term? Tree.root = some T ∧ HoldsFinite number T ∧ GivesNumbers T.toJson ∧
    NamelessNumbers number T

/-- The members of a number node that holds a finite number. -/
theorem givesNumbers_members {a : Label K Literal}
    (hnumber : ∀ kind : K, Written.json kind = .string "number" → kind = number)
    (h : a.kind = number → ∃ x : Binary64, a.value = some (.number x) ∧ x.isFinite = true)
    {rest : List (String × Json.Value)} (hrest : ∀ m ∈ rest, m.1 = "children")
    (htype : ("type", .string "number") ∈ Term.labelMembers a ++ rest) :
    (∃ text, ("value", .number text) ∈ Term.labelMembers a ++ rest) ∧
      ("value", .null) ∉ Term.labelMembers a ++ rest := by
  rcases a with ⟨kind, value, position⟩
  have hkind : kind = number := by
    apply hnumber
    rcases List.mem_append.1 htype with hmem | hmem
    · cases value <;> cases position <;> simpa [Term.labelMembers, eq_comm] using hmem
    · exact absurd (hrest _ hmem) (by decide)
  rcases h hkind with ⟨x, rfl, hfinite⟩
  have hjson : Written.json (Literal.number x) = .number (Layout.json.text x) := if_pos hfinite
  refine ⟨⟨Layout.json.text x, List.mem_append_left _ ?_⟩, fun hnull => ?_⟩
  · simp [Term.labelMembers, hjson]
  · rcases List.mem_append.1 hnull with hmem | hmem
    · cases position <;> simp [Term.labelMembers, hjson] at hmem
    · exact absurd (hrest _ hmem) (by decide)

/-- Where all numbers are finite, they are numbers in JSON. -/
theorem HoldsFinite.givesNumbers {T : Term (Label K Literal)} (h : HoldsFinite number T)
    (hnumber : ∀ kind : K, Written.json kind = .string "number" → kind = number) :
    GivesNumbers T.toJson := by
  induction T using Term.induction with
  | leaf a =>
      have hnothing : ∀ m ∈ ([] : List (String × Json.Value)), m.1 = "children" :=
        List.forall_mem_nil _
      have hmembers := givesNumbers_members hnumber (h a List.mem_cons_self) hnothing
      rw [List.append_nil] at hmembers
      refine .node hmembers fun items hitems => ?_
      rcases a with ⟨kind, value, position⟩
      cases value <;> cases position <;> simp [Term.labelMembers] at hitems
  | branch a ts ih =>
      have hchildren : ∀ m ∈ [(("children" : String), Json.Value.array (Term.toJsonList ts))],
          m.1 = "children" := by simp
      refine .node (givesNumbers_members hnumber (h a List.mem_cons_self) hchildren)
        fun items hitems v hv => ?_
      have heq : items = Term.toJsonList ts := by
        rcases a with ⟨kind, value, position⟩
        cases value <;> cases position <;> simpa [Term.labelMembers] using hitems
      rw [heq, Term.toJsonList_eq_map] at hv
      rcases List.mem_map.1 hv with ⟨S, hS, rfl⟩
      exact ih S hS fun b hb => h b (Term.mem_labels_of_mem hS hb)

/-- A number node whose members do not have `null` as their value holds a finite number. -/
theorem finite_of_members {a : Label K Literal} {x : Binary64} (hx : a.value = some (.number x))
    {rest : List (String × Json.Value)} (h : ("value", .null) ∉ Term.labelMembers a ++ rest) :
    x.isFinite = true := by
  cases hfinite : x.isFinite with
  | true => rfl
  | false =>
      have hjson : Written.json (Literal.number x) = .null := if_neg (by simp [hfinite])
      refine absurd (List.mem_append_left _ ?_) h
      rw [Term.labelMembers, hx, Option.map_some, hjson]
      exact List.mem_append_left _ (List.mem_append_right _ List.mem_cons_self)

/-- Where all number nodes are numbers in JSON, they hold finite numbers. -/
theorem GivesNumbers.holdsFinite {T : Term (Label K Literal)} (h : GivesNumbers T.toJson)
    (htype : Written.json number = .string "number")
    (hT : ∀ a ∈ T.labels, a.kind = number → ∃ x, a.value = some (.number x)) :
    HoldsFinite number T := by
  have hmember : ∀ {a : Label K Literal} {rest}, a.kind = number →
      ("type", .string "number") ∈ Term.labelMembers a ++ rest := by
    intro a rest hkind
    rw [Term.labelMembers, hkind, htype]
    exact List.mem_cons_self
  induction T using Term.induction with
  | leaf a =>
      intro b hb hkind
      obtain rfl := List.mem_singleton.1 hb
      rcases hT b hb hkind with ⟨x, hx⟩
      rw [Term.toJson, ← List.append_nil (Term.labelMembers b)] at h
      rcases h with ⟨hvalue, -⟩
      exact ⟨x, hx, finite_of_members hx (hvalue (hmember hkind)).2⟩
  | branch a ts ih =>
      rcases h with ⟨hvalue, hchildren⟩
      intro b hb hkind
      rcases Term.mem_labels_branch.1 hb with rfl | ⟨S, hS, hbS⟩
      · rcases hT b hb hkind with ⟨x, hx⟩
        exact ⟨x, hx, finite_of_members hx (hvalue (hmember hkind)).2⟩
      · have hjson : S.toJson ∈ Term.toJsonList ts := by
          rw [Term.toJsonList_eq_map]
          exact List.mem_map_of_mem hS
        have hS' := hchildren _ (List.mem_append_right _ List.mem_cons_self) _ hjson
        exact ih S hS hS' (fun c hc => hT c (Term.mem_labels_of_mem hS hc)) b hbS hkind

/-- A finite number is not written like a name. -/
theorem HoldsFinite.nameless {T : Term (Label K Literal)} (h : HoldsFinite number T) :
    NamelessNumbers number T := by
  intro a ha hkind
  rcases h a ha hkind with ⟨x, hx, hfinite⟩
  have htext : Term.leafText a = x.display := by
    rw [Term.leafText, hx]
    rfl
  rcases Binary64.figures_display hfinite with ⟨hne, hall⟩
  rcases List.exists_cons_of_ne_nil hne with ⟨c, rest, hchars⟩
  have hfigure : Layout.isFigure c = true := hall c (hchars ▸ List.mem_cons_self)
  have hletter : Lexeme.isLetter c = false := by
    refine Bool.eq_false_iff.2 fun hlower => ?_
    have hnumeric := Draft.isNumeric_of_isLetter hlower
    have hminus : c ≠ '-' := by
      rintro rfl
      cases hlower
    simp only [Lexeme.isNumeric, Bool.or_eq_false_iff] at hnumeric
    simp [Layout.isFigure, hnumeric, hminus] at hfigure
  rw [htext, hchars, isName, List.all_cons, hletter]
  simp

theorem HoldsFinite.numbersFinite {t : Tree K Literal} {T : Term (Label K Literal)}
    (hnumber : ∀ kind : K, Written.json kind = .string "number" → kind = number)
    (hT : t.term? Tree.root = some T) (h : HoldsFinite number T) : NumbersFinite number t :=
  ⟨T, hT, h, h.givesNumbers hnumber, h.nameless⟩

end Terms

theorem SyntaxKind.eq_number (kind : SyntaxKind) (h : Written.json kind = .string "number") :
    kind = .number := by
  have hword : kind.word = "number" := Json.Value.string.inj h
  cases kind <;> first | rfl | exact absurd hword (by decide)

theorem ExprKind.eq_number (kind : ExprKind) (h : Written.json kind = .string "number") :
    kind = .number := by
  have hword : kind.word = "number" := Json.Value.string.inj h
  cases kind <;> first | rfl | exact absurd hword (by decide)

/-! ## Both trees of a text -/

/-- A number node of what was made is a copy of a number node. -/
theorem Made.source_of_number {Source : Label SyntaxKind Literal → Prop} {S : ExprTerm}
    (h : Made Source S) : ∀ a ∈ S.labels, a.kind = .number →
      ∃ b, Source b ∧ b.kind = .number ∧ b.value = a.value := by
  have hinside : ∀ {c : Label ExprKind Literal} {ts : List ExprTerm}, c.kind ≠ .number →
      (∀ T ∈ ts, ∀ a ∈ T.labels, a.kind = .number →
        ∃ b, Source b ∧ b.kind = .number ∧ b.value = a.value) →
      ∀ a ∈ (Term.branch c ts).labels, a.kind = .number →
        ∃ b, Source b ∧ b.kind = .number ∧ b.value = a.value := by
    intro c ts hc hts a ha hkind
    rcases Term.mem_labels_branch.1 ha with rfl | ⟨T, hT, haT⟩
    · exact absurd hkind hc
    · exact hts T hT a haT hkind
  induction h with
  | @number b source kind =>
      intro a ha _
      obtain rfl := List.mem_singleton.1 ha
      exact ⟨b, source, kind, rfl⟩
  | operator source kind =>
      intro a ha hnumber
      obtain rfl := List.mem_singleton.1 ha
      cases hnumber
  | bareName source kind =>
      intro a ha hnumber
      obtain rfl := List.mem_singleton.1 ha
      cases hnumber
  | group _ ih => exact hinside nofun ih
  | bracket _ ih => exact hinside nofun ih
  | function _ _ _ ih => exact hinside nofun ih

variable (text) in
/-- The number of a token. -/
theorem Token.ordinal?_number {token : Token} (hword : kind? token.word = some token.kind)
    (hkind : token.kind = .number) : ∃ o, token.ordinal? text = some o ∧
      o ≤ Binary64.infinityOrdinal ∧ (o < Binary64.infinityOrdinal ↔ InRange token.word) := by
  rcases token with ⟨kind, start, word⟩
  subst hkind
  rcases parse?_inRange (kind?_eq_number hword) with ⟨x, hx, hnan, hfinite⟩
  refine ⟨x.ordinal, ?_, ?_, ?_⟩
  · simp [Token.ordinal?, Token.label, Calculator.ordinal?, hx, Literal.number?]
  · simpa [Binary64.isNaN] using hnan
  · simpa [Binary64.isFinite] using hfinite

theorem Token.kind_of_ordinal? {token : Token} {o : Nat} (h : token.ordinal? text = some o) :
    token.kind = .number := by
  rcases token with ⟨kind, start, word⟩
  cases kind with
  | number => rfl
  | name => cases h
  | operator op => cases h
  | opening => cases h
  | closing => cases h

/-- Every ordinal in the tree of a text is that of a number of the text. -/
theorem ordinal_le {o : Nat} (h : o ∈ (tokens text).filterMap (Token.ordinal? text)) :
    o ≤ Binary64.infinityOrdinal := by
  rcases List.mem_filterMap.1 h with ⟨token, htoken, hordinal⟩
  rcases Token.ordinal?_number text (of_mem_tokensFrom htoken).2 (Token.kind_of_ordinal? hordinal) with
    ⟨o', ho', hle, -⟩
  rw [hordinal] at ho'
  exact Option.some.inj ho' ▸ hle

/-- All ordinals are finite exactly if all numbers of the text are in range. -/
theorem ordinals_finite_iff :
    (∀ o ∈ (tokens text).filterMap (Token.ordinal? text), o < Binary64.infinityOrdinal) ↔
      ∀ token ∈ tokens text, token.kind = .number → InRange token.word := by
  constructor
  · intro h token htoken hkind
    rcases Token.ordinal?_number text (of_mem_tokensFrom htoken).2 hkind with
      ⟨o, ho, -, hfinite⟩
    exact hfinite.1 (h o (List.mem_filterMap.2 ⟨token, htoken, ho⟩))
  · intro h o ho
    rcases List.mem_filterMap.1 ho with ⟨token, htoken, hordinal⟩
    have hkind := Token.kind_of_ordinal? hordinal
    rcases Token.ordinal?_number text (of_mem_tokensFrom htoken).2 hkind with
      ⟨o', ho', -, hfinite⟩
    rw [hordinal] at ho'
    exact Option.some.inj ho' ▸ hfinite.2 (h token htoken hkind)

/-- Number nodes hold finite numbers exactly if all ordinals are finite. -/
theorem holdsFinite_iff
    (hT : ∀ a ∈ T.labels, a.kind = .number ↔ ∃ x, a.value = some (.number x)) :
    HoldsFinite .number T ↔ ∀ o ∈ ordinals T, o < Binary64.infinityOrdinal := by
  constructor
  · intro h o ho
    rcases List.mem_filterMap.1 ho with ⟨a, ha, hordinal⟩
    rcases Option.map_eq_some_iff.1 hordinal with ⟨x, hx, rfl⟩
    rcases Option.bind_eq_some_iff.1 hx with ⟨v, hv, hnumber⟩
    cases v with
    | number y =>
        rcases h a ha ((hT a ha).2 ⟨y, hv⟩) with ⟨z, hz, hfinite⟩
        obtain rfl : y = x := Option.some.inj hnumber
        obtain rfl : y = z := by simpa [hv] using hz
        exact of_decide_eq_true hfinite
    | operator op => cases hnumber
    | name text => cases hnumber
    | level l => cases hnumber
  · intro h a ha hkind
    rcases (hT a ha).1 hkind with ⟨x, hx⟩
    have hordinal : ordinal? a = some x.ordinal := by
      rw [ordinal?, hx]
      rfl
    exact ⟨x, hx, decide_eq_true (h _ (List.mem_filterMap.2 ⟨a, ha, hordinal⟩))⟩

/-- What is grouped from finite numbers has finite numbers only. -/
theorem holdsFinite_of_group {t : SyntaxTree} {T : SourceTerm} {limits : Limits} {out : ExprTree}
    (hT : t.idTerm? Tree.root = some T) (hplain : Plain T) (hout : group t limits = .success out)
    (h : HoldsFinite .number (T.map Prod.snd)) :
    ∃ E, out.term? Tree.root = some E ∧ HoldsFinite .number E := by
  rcases made_of_group hT hplain hout with ⟨items, hterm, hmade⟩
  refine ⟨_, hterm, fun a ha hkind => ?_⟩
  rcases Term.mem_labels_branch.1 ha with rfl | ⟨S, hS, haS⟩
  · cases hkind
  · rcases (hmade S hS).source_of_number a haS hkind with ⟨b, ⟨X, hX, hb⟩, hnumber, hvalue⟩
    have hmem : b ∈ (T.map Prod.snd).labels := by
      cases T with
      | leaf c => cases hX
      | branch c Xs =>
          rw [Term.map, Term.mapList_eq_map]
          exact Term.mem_labels_of_mem (List.mem_map_of_mem hX) hb
    rw [← hvalue]
    exact h b hmem hnumber

/-! ## The result -/

/-- Every number in the tree of a text is finite or infinite.  The numbers of the tree and of all that is
grouped from it are finite, are numbers in JSON and are not written like names, exactly if the numbers of
the text are all smaller than what is rounded to infinity. -/
theorem numbers_finite_iff {text : SourceText} {limits : Limits} {t : SyntaxTree}
    (h : read text limits = .ok t) :
    (∀ T, t.term? Tree.root = some T → ∀ a ∈ T.labels, ∀ x, a.value = some (.number x) →
      x.isNaN = false) ∧
    ((NumbersFinite .number t ∧
        ∀ limits' out, group t limits' = .success out → NumbersFinite .number out) ↔
      ∀ token ∈ tokens text, token.kind = .number → InRange token.word) := by
  rcases ordinals_of_read h with ⟨T, hT, hplain, hordinals, hnumbers⟩
  have hterm : t.term? Tree.root = some (T.map Prod.snd) := by
    rw [Tree.term?, hT]
    rfl
  have hfinite : HoldsFinite .number (T.map Prod.snd) ↔
      ∀ token ∈ tokens text, token.kind = .number → InRange token.word := by
    rw [holdsFinite_iff hnumbers, hordinals]
    exact ordinals_finite_iff
  refine ⟨fun T' hT' a ha x hx => ?_, ?_⟩
  · obtain rfl : T.map Prod.snd = T' := Option.some.inj (hterm.symm.trans hT')
    have hordinal : ordinal? a = some x.ordinal := by
      rw [ordinal?, hx]
      rfl
    have hmem : x.ordinal ∈ ordinals (T.map Prod.snd) := List.mem_filterMap.2 ⟨a, ha, hordinal⟩
    rw [hordinals] at hmem
    simpa [Binary64.isNaN] using ordinal_le hmem
  · rw [← hfinite]
    constructor
    · rintro ⟨⟨T', hT', hholds, -⟩, -⟩
      obtain rfl : T.map Prod.snd = T' := Option.some.inj (hterm.symm.trans hT')
      exact hholds
    · intro hholds
      refine ⟨hholds.numbersFinite SyntaxKind.eq_number hterm, fun limits' out hout => ?_⟩
      rcases holdsFinite_of_group hT hplain hout hholds with ⟨E, hE, hE'⟩
      exact hE'.numbersFinite ExprKind.eq_number hE

/-- A signed number with a point, in a product. -/
theorem numbers_finite_product :
    ∃ t, read (.ofString "-2.50*x") {} = .ok t ∧
      (∀ token ∈ tokens (.ofString "-2.50*x"), token.kind = .number → InRange token.word) ∧
      NumbersFinite .number t ∧
      ∀ limits' out, group t limits' = .success out → NumbersFinite .number out := by
  have hok : (read (.ofString "-2.50*x") {}).isOk = true := by
    rw [read_eq_foldlM]
    decide +kernel
  have hrange : ∀ token ∈ tokens (.ofString "-2.50*x"), token.kind = .number →
      InRange token.word := by decide +kernel
  cases h : read (.ofString "-2.50*x") {} with
  | error e =>
      rw [h] at hok
      cases hok
  | ok t => exact ⟨t, rfl, hrange, (numbers_finite_iff h).2.2 hrange⟩

/-- The text of 309 nines. -/
def nines : SourceText := .ofList (List.replicate 309 '9')

/-- All of them are one token. -/
theorem tokens_nines : tokens nines = [⟨.number, 0, List.replicate 309 '9'⟩] := by
  decide +kernel

/-- It is read, as a number that is infinite, is `null` in JSON and is written like a name. -/
theorem nines_overflow :
    ∃ t T, read nines {} = .ok t ∧ t.term? Tree.root = some T ∧ ¬ HoldsFinite .number T ∧
      ¬ GivesNumbers T.toJson ∧ ¬ NamelessNumbers .number T ∧ T.render = "(calculator inf)" := by
  have hok : (read nines {}).isOk = true := by
    rw [read_eq_foldlM]
    decide +kernel
  cases h : read nines {} with
  | error e =>
      rw [h] at hok
      cases hok
  | ok t =>
      rcases nest_of_read h with ⟨items, hnest, hterm⟩
      obtain ⟨a, ha, hkind, hvalue⟩ : ∃ a : Label SyntaxKind Literal, items = [.leaf a] ∧
          a.kind = .number ∧ a.value = some (.number (.infinity false)) := by
        rw [tokens_nines, nest_leaf (by decide) (by decide)] at hnest
        refine ⟨_, (Option.some.inj hnest).symm, rfl, ?_⟩
        decide +kernel
      subst ha
      have hmem : a ∈ (Term.branch (rootLabel nines) [.leaf a]).labels := by
        simp [Term.labels, Term.labelsList]
      have htext : Term.leafText a = "inf" := by
        rw [Term.leafText, hvalue]
        rfl
      have hinfinite : ¬ HoldsFinite .number (Term.branch (rootLabel nines) [.leaf a]) := by
        intro hfinite
        rcases hfinite a hmem hkind with ⟨x, hx, hx'⟩
        obtain rfl : Binary64.infinity false = x := by simpa [hvalue] using hx
        cases hx'
      refine ⟨t, .branch (rootLabel nines) [.leaf a], rfl, hterm, hinfinite, fun hgives => ?_,
        fun hnameless => ?_, ?_⟩
      · refine hinfinite (hgives.holdsFinite rfl fun b hb hkind => ?_)
        rcases Term.mem_labels_branch.1 hb with rfl | ⟨S, hS, hbS⟩
        · cases hkind
        · obtain rfl := List.mem_singleton.1 hS
          obtain rfl := List.mem_singleton.1 hbS
          exact ⟨_, hvalue⟩
      · have hname : isName (Term.leafText a).toList = true := by
          rw [htext]
          decide
        rw [hnameless a hmem hkind] at hname
        cases hname
      · simp only [Term.render, Term.renderList, htext]
        rfl

end Calculator
end FeatureTree
