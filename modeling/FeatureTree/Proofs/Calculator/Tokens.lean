import FeatureTree.Calculator.Lexeme
import FeatureTree.Proofs.Decimal.Spelling
import FeatureTree.Tree.Term

/-!
# Tokens — the words of arithmetic text, by longest match

A word is a number, a name, an operator or a bracket.  `tokens` walks through a text from left to right,
takes the longest word that starts where it stands, and passes over a character that starts no word.

Numbers are runs of digits with at most one point among them.  A point alone is a number too, and a
second point starts a new one.
-/

namespace FeatureTree
namespace Calculator

/-! ## Words -/

/-- What a word is. -/
inductive TokenKind where
  | number
  | name
  | operator (op : Operator)
  | opening
  | closing
  deriving DecidableEq, Repr

/-- A run of digits and points, with at most one point. -/
def isNumber (word : List Char) : Bool :=
  !word.isEmpty && word.all Lexeme.isNumeric && word.count '.' ≤ 1

/-- A run of small letters. -/
def isName (word : List Char) : Bool := !word.isEmpty && word.all Lexeme.isLetter

/-- An operator or a bracket, which is one character long. -/
def mark? : List Char → Option TokenKind
  | [c] =>
      if c = '(' then some .opening
      else if c = ')' then some .closing
      else (Operator.ofChar? c).map .operator
  | _ => none

/-- The kind of a word; none if the characters are no word. -/
def kind? (word : List Char) : Option TokenKind :=
  if isNumber word then some .number else if isName word then some .name else mark? word

/-- The longest word among the first characters of a text, up to a length. -/
def longestUpTo? (text : List Char) : Nat → Option (TokenKind × List Char)
  | 0 => none
  | length + 1 =>
      match kind? (text.take (length + 1)) with
      | some kind => some (kind, text.take (length + 1))
      | none => longestUpTo? text length

/-- The longest word that a text starts with. -/
def longest? (text : List Char) : Option (TokenKind × List Char) := longestUpTo? text text.length

/-! ### What the kinds say -/

theorem isNumber_parts {word : List Char} (h : isNumber word = true) :
    word ≠ [] ∧ (∀ c ∈ word, Lexeme.isNumeric c = true) ∧ word.count '.' ≤ 1 := by
  simp only [isNumber, Bool.and_eq_true, Bool.not_eq_true', List.isEmpty_eq_false_iff,
    List.all_eq_true, decide_eq_true_eq] at h
  exact ⟨h.1.1, h.1.2, h.2⟩

theorem kind?_eq_number {word : List Char} (h : kind? word = some .number) :
    isNumber word = true := by
  unfold kind? at h
  split at h
  · assumption
  · split at h
    · cases h
    · exfalso
      unfold mark? at h
      repeat' split at h
      all_goals simp at h

theorem kind?_eq_name {word : List Char} (h : kind? word = some .name) : isName word = true := by
  unfold kind? at h
  split at h
  · cases h
  · split at h
    · assumption
    · exfalso
      unfold mark? at h
      repeat' split at h
      all_goals simp at h

/-- Every other word is one character. -/
theorem kind?_eq_mark {word : List Char} {kind : TokenKind} (h : kind? word = some kind)
    (hnumber : kind ≠ .number) (hname : kind ≠ .name) : mark? word = some kind := by
  unfold kind? at h
  split at h
  · exact absurd (Option.some.inj h).symm hnumber
  · split at h
    · exact absurd (Option.some.inj h).symm hname
    · exact h

theorem mark?_eq_some {word : List Char} {kind : TokenKind} (h : mark? word = some kind) :
    word = ['('] ∧ kind = .opening ∨ word = [')'] ∧ kind = .closing ∨
      ∃ c op, word = [c] ∧ Operator.ofChar? c = some op ∧ kind = .operator op := by
  unfold mark? at h
  split at h
  · next c =>
      split at h
      · next hc => exact .inl ⟨by rw [hc], (Option.some.inj h).symm⟩
      · split at h
        · next hc => exact .inr (.inl ⟨by rw [hc], (Option.some.inj h).symm⟩)
        · rcases Option.map_eq_some_iff.1 h with ⟨op, hop, rfl⟩
          exact .inr (.inr ⟨c, op, rfl, hop, rfl⟩)
  · cases h

theorem kind?_ne_none {word : List Char} (h : isNumber word = true ∨ isName word = true) :
    kind? word ≠ none := by
  unfold kind?
  split
  · simp
  · next hnumber => simp [h.resolve_left hnumber]

theorem symbol_of_ofChar? {c : Char} {op : Operator} (h : Operator.ofChar? c = some op) :
    c = op.symbol := by
  unfold Operator.ofChar? at h
  split at h
  · cases h
    assumption
  · split at h
    · cases h
      assumption
    · split at h
      · cases h
        assumption
      · split at h
        · cases h
          assumption
        · split at h
          · cases h
            assumption
          · cases h

/-- What may stand in a number or in a name is no operator and no bracket. -/
theorem mark?_eq_none {c : Char} (h : Lexeme.isNumeric c = true ∨ Lexeme.isLetter c = true) :
    mark? [c] = none := by
  cases hmark : mark? [c] with
  | none => rfl
  | some kind =>
      exfalso
      rcases mark?_eq_some hmark with ⟨hc, -⟩ | ⟨hc, -⟩ | ⟨d, op, hc, hop, -⟩
      · rw [(List.cons.inj hc).1] at h
        exact absurd h (by decide)
      · rw [(List.cons.inj hc).1] at h
        exact absurd h (by decide)
      · rw [(List.cons.inj hc).1, symbol_of_ofChar? hop] at h
        cases op <;> exact absurd h (by decide)

theorem of_mark?_eq_none {c : Char} (h : mark? [c] = none) :
    c ≠ '(' ∧ c ≠ ')' ∧ Operator.ofChar? c = none := by
  simp only [mark?] at h
  split at h
  · cases h
  · next hopening =>
      split at h
      · cases h
      · next hclosing => exact ⟨hopening, hclosing, Option.map_eq_none_iff.1 h⟩

theorem isNumber_singleton {c : Char} (h : Lexeme.isNumeric c = true) : isNumber [c] = true := by
  have hcount : [c].count '.' ≤ 1 := List.count_le_length
  simp [isNumber, h, hcount]

theorem isName_singleton {c : Char} (h : Lexeme.isLetter c = true) : isName [c] = true := by
  simp [isName, h]

/-- A character that is no word may stand nowhere. -/
theorem of_kind?_eq_none {c : Char} (h : kind? [c] = none) :
    Lexeme.isNumeric c = false ∧ Lexeme.isLetter c = false ∧ mark? [c] = none := by
  unfold kind? at h
  split at h
  · cases h
  · next hnumber =>
      split at h
      · cases h
      · next hname =>
          refine ⟨?_, ?_, h⟩
          · exact Bool.eq_false_iff.2 fun hc => hnumber (isNumber_singleton hc)
          · exact Bool.eq_false_iff.2 fun hc => hname (isName_singleton hc)

/-! ### What the longest word is -/

@[simp] theorem kind?_nil : kind? [] = none := rfl

theorem longestUpTo?_eq_some {text word : List Char} {kind : TokenKind} {bound : Nat}
    (h : longestUpTo? text bound = some (kind, word)) :
    word <+: text ∧ kind? word = some kind ∧
      ∀ longer, longer <+: text → longer.length ≤ bound → kind? longer ≠ none →
        longer.length ≤ word.length := by
  induction bound with
  | zero => cases h
  | succ bound ih =>
      unfold longestUpTo? at h
      split at h
      · next found hfound =>
          rcases Prod.mk.inj (Option.some.inj h) with ⟨rfl, rfl⟩
          refine ⟨List.take_prefix _ _, hfound, ?_⟩
          intro longer hstarts hlength _
          have htext := hstarts.length_le
          rw [List.length_take]
          omega
      · next hnone =>
          rcases ih h with ⟨hstarts, hkind, hlongest⟩
          refine ⟨hstarts, hkind, ?_⟩
          intro longer hlonger hlength hword
          rcases Nat.lt_or_ge bound longer.length with hfull | hshort
          · -- The only prefix of this length is the one that was tried.
            have heq : longer = text.take (bound + 1) := by
              rw [List.prefix_iff_eq_take.1 hlonger]
              congr 1
              omega
            exact absurd (heq ▸ hnone) hword
          · exact hlongest longer hlonger hshort hword

theorem longestUpTo?_eq_none {text word : List Char} {bound : Nat}
    (h : longestUpTo? text bound = none) (hstarts : word <+: text) (hlength : word.length ≤ bound) :
    kind? word = none := by
  induction bound with
  | zero =>
      obtain rfl := List.length_eq_zero_iff.1 (Nat.le_zero.1 hlength)
      rfl
  | succ bound ih =>
      unfold longestUpTo? at h
      split at h
      · cases h
      · next hnone =>
          rcases Nat.lt_or_ge bound word.length with hfull | hshort
          · have heq : word = text.take (bound + 1) := by
              rw [List.prefix_iff_eq_take.1 hstarts]
              congr 1
              omega
            exact heq ▸ hnone
          · exact ih h hshort

/-- The longest word is a word that the text starts with, and no longer one is. -/
theorem longest?_eq_some {text word : List Char} {kind : TokenKind}
    (h : longest? text = some (kind, word)) :
    word <+: text ∧ kind? word = some kind ∧
      ∀ longer, longer <+: text → kind? longer ≠ none → longer.length ≤ word.length := by
  rcases longestUpTo?_eq_some h with ⟨hstarts, hkind, hlongest⟩
  exact ⟨hstarts, hkind, fun longer hlonger => hlongest longer hlonger hlonger.length_le⟩

/-- No word starts where there is no longest one. -/
theorem longest?_eq_none {text word : List Char} (h : longest? text = none)
    (hstarts : word <+: text) : kind? word = none :=
  longestUpTo?_eq_none h hstarts hstarts.length_le

/-- A text that starts with a word is that word and a rest which does not continue it. -/
theorem longest?_split {text word : List Char} {kind : TokenKind}
    (h : longest? text = some (kind, word)) :
    kind? word = some kind ∧ word ≠ [] ∧
      ∃ rest, text = word ++ rest ∧ ∀ c ∈ rest.head?, kind? (word ++ [c]) = none := by
  rcases longest?_eq_some h with ⟨⟨rest, rfl⟩, hkind, hlongest⟩
  refine ⟨hkind, ?_, rest, rfl, ?_⟩
  · rintro rfl
    cases hkind
  · intro c hc
    rcases List.head?_eq_some_iff.1 hc with ⟨tail, rfl⟩
    cases hword : kind? (word ++ [c]) with
    | none => rfl
    | some found =>
        have hlength := hlongest (word ++ [c]) ⟨tail, by simp⟩ (by simp [hword])
        rw [List.length_append] at hlength
        exact absurd hlength (by simp)

/-! ## Tokens -/

/-- A word of a text with the offset at which it starts. -/
structure Token where
  kind : TokenKind
  start : Nat
  word : List Char
  deriving DecidableEq, Repr

/-- The offset behind the last character. -/
def Token.stop (token : Token) : Nat := token.start + token.word.length

/-- The tokens of a text whose first character has the offset `start`. -/
def tokensFrom (start : Nat) (text : List Char) : List Token :=
  match text with
  | [] => []
  | c :: rest =>
      match h : longest? (c :: rest) with
      | none => tokensFrom (start + 1) rest
      | some (kind, word) =>
          ⟨kind, start, word⟩ :: tokensFrom (start + word.length) ((c :: rest).drop word.length)
termination_by text.length
decreasing_by
  · simp
  · have hword := List.length_pos_iff.2 (longest?_split h).2.1
    simp only [List.length_drop, List.length_cons]
    omega

/-- The tokens of a text. -/
def tokens (text : SourceText) : List Token := tokensFrom 0 text.chars.toList

theorem tokensFrom_nil (start : Nat) : tokensFrom start [] = [] := by
  rw [tokensFrom]

theorem tokensFrom_skip {start : Nat} {c : Char} {rest : List Char}
    (h : longest? (c :: rest) = none) :
    tokensFrom start (c :: rest) = tokensFrom (start + 1) rest := by
  rw [tokensFrom]
  split
  · rfl
  · next kind word hword => simp [h] at hword

theorem tokensFrom_word {start : Nat} {kind : TokenKind} {word rest : List Char}
    (h : longest? (word ++ rest) = some (kind, word)) :
    tokensFrom start (word ++ rest) =
      ⟨kind, start, word⟩ :: tokensFrom (start + word.length) rest := by
  cases htext : word ++ rest with
  | nil =>
      rw [htext] at h
      cases h
  | cons c tail =>
      rw [tokensFrom]
      split
      · next hnone => simp [← htext, h] at hnone
      · next kind' word' hword =>
          rw [← htext, h] at hword
          rcases Prod.mk.inj (Option.some.inj hword) with ⟨rfl, rfl⟩
          rw [← htext, List.drop_left]

/-! ## Numbers as words -/

/-- The digits of a number, with a zero before a leading point. -/
def spelling : List Char → List Char
  | '.' :: rest => '0' :: '.' :: rest
  | word => word

theorem digits_of_isNumeric {word : List Char} (hnumeric : ∀ c ∈ word, Lexeme.isNumeric c = true)
    (hpoint : '.' ∉ word) : ∀ c ∈ word, c.isDigit = true := by
  intro c hc
  have hne : c ≠ '.' := fun h => hpoint (h ▸ hc)
  simpa [Lexeme.isNumeric, hne] using hnumeric c hc

/-- Every number is spelled as digits, perhaps with a point behind some of them. -/
theorem spelling_of_isNumber {word : List Char} (h : isNumber word = true) :
    ∃ whole, whole ≠ [] ∧ (∀ c ∈ whole, c.isDigit = true) ∧
      (spelling word = whole ∨ ∃ behind, (∀ c ∈ behind, c.isDigit = true) ∧
        spelling word = whole ++ '.' :: behind) := by
  rcases isNumber_parts h with ⟨hne, hnumeric, hcount⟩
  -- One point at most: in front of it and behind it there are digits only.
  by_cases hpoint : '.' ∈ word
  · rcases List.append_of_mem hpoint with ⟨whole, behind, rfl⟩
    rw [List.count_append, List.count_cons_self] at hcount
    have hwhole : ∀ c ∈ whole, c.isDigit = true :=
      digits_of_isNumeric (fun c hc => hnumeric c (by simp [hc]))
        (List.count_eq_zero.1 (by omega))
    have hbehind : ∀ c ∈ behind, c.isDigit = true :=
      digits_of_isNumeric (fun c hc => hnumeric c (by simp [hc]))
        (List.count_eq_zero.1 (by omega))
    -- A leading point gets a zero, which is what `spelling` puts there.
    cases whole with
    | nil => exact ⟨['0'], by simp, by simp, .inr ⟨behind, hbehind, rfl⟩⟩
    | cons c tail =>
        refine ⟨c :: tail, by simp, hwhole, .inr ⟨behind, hbehind, ?_⟩⟩
        unfold spelling
        split
        · next heq =>
            have hc := hwhole c List.mem_cons_self
            rw [(List.cons.inj heq).1] at hc
            exact absurd hc (by decide)
        · rfl
  · refine ⟨word, hne, digits_of_isNumeric hnumeric hpoint, .inl ?_⟩
    unfold spelling
    split
    · exact absurd List.mem_cons_self hpoint
    · rfl

/-- Every number has a value, which is not negative. -/
theorem parse?_spelling {word : List Char} (h : isNumber word = true) :
    ∃ x, Binary64.parse? (spelling word) = some x ∧ x.negative = false := by
  rcases spelling_of_isNumber h with ⟨whole, hne, hwhole, heq | ⟨behind, hbehind, heq⟩⟩
  · exact ⟨_, heq ▸ Binary64.parse?_digits hne hwhole, rfl⟩
  · exact ⟨_, heq ▸ Binary64.parse?_point hne hwhole hbehind, rfl⟩

theorem spelling_append {word : List Char} (hne : word ≠ []) (c : Char) :
    spelling (word ++ [c]) = spelling word ++ [c] := by
  cases word with
  | nil => exact absurd rfl hne
  | cons b rest =>
      by_cases hb : b = '.'
      · subst hb
        rfl
      · simp [spelling, hb]

end Calculator
end FeatureTree
