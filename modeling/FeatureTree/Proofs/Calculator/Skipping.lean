import FeatureTree.Calculator.Pipeline
import FeatureTree.Proofs.Calculator.Verdict
import FeatureTree.Proofs.Calculator.Unplaced

/-!
# Skipping — a text with one more character that belongs to no word

A character that stands in no word may be put into a text at any place that is not inside of a word.  The
tokens stay the same; those behind the new character start one character later (`tokens_insert`).  So the
scan comes to the same verdict, and what it rejects is the same place of the text (`sameVerdict`).

What is read of the two texts differs in spans only, and grouping does not look at spans.  So both texts
give trees that are written alike, or the same error (`skipped_insignificant`).
-/

namespace FeatureTree
namespace Calculator

open Reading

/-! ## Characters that are in no word -/

variable {c : Char} {u v text word : List Char} {start cut : Nat}

/-- No feature claims the character. -/
def IsSkipped (c : Char) : Prop := Lexeme.candidates c = []

theorem IsSkipped.not_word (h : IsSkipped c) :
    Lexeme.isNumeric c = false ∧ Lexeme.isLetter c = false ∧ mark? [c] = none := by
  unfold IsSkipped Lexeme.candidates at h
  split at h
  · cases h
  · next hopening =>
      split at h
      · cases h
      · next hclosing =>
          split at h
          · cases h
          · next hoperator =>
              split at h
              · cases h
              · next hnumeric =>
                  split at h
                  · cases h
                  · next hletter =>
                      refine ⟨Bool.eq_false_iff.2 hnumeric, Bool.eq_false_iff.2 hletter, ?_⟩
                      simpa [mark?, hopening, hclosing] using hoperator

theorem IsSkipped.kind?_eq_none (h : IsSkipped c) (hc : c ∈ word) : kind? word = none := by
  rcases h.not_word with ⟨hnumeric, hletter, hmark⟩
  cases hkind : kind? word with
  | none => rfl
  | some kind =>
      exfalso
      by_cases hnumber : kind = .number
      · subst hnumber
        have hc' := (isNumber_parts (kind?_eq_number hkind)).2.1 c hc
        rw [hnumeric] at hc'
        cases hc'
      by_cases hname : kind = .name
      · subst hname
        have hall := (Bool.and_eq_true_iff.1 (kind?_eq_name hkind)).2
        have hc' := List.all_eq_true.1 hall c hc
        rw [hletter] at hc'
        cases hc'
      · -- Any other word is one character long.
        have hone := kind?_eq_mark hkind hnumber hname
        obtain ⟨d, rfl⟩ : ∃ d, word = [d] := by
          rcases mark?_eq_some hone with ⟨heq, -⟩ | ⟨heq, -⟩ | ⟨d, -, heq, -⟩ <;> exact ⟨_, heq⟩
        obtain rfl : c = d := List.mem_singleton.1 hc
        rw [hmark] at hone
        cases hone

/-! ## The longest word -/

/-- Texts that start with the same words start with the same longest word. -/
theorem longest?_congr {text' : List Char}
    (h : ∀ word, kind? word ≠ none → (word <+: text ↔ word <+: text')) :
    longest? text = longest? text' := by
  cases hword : longest? text with
  | none =>
      cases hword' : longest? text' with
      | none => rfl
      | some found =>
          rcases found with ⟨kind, word⟩
          rcases longest?_eq_some hword' with ⟨hbegins, hkind, -⟩
          have hne : kind? word ≠ none := by simp [hkind]
          exact absurd (longest?_eq_none hword ((h word hne).2 hbegins)) hne
  | some found =>
      rcases found with ⟨kind, word⟩
      rcases longest?_eq_some hword with ⟨hbegins, hkind, hlongest⟩
      have hne : kind? word ≠ none := by simp [hkind]
      cases hword' : longest? text' with
      | none => exact absurd (longest?_eq_none hword' ((h word hne).1 hbegins)) hne
      | some found' =>
          rcases found' with ⟨kind', word'⟩
          rcases longest?_eq_some hword' with ⟨hbegins', hkind', hlongest'⟩
          have hne' : kind? word' ≠ none := by simp [hkind']
          -- Each of the two words is as long as the other, and both start the same text.
          have hlength : word'.length = word.length :=
            Nat.le_antisymm (hlongest word' ((h word' hne').2 hbegins') hne')
              (hlongest' word ((h word hne).1 hbegins) hne)
          have heq : word' = word := by
            rw [List.prefix_iff_eq_take.1 ((h word' hne').2 hbegins'),
              List.prefix_iff_eq_take.1 hbegins, hlength]
          subst heq
          rw [hkind] at hkind'
          rw [Option.some.inj hkind']

/-- A word in front of the new character is a word without it, and the other way round. -/
theorem prefix_insert_iff (hc : IsSkipped c) (hword : kind? word ≠ none)
    (hfits : word <+: u ++ v → word.length ≤ u.length) :
    word <+: u ++ v ↔ word <+: u ++ c :: v := by
  have hfront : ∀ rest : List Char, word <+: u ++ rest → word.length ≤ u.length → word <+: u := by
    intro rest hbegins hlength
    exact List.prefix_of_prefix_length_le hbegins (List.prefix_append u rest) hlength
  constructor
  · intro hbegins
    exact (hfront v hbegins (hfits hbegins)).trans (List.prefix_append _ _)
  · intro hbegins
    refine (hfront (c :: v) hbegins ?_).trans (List.prefix_append _ _)
    -- A longer word would hold the new character.
    rcases Nat.lt_or_ge u.length word.length with hlong | hshort
    · refine absurd (hc.kind?_eq_none ?_) hword
      have htext : u ++ [c] <+: u ++ c :: v := ⟨v, by simp⟩
      have hmore : u ++ [c] <+: word := by
        apply List.prefix_of_prefix_length_le htext hbegins
        rw [List.length_append]
        exact hlong
      exact hmore.subset (by simp)
    · exact hshort

/-! ## Tokens -/

/-- The offset of a character when one more character is put in at `cut`. -/
def shifted (cut offset : Nat) : Nat := if offset < cut then offset else offset + 1

/-- The token when one more character is put in at `cut`. -/
def Token.shift (cut : Nat) (token : Token) : Token := { token with start := shifted cut token.start }

/-- A token is a word that starts in the text. -/
theorem of_mem_tokensFrom {token : Token} (h : token ∈ tokensFrom start text) :
    start ≤ token.start ∧ kind? token.word = some token.kind := by
  induction start, text using tokensFrom.induct with
  | case1 start =>
      rw [tokensFrom_nil] at h
      cases h
  | case2 start c rest hnone ih =>
      rw [tokensFrom_skip hnone] at h
      exact ⟨Nat.le_of_succ_le (ih h).1, (ih h).2⟩
  | case3 start c rest kind word hword ih =>
      rcases longest?_split hword with ⟨hkind, -, rest', htext, -⟩
      rw [htext] at hword ih h
      rw [tokensFrom_word hword] at h
      rw [List.drop_left] at ih
      rcases List.mem_cons.1 h with rfl | hmem
      · exact ⟨Nat.le_refl _, hkind⟩
      · exact ⟨Nat.le_trans (Nat.le_add_right _ _) (ih hmem).1, (ih hmem).2⟩

/-- A text that starts one character later has its tokens one character later. -/
theorem tokensFrom_succ (start : Nat) (text : List Char) :
    tokensFrom (start + 1) text =
      (tokensFrom start text).map fun token => { token with start := token.start + 1 } := by
  induction start, text using tokensFrom.induct with
  | case1 start => rw [tokensFrom_nil, tokensFrom_nil, List.map_nil]
  | case2 start c rest hnone ih => rw [tokensFrom_skip hnone, tokensFrom_skip hnone, ih]
  | case3 start c rest kind word hword ih =>
      rcases longest?_split hword with ⟨-, hne, rest', htext, -⟩
      rw [htext] at hword ih ⊢
      rw [List.drop_left] at ih
      rw [tokensFrom_word hword, tokensFrom_word hword, List.map_cons, ← ih,
        Nat.add_right_comm start 1]

/-- No token lies on both sides of the place between `u` and `v`. -/
def Uncut (start : Nat) (u v : List Char) : Prop :=
  ∀ token ∈ tokensFrom start (u ++ v),
    ¬ (token.start < start + u.length ∧ start + u.length < token.stop)

/-- Only numbers and names are long enough to be cut. -/
theorem uncut_of_words
    (h : ∀ token ∈ tokensFrom start (u ++ v), token.kind = .number ∨ token.kind = .name →
      ¬ (token.start < start + u.length ∧ start + u.length < token.stop)) : Uncut start u v := by
  intro token htoken
  by_cases hkind : token.kind = .number ∨ token.kind = .name
  · exact h token htoken hkind
  · rcases not_or.1 hkind with ⟨hnumber, hname⟩
    have hone := kind?_eq_mark (of_mem_tokensFrom htoken).2 hnumber hname
    have hlength : token.word.length = 1 := by
      rcases mark?_eq_some hone with ⟨heq, -⟩ | ⟨heq, -⟩ | ⟨d, -, heq, -⟩ <;> rw [heq] <;> rfl
    rw [Token.stop, hlength]
    omega

namespace Uncut

/-- If no word starts in front, the rest is not cut either. -/
theorem skips {a : Char} (h : Uncut start (a :: u) v) (hnone : longest? (a :: u ++ v) = none) :
    Uncut (start + 1) u v := by
  have hlater : tokensFrom start (a :: u ++ v) = tokensFrom (start + 1) (u ++ v) :=
    tokensFrom_skip hnone
  have hsum : start + 1 + u.length = start + (a :: u).length := Nat.add_right_comm start 1 u.length
  intro token htoken
  rw [hsum]
  exact h token (hlater ▸ htoken)

/-- The first word ends in front of the place, and what is behind it is not cut. -/
theorem takes {kind : TokenKind} (h : Uncut start u v) (hne : u ≠ [])
    (hword : longest? (u ++ v) = some (kind, word)) :
    ∃ back, u = word ++ back ∧ Uncut (start + word.length) back v := by
  have hpos : 0 < u.length := List.length_pos_iff.2 hne
  rcases longest?_split hword with ⟨-, -, rest, htext, -⟩
  have hall : tokensFrom start (u ++ v) =
      ⟨kind, start, word⟩ :: tokensFrom (start + word.length) rest := by
    rw [htext] at hword ⊢
    exact tokensFrom_word hword
  have hlength : word.length ≤ u.length := by
    have hside := h ⟨kind, start, word⟩ (hall ▸ List.mem_cons_self)
    rw [Token.stop] at hside
    dsimp only at hside
    omega
  have hbegins : word <+: u :=
    List.prefix_of_prefix_length_le ⟨rest, htext.symm⟩ (List.prefix_append u v) hlength
  rcases hbegins with ⟨back, rfl⟩
  refine ⟨back, rfl, fun token htoken => ?_⟩
  have hrest : back ++ v = rest := by
    rw [List.append_assoc] at htext
    exact List.append_cancel_left htext
  have hsum : start + word.length + back.length = start + (word ++ back).length := by
    rw [List.length_append, Nat.add_assoc]
  rw [hsum]
  apply h
  rw [hall]
  exact List.mem_cons_of_mem _ (hrest ▸ htoken)

/-- The first word is not longer than what stands in front of the place. -/
theorem fits {kind : TokenKind} (h : Uncut start u v) (hne : u ≠ [])
    (hword : longest? (u ++ v) = some (kind, word)) : word.length ≤ u.length := by
  rcases h.takes hne hword with ⟨back, rfl, -⟩
  rw [List.length_append]
  exact Nat.le_add_right _ _

end Uncut

/-- The longest word is the same with the new character, unless it reaches beyond its place. -/
theorem longest?_insert (hc : IsSkipped c)
    (hfits : ∀ kind word, longest? (u ++ v) = some (kind, word) → word.length ≤ u.length) :
    longest? (u ++ c :: v) = longest? (u ++ v) := by
  refine (longest?_congr fun word hword => prefix_insert_iff hc hword fun hbegins => ?_).symm
  cases hlongest : longest? (u ++ v) with
  | none => exact absurd (longest?_eq_none hlongest hbegins) hword
  | some found =>
      rcases found with ⟨kind, longest⟩
      exact Nat.le_trans ((longest?_eq_some hlongest).2.2 word hbegins hword)
        (hfits kind longest hlongest)

/-- No word starts at the new character. -/
theorem longest?_skipped (hc : IsSkipped c) (v : List Char) : longest? (c :: v) = none := by
  cases hword : longest? (c :: v) with
  | none => rfl
  | some found =>
      rcases found with ⟨kind, word⟩
      rcases longest?_split hword with ⟨hkind, hne, rest, htext, -⟩
      obtain ⟨d, tail, rfl⟩ := List.exists_cons_of_ne_nil hne
      obtain rfl : c = d := (List.cons.inj htext).1
      rw [hc.kind?_eq_none List.mem_cons_self] at hkind
      cases hkind

theorem Token.shift_of_lt {token : Token} (h : token.start < cut) : token.shift cut = token := by
  rw [Token.shift, shifted, if_pos h]

/-- A new character in front makes all tokens start later. -/
theorem tokensFrom_insert_front (hc : IsSkipped c) (start : Nat) (v : List Char) :
    tokensFrom start (c :: v) = (tokensFrom start v).map (Token.shift start) := by
  rw [tokensFrom_skip (longest?_skipped hc v), tokensFrom_succ]
  apply List.map_congr_left
  intro token htoken
  rw [Token.shift, shifted, if_neg (Nat.not_lt.2 (of_mem_tokensFrom htoken).1)]

/-- The tokens behind a new character start one character later. -/
theorem tokensFrom_insert (hc : IsSkipped c) (h : Uncut start u v) :
    tokensFrom start (u ++ c :: v) =
      (tokensFrom start (u ++ v)).map (Token.shift (start + u.length)) := by
  -- By induction on the characters in front of the new one: the first token takes some of them.
  induction hn : u.length using Nat.strongRecOn generalizing start u with
  | ind n ih =>
      subst hn
      cases u with
      | nil => exact tokensFrom_insert_front hc start v
      | cons a u =>
          have hinsert := longest?_insert hc fun kind word => h.fits (List.cons_ne_nil a u)
          cases hword : longest? (a :: u ++ v) with
          | none =>
              have hlater : tokensFrom start (a :: u ++ v) = tokensFrom (start + 1) (u ++ v) :=
                tokensFrom_skip hword
              have hlater' : tokensFrom start (a :: u ++ c :: v) =
                  tokensFrom (start + 1) (u ++ c :: v) := tokensFrom_skip (hinsert.trans hword)
              have hsum : start + 1 + u.length = start + (a :: u).length :=
                Nat.add_right_comm start 1 u.length
              rw [hlater, hlater', ih u.length (Nat.lt_succ_self _) (h.skips hword) rfl, hsum]
          | some found =>
              rcases found with ⟨kind, word⟩
              have hpos : 0 < word.length := List.length_pos_iff.2 (longest?_split hword).2.1
              rcases h.takes (List.cons_ne_nil a u) hword with ⟨back, hback, huncut⟩
              rw [hback] at hword hinsert ⊢
              rw [List.append_assoc] at hword
              rw [List.append_assoc, List.append_assoc, hword] at hinsert
              have hless : back.length < (a :: u).length := by
                rw [hback, List.length_append]
                omega
              have hsum : start + word.length + back.length = start + (word ++ back).length := by
                rw [List.length_append, Nat.add_assoc]
              have hfront : start < start + (word ++ back).length := by omega
              rw [List.append_assoc, List.append_assoc, tokensFrom_word hword,
                tokensFrom_word hinsert, List.map_cons, Token.shift_of_lt hfront,
                ih back.length hless huncut rfl, hsum]

/-- The tokens of a text with one more character. -/
theorem tokens_insert (hc : IsSkipped c) (h : Uncut 0 u v) :
    tokens (.ofList (u ++ c :: v)) = (tokens (.ofList (u ++ v))).map (Token.shift u.length) := by
  have hinsert := tokensFrom_insert hc h
  rw [Nat.zero_add] at hinsert
  exact hinsert

/-! ## The verdict -/

/-- The same error in a text that has one more character at `cut`. -/
inductive Delayed (cut : Nat) : Reading.Error → Reading.Error → Prop where
  | violation (v : Violation) : Delayed cut (.violation v) (.violation v)
  | rejected (message : String) {p q : Point} (h : q.offset = shifted cut p.offset) :
      Delayed cut (.rejected message p) (.rejected message q)

/-- Both results are successes, or both are the same error. -/
inductive SameVerdict (cut : Nat) : Except Reading.Error Unit → Except Reading.Error Unit → Prop where
  | ok : SameVerdict cut (.ok ()) (.ok ())
  | error {e e' : Reading.Error} (h : Delayed cut e e') : SameVerdict cut (.error e) (.error e')

theorem opensAfter_shift (opens : List Nat) (token : Token) :
    opensAfter (opens.map (shifted cut)) (token.shift cut) =
      (opensAfter opens token).map (shifted cut) := by
  rcases token with ⟨kind, start, word⟩
  cases kind with
  | closing => exact List.map_tail.symm
  | _ => rfl

/-- The scan comes to the same verdict on tokens that start later. -/
theorem sameVerdict (text text' : SourceText) (maxDepth : Nat) (opens : List Nat)
    (tokens : List Token) :
    SameVerdict cut (verdict text maxDepth opens tokens)
      (verdict text' maxDepth (opens.map (shifted cut)) (tokens.map (Token.shift cut))) := by
  induction tokens generalizing opens with
  | nil =>
      cases opens with
      | nil => exact .ok
      | cons start opens => exact .error (.rejected _ rfl)
  | cons token tokens ih =>
      -- The scan looks at kinds and at the number of open brackets, and both are the same.
      have hempty : (opens.map (shifted cut)).isEmpty = opens.isEmpty := by cases opens <;> rfl
      have hlength : (opens.map (shifted cut)).length = opens.length := List.length_map _
      have hkind : (token.shift cut).kind = token.kind := rfl
      have hrest := ih (opensAfter opens token)
      rw [← opensAfter_shift] at hrest
      rw [List.map_cons, verdict, verdict, offence?, offence?, hkind, hempty, hlength]
      by_cases hclosing : token.kind = .closing
      · rw [if_pos hclosing, if_pos hclosing]
        by_cases hstray : opens.isEmpty = true
        · rw [if_pos hstray, if_pos hstray]
          exact .error (.rejected _ rfl)
        · rw [if_neg hstray, if_neg hstray]
          exact hrest
      · rw [if_neg hclosing, if_neg hclosing]
        by_cases hfull : maxDepth ≤ opens.length
        · rw [if_pos hfull]
          exact .error (.violation _)
        · rw [if_neg hfull]
          exact hrest

/-! ## Reading and grouping -/

/-- The same words, each at its own place. -/
theorem sameWords_shift (cut : Nat) (tokens : List Token) :
    List.Forall₂ Token.SameWord tokens (tokens.map (Token.shift cut)) := by
  rw [List.forall₂_map_right_iff, List.forall₂_same]
  exact fun token _ => ⟨rfl, rfl⟩

/-- Two flat trees that are written alike, or the same error. -/
inductive SameReading (cut : Nat) :
    Except Reading.Error SyntaxTree → Except Reading.Error SyntaxTree → Prop where
  | ok {t t' : SyntaxTree} (h : t.render = t'.render) : SameReading cut (.ok t) (.ok t')
  | error {e e' : Reading.Error} (h : Delayed cut e e') : SameReading cut (.error e) (.error e')

/-- Two expression trees that are written alike, or the same error. -/
inductive SameOutcome (cut : Nat) :
    Outcome Calculator.Error ExprTree → Outcome Calculator.Error ExprTree → Prop where
  | success {out out' : ExprTree} (h : out.render = out'.render) :
      SameOutcome cut (.success out) (.success out')
  | reading {e e' : Reading.Error} (h : Delayed cut e e') :
      SameOutcome cut (.failure (.reading e)) (.failure (.reading e'))
  | grouping (e : Rebuilding.Error) :
      SameOutcome cut (.failure (.grouping e)) (.failure (.grouping e))

theorem readAndGroup_of_error {text : SourceText} {limits : Limits} {e : Reading.Error}
    (h : read text limits = .error e) : readAndGroup text limits = .failure (.reading e) := by
  rw [readAndGroup, readBoth, h]

/-- What is read and grouped is what is read, grouped. -/
theorem SameGrouping.sameOutcome {text text' : SourceText} {limits : Limits} {t t' : SyntaxTree}
    (ht : read text limits = .ok t) (ht' : read text' limits = .ok t')
    (h : SameGrouping (group t limits) (group t' limits)) :
    SameOutcome cut (readAndGroup text limits) (readAndGroup text' limits) := by
  rw [readAndGroup, readAndGroup, readBoth, readBoth, ht, ht']
  dsimp only
  generalize group t limits = out at h
  generalize group t' limits = out' at h
  cases h with
  | success hrender => exact .success hrender
  | failure e => exact .grouping e

/-- Reading comes to the same verdict on texts whose tokens differ in their places. -/
theorem sameVerdict_read {text text' : SourceText}
    (h : tokens text' = (tokens text).map (Token.shift cut)) (limits : Limits) :
    SameVerdict cut ((read text limits).map fun _ => ()) ((read text' limits).map fun _ => ()) := by
  rw [read_eq_foldlM, read_eq_foldlM, Scaffold.foldlM_verdict, Scaffold.foldlM_verdict, h]
  exact sameVerdict text text' limits.maxDepth [] (tokens text)

/-- Texts whose tokens differ in their places are read and grouped alike. -/
theorem sameOutcome_of_tokens {text text' : SourceText}
    (h : tokens text' = (tokens text).map (Token.shift cut)) (limits : Limits) :
    SameReading cut (read text limits) (read text' limits) ∧
      SameOutcome cut (readAndGroup text limits) (readAndGroup text' limits) := by
  have hverdict := sameVerdict_read h limits
  -- The verdicts decide whether both are read; what is read differs in spans only.
  cases hread : read text limits with
  | error e =>
      cases hread' : read text' limits with
      | ok t' =>
          rw [hread, hread'] at hverdict
          cases hverdict
      | error e' =>
          rw [hread, hread'] at hverdict
          cases hverdict with
          | error hdelayed =>
              rw [readAndGroup_of_error hread, readAndGroup_of_error hread']
              exact ⟨.error hdelayed, .reading hdelayed⟩
  | ok t =>
      cases hread' : read text' limits with
      | error e' =>
          rw [hread, hread'] at hverdict
          cases hverdict
      | ok t' =>
          have hwords := sameWords_shift cut (tokens text)
          rw [← h] at hwords
          have halike := alike_of_read hread hread' hwords
          exact ⟨.ok halike.1, (halike.2 limits).sameOutcome hread hread'⟩

/-- A character that no feature claims may stand anywhere but inside of a number or a name: the text
with it is read and grouped as the text without it. -/
theorem skipped_insignificant (u v : List Char) (c : Char) (limits : Limits)
    (hc : Lexeme.candidates c = [])
    (hwords : ∀ token ∈ tokens (.ofList (u ++ v)), token.kind = .number ∨ token.kind = .name →
      ¬ (token.start < u.length ∧ u.length < token.stop)) :
    SameReading u.length (read (.ofList (u ++ v)) limits) (read (.ofList (u ++ c :: v)) limits) ∧
      SameOutcome u.length (readAndGroup (.ofList (u ++ v)) limits)
        (readAndGroup (.ofList (u ++ c :: v)) limits) := by
  have huncut : Uncut 0 u v := by
    apply uncut_of_words
    rw [Nat.zero_add]
    exact hwords
  exact sameOutcome_of_tokens (tokens_insert hc huncut) limits

/-- A line break between a name and its bracket. -/
theorem lineBreak_insignificant :
    SameReading 5
        (read (.ofList ['2', '+', 's', 'i', 'n', '(', '-', '3', ')']) {})
        (read (.ofList ['2', '+', 's', 'i', 'n', '\n', '(', '-', '3', ')']) {}) ∧
      SameOutcome 5
        (readAndGroup (.ofList ['2', '+', 's', 'i', 'n', '(', '-', '3', ')']) {})
        (readAndGroup (.ofList ['2', '+', 's', 'i', 'n', '\n', '(', '-', '3', ')']) {}) :=
  skipped_insignificant ['2', '+', 's', 'i', 'n'] ['(', '-', '3', ')'] '\n' {} (by decide)
    (by decide +kernel)

end Calculator
end FeatureTree
