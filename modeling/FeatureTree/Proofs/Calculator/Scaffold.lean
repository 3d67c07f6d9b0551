import FeatureTree.Proofs.Calculator.Following
import FeatureTree.Proofs.Calculator.Tokens

/-!
# Scaffold — reading arithmetic text token by token

Between two tokens no leaf is left, so a draft is a tree with its open brackets.  `Scaffold.take` adds
one token to them, and `read_eq_foldlM` says that reading a text is a fold of it over the tokens.
-/

namespace FeatureTree
namespace Calculator

open Reading

/-- A tree under construction and its open brackets, the innermost first. -/
structure Scaffold where
  tree : SyntaxTree
  opens : List Opening

namespace Scaffold

/-- The node that is built under. -/
def home (s : Scaffold) : NodeId := Draft.home s.opens

/-- The scaffold with one more leaf. -/
def attach (s : Scaffold) (label : Label SyntaxKind Literal) : Scaffold :=
  { s with tree := s.tree.append s.home label.leaf }

/-- A number, which takes the sign in front of it. -/
def addNumber (text : SourceText) (s : Scaffold) (token : Token) : Scaffold :=
  let value := Binary64.parse? (spelling token.word)
  match Lexeme.sign? s.tree s.home with
  | none => s.attach ⟨.number, value.map .number, some (text.position token.start token.stop)⟩
  | some sign =>
      let start := ((s.tree.position? sign).map fun p => p.start.offset).getD token.start
      { s with tree := s.tree.popChild s.home }.attach
        ⟨.number, value.map fun x : Binary64 => .number x.neg, some (text.position start token.stop)⟩

/-- A token that needs room below the open brackets. -/
def add (text : SourceText) (s : Scaffold) (token : Token) : Scaffold :=
  match token.kind with
  | .number => s.addNumber text token
  | .name =>
      s.attach ⟨.name, some (.name (String.ofList token.word)),
        some (text.position token.start token.stop)⟩
  | .operator op =>
      s.attach ⟨.operator, some (.operator op), some (text.position token.start token.stop)⟩
  | .opening =>
      { tree := s.tree.append s.home
          ⟨.bracket, none, some (text.position token.start token.start), some #[]⟩
        opens := ⟨s.tree.size, token.start⟩ :: s.opens }
  | .closing => s

/-- One token. -/
def take (text : SourceText) (maxDepth : Nat) (s : Scaffold) (token : Token) :
    Except Error Scaffold :=
  if token.kind = .closing then
    match s.opens with
    | [] => .error (.rejected "unmatched closing bracket" (text.point token.start))
    | o :: rest =>
        .ok ⟨s.tree.setPosition o.node (text.position o.start token.stop), rest⟩
  else if maxDepth ≤ s.opens.length then .error (.violation (.depthExceeded maxDepth))
  else .ok (s.add text token)

/-- The end of the text. -/
def finish (text : SourceText) (s : Scaffold) : Except Error SyntaxTree :=
  match s.opens with
  | [] => .ok s.tree
  | o :: _ => .error (.rejected "unclosed bracket" (text.point o.start))

/-- The scaffold before the first token. -/
def blank (text : SourceText) : Scaffold := ⟨(Draft.blank text).tree, []⟩

theorem addNumber_plain {text : SourceText} {s : Scaffold} {token : Token}
    (hsign : Lexeme.sign? s.tree s.home = none) :
    s.addNumber text token = s.attach ⟨.number, (Binary64.parse? (spelling token.word)).map .number,
      some (text.position token.start token.stop)⟩ := by
  rw [addNumber, hsign]

theorem addNumber_signed {text : SourceText} {s : Scaffold} {token : Token} {sign : NodeId}
    {p : Position} (hsign : Lexeme.sign? s.tree s.home = some sign)
    (hposition : s.tree.position? sign = some p) :
    s.addNumber text token = Scaffold.attach { s with tree := s.tree.popChild s.home }
      ⟨.number, (Binary64.parse? (spelling token.word)).map fun x => .number x.neg,
        some (text.position p.start.offset token.stop)⟩ := by
  simp only [addNumber, hsign, hposition, Option.map_some, Option.getD_some]

/-- The draft between two tokens. -/
def draft (s : Scaffold) (offset : Nat) : Draft := ⟨s.tree, s.opens, none, offset⟩

end Scaffold

namespace Draft

variable {text : SourceText} {maxDepth : Nat} {d : Draft} {c : Char} {rest : List Char}

/-! ## Characters -/

theorem readOn_cons : d.readOn text maxDepth (c :: rest) =
    (d.next text maxDepth c).bind fun d => d.readOn text maxDepth rest := by
  rw [readOn, List.foldlM_cons]
  cases d.next text maxDepth c <;> rfl

theorem readOn_append {word : List Char} {d' : Draft}
    (h : word.foldlM (next text maxDepth) d = .ok d') :
    d.readOn text maxDepth (word ++ rest) = d'.readOn text maxDepth rest := by
  rw [readOn, List.foldlM_append, h]
  rfl

/-- A leaf that does not go on may end at once. -/
theorem readOn_settled (leaf : Leaf) (hleaf : d.leaf = some leaf)
    (hrest : ∀ c ∈ rest.head?, leaf.extend? c = none) :
    d.readOn text maxDepth rest =
      (d.settled text).bind fun d => d.readOn text maxDepth rest := by
  have hagain : ∀ d', d.settled text = .ok d' → d'.settled text = .ok d' := by
    intro d' h
    rw [settled, (settled_eq_ok h).1]
  cases rest with
  | nil =>
      change d.finish text = (d.settled text).bind fun d => d.finish text
      cases hsettled : d.settled text with
      | error e => simp [finish, hsettled, Except.bind]
      | ok d' => simp [finish, hsettled, hagain d' hsettled, Except.bind]
  | cons c rest =>
      have hnext : d.next text maxDepth c =
          (d.settled text).bind fun d => d.next text maxDepth c := by
        unfold next
        rw [hleaf, Option.bind_some, hrest c rfl]
        cases hsettled : d.settled text with
        | error e => rfl
        | ok d' =>
            simp only [Except.bind, (settled_eq_ok hsettled).1, Option.bind_none,
              hagain d' hsettled]
      rw [readOn_cons, hnext]
      cases d.settled text with
      | error e => rfl
      | ok d' => exact readOn_cons.symm

/-! ## Candidates of a character -/

theorem candidates_of_operator {op : Operator} (h : Operator.ofChar? c = some op) :
    c ≠ ')' ∧ Lexeme.candidates c = [.operator] := by
  have hopening : c ≠ '(' := by
    rintro rfl
    cases h
  have hclosing : c ≠ ')' := by
    rintro rfl
    cases h
  refine ⟨hclosing, ?_⟩
  simp [Lexeme.candidates, hopening, hclosing, h]

theorem candidates_of_isNumeric (h : Lexeme.isNumeric c = true) :
    c ≠ ')' ∧ Lexeme.candidates c = [.number] := by
  rcases of_mark?_eq_none (mark?_eq_none (.inl h)) with ⟨hopening, hclosing, hoperator⟩
  refine ⟨hclosing, ?_⟩
  simp [Lexeme.candidates, hopening, hclosing, hoperator, h]

theorem isNumeric_of_isLetter (h : Lexeme.isLetter c = true) : Lexeme.isNumeric c = false := by
  have hge : 97 ≤ c.val.toNat := by
    have hlower : 97 ≤ c.val := of_decide_eq_true (Bool.and_eq_true_iff.1 h).1
    exact UInt32.le_iff_toNat_le.1 hlower
  have hdigit : c.isDigit = false := by
    rw [Bool.eq_false_iff]
    intro hdigit
    simp only [Char.isDigit, Bool.and_eq_true, decide_eq_true_eq] at hdigit
    have hle : c.val.toNat ≤ 57 := UInt32.le_iff_toNat_le.1 hdigit.2
    omega
  have hpoint : c ≠ '.' := by
    rintro rfl
    exact absurd hge (by decide)
  simp [Lexeme.isNumeric, hdigit, hpoint]

theorem candidates_of_isLetter (h : Lexeme.isLetter c = true) :
    c ≠ ')' ∧ Lexeme.candidates c = [.name] := by
  rcases of_mark?_eq_none (mark?_eq_none (.inr h)) with ⟨hopening, hclosing, hoperator⟩
  refine ⟨hclosing, ?_⟩
  simp [Lexeme.candidates, hopening, hclosing, hoperator, isNumeric_of_isLetter h, h]

/-- A character that starts no word has no candidates. -/
theorem candidates_of_skipped (h : longest? (c :: rest) = none) :
    c ≠ ')' ∧ Lexeme.candidates c = [] := by
  have hword : kind? [c] = none := longest?_eq_none h ⟨rest, rfl⟩
  rcases of_kind?_eq_none hword with ⟨hnumeric, hletter, hmark⟩
  rcases of_mark?_eq_none hmark with ⟨hopening, hclosing, hoperator⟩
  refine ⟨hclosing, ?_⟩
  simp [Lexeme.candidates, hopening, hclosing, hoperator, hnumeric, hletter]

/-! ## Words that go on -/

variable {tree : SyntaxTree} {opens : List Opening} {offset : Nat}

theorem next_of_extend? {leaf longer : Leaf} (h : leaf.extend? c = some longer) :
    next text maxDepth ⟨tree, opens, some leaf, offset⟩ c =
      .ok ⟨tree, opens, some longer, offset + 1⟩ := by
  rw [next, Option.bind_some, h]

theorem push_append (s : String) (c : Char) (word : List Char) :
    s.push c ++ String.ofList word = s ++ String.ofList (c :: word) := by
  rw [← String.toList_inj]
  simp

/-- A number with further digits, and with a point if it had none. -/
theorem foldlM_numeral (word : List Char) (hnumeric : ∀ c ∈ word, Lexeme.isNumeric c = true)
    (n : Numeral) (hcount : word.count '.' + n.hasPoint.toNat ≤ 1) :
    word.foldlM (next text maxDepth) ⟨tree, opens, some (.numeral n), offset⟩ =
      .ok ⟨tree, opens, some (.numeral { n with
        digits := n.digits ++ String.ofList word, hasPoint := n.hasPoint || word.contains '.' }),
        offset + word.length⟩ := by
  -- By induction on the characters; `hcount` is the room for one point that is left.
  induction word generalizing n offset with
  | nil => simp [pure, Except.pure]
  | cons c word ih =>
      have hword : ∀ b ∈ word, Lexeme.isNumeric b = true :=
        fun b hb => hnumeric b (List.mem_cons_of_mem _ hb)
      have hlength : offset + 1 + word.length = offset + (c :: word).length := by
        rw [List.length_cons]
        omega
      by_cases hc : c = '.'
      -- A point takes the room, so there was none before.
      · subst hc
        rw [List.count_cons_self] at hcount
        have hpoint : n.hasPoint = false := by
          cases hn : n.hasPoint with
          | false => rfl
          | true => simp [hn] at hcount
        have hpush : Leaf.extend? '.' (.numeral n) =
            some (.numeral { n with digits := n.digits.push '.', hasPoint := true }) := by
          simp [Leaf.extend?, Numeral.push?, hpoint]
        rw [List.foldlM_cons, next_of_extend? hpush]
        refine (ih hword { n with digits := n.digits.push '.', hasPoint := true }
          (by simpa [hpoint] using hcount)).trans ?_
        rw [hlength, push_append]
        simp
      · have hdigit : c.isDigit = true := by
          simpa [Lexeme.isNumeric, hc] using hnumeric c List.mem_cons_self
        have hpush : Leaf.extend? c (.numeral n) =
            some (.numeral { n with digits := n.digits.push c }) := by
          simp [Leaf.extend?, Numeral.push?, hc, hdigit]
        rw [List.count_cons_of_ne hc] at hcount
        rw [List.foldlM_cons, next_of_extend? hpush]
        refine (ih hword { n with digits := n.digits.push c } hcount).trans ?_
        rw [hlength, push_append]
        simp [Ne.symm hc]

/-- A name with further letters. -/
theorem foldlM_letters (word : List Char) (hletters : ∀ c ∈ word, Lexeme.isLetter c = true)
    (start : Nat) (name : String) :
    word.foldlM (next text maxDepth) ⟨tree, opens, some (.letters start name), offset⟩ =
      .ok ⟨tree, opens, some (.letters start (name ++ String.ofList word)),
        offset + word.length⟩ := by
  induction word generalizing name offset with
  | nil => simp [pure, Except.pure]
  | cons c word ih =>
      have hextend : Leaf.extend? c (.letters start name) = some (.letters start (name.push c)) := by
        simp [Leaf.extend?, hletters c List.mem_cons_self]
      have hlength : offset + 1 + word.length = offset + (c :: word).length := by
        rw [List.length_cons]
        omega
      rw [List.foldlM_cons, next_of_extend? hextend]
      refine (ih (fun b hb => hletters b (List.mem_cons_of_mem _ hb)) (name.push c)).trans ?_
      rw [hlength, push_append]

end Draft

/-! ## Words -/

namespace Scaffold

open Draft

variable {text : SourceText} {maxDepth : Nat} {s : Scaffold} {start : Nat}
variable {c : Char} {word rest : List Char}

theorem next_draft {feature : Lexeme} (hc : c ≠ ')' ∧ Lexeme.candidates c = [feature]) :
    (s.draft start).next text maxDepth c =
      if maxDepth ≤ s.opens.length then .error (.violation (.depthExceeded maxDepth))
      else .ok { (s.draft start).claim text c feature with offset := start + 1 } := by
  have hnext : (s.draft start).next text maxDepth c = (s.draft start).begin text maxDepth c := rfl
  rw [hnext, begin, if_neg hc.1, hc.2]
  rfl

/-- A character that starts no word changes nothing. -/
theorem readOn_skip (h : longest? (c :: rest) = none) :
    (s.draft start).readOn text maxDepth (c :: rest) =
      (s.draft (start + 1)).readOn text maxDepth rest := by
  rcases candidates_of_skipped h with ⟨hne, hcandidates⟩
  have hnext : (s.draft start).next text maxDepth c = .ok (s.draft (start + 1)) := by
    change (s.draft start).begin text maxDepth c = _
    rw [begin, if_neg hne, hcandidates]
    rfl
  rw [readOn_cons, hnext]
  rfl

/-- The characters of a token are its token: reading on from its start comes to its end. -/
def Reads (text : SourceText) (maxDepth : Nat) (s : Scaffold) (token : Token) (rest : List Char) :
    Prop :=
  (s.draft token.start).readOn text maxDepth (token.word ++ rest) =
    (s.take text maxDepth token).bind fun s => (s.draft token.stop).readOn text maxDepth rest

theorem reads_closing : Reads text maxDepth s ⟨.closing, start, [')']⟩ rest := by
  unfold Reads
  rw [List.singleton_append, readOn_cons]
  rcases s with ⟨tree, _ | ⟨o, opens⟩⟩
  · rfl
  · -- The closed bracket gets its span before the next character is looked at.
    exact readOn_settled (.closed o.node o.start) rfl fun _ _ => rfl

/-- A token that needs room is refused, or it is read as `add` says. -/
theorem reads_of_claim {kind : TokenKind} (feature : Lexeme) (hkind : kind ≠ .closing)
    (hc : c ≠ ')' ∧ Lexeme.candidates c = [feature])
    (hread : Draft.readOn text maxDepth
      { (s.draft start).claim text c feature with offset := start + 1 } (word ++ rest) =
        ((s.add text ⟨kind, start, c :: word⟩).draft (start + (c :: word).length)).readOn text
          maxDepth rest) :
    Reads text maxDepth s ⟨kind, start, c :: word⟩ rest := by
  unfold Reads
  rw [List.cons_append, readOn_cons, next_draft hc, take, if_neg hkind]
  by_cases hfull : maxDepth ≤ s.opens.length
  · rw [if_pos hfull, if_pos hfull]
    rfl
  · rw [if_neg hfull, if_neg hfull]
    exact hread

theorem reads_opening : Reads text maxDepth s ⟨.opening, start, ['(']⟩ rest :=
  reads_of_claim .bracket (by decide) ⟨by decide, rfl⟩ rfl

theorem reads_operator {op : Operator} (hop : Operator.ofChar? c = some op) :
    Reads text maxDepth s ⟨.operator op, start, [c]⟩ rest := by
  refine reads_of_claim _ (by simp) (candidates_of_operator hop) ?_
  refine (readOn_settled .written rfl fun _ _ => rfl).trans ?_
  simp only [claim, hop]
  rfl

theorem reads_name (hname : isName (c :: word) = true)
    (hrest : ∀ b ∈ rest.head?, kind? (c :: word ++ [b]) = none) :
    Reads text maxDepth s ⟨.name, start, c :: word⟩ rest := by
  have hletters : ∀ b ∈ c :: word, Lexeme.isLetter b = true := by
    simpa [isName] using hname
  -- The word is the longest one, so the character behind it is no letter.
  have hends : ∀ b ∈ rest.head?,
      Leaf.extend? b (.letters start (c.toString ++ String.ofList word)) = none := by
    intro b hb
    have hletter : Lexeme.isLetter b = false := by
      rw [Bool.eq_false_iff]
      intro hletter
      have hlonger : isName (c :: word ++ [b]) = true := by
        simpa [isName, hletter] using hletters
      exact kind?_ne_none (.inr hlonger) (hrest b hb)
    simp [Leaf.extend?, hletter]
  have hword : c.toString ++ String.ofList word = String.ofList (c :: word) := by
    rw [← String.toList_inj]
    simp
  refine reads_of_claim _ (by simp) (candidates_of_isLetter (hletters c List.mem_cons_self)) ?_
  refine (readOn_append (foldlM_letters word (fun b hb => hletters b (List.mem_cons_of_mem _ hb))
    start c.toString)).trans ?_
  refine (readOn_settled _ rfl hends).trans ?_
  simp only [settled, Leaf.settle, hword]
  rw [Nat.add_assoc, Nat.add_comm 1]
  rfl

/-- The digits of a number after its first character, and all of them. -/
theorem firstDigits?_append (word : List Char) (hc : Lexeme.isNumeric c = true) :
    ((Lexeme.firstDigits? c).getD "" ++ String.ofList word).toList = spelling (c :: word) := by
  by_cases hpoint : c = '.'
  · subst hpoint
    simp [Lexeme.firstDigits?, spelling]
  · have hdigit : c.isDigit = true := by simpa [Lexeme.isNumeric, hpoint] using hc
    simp [Lexeme.firstDigits?, spelling, hpoint, hdigit]

/-- A number that takes one more character is a longer number. -/
theorem isNumber_of_push? {n longer : Numeral} {b : Char} (hnumber : isNumber word = true)
    (hpoint : n.hasPoint = word.contains '.') (hpush : n.push? b = some longer) :
    isNumber (word ++ [b]) = true := by
  rcases isNumber_parts hnumber with ⟨-, hnumeric, hcount⟩
  -- What is pushed is a digit, or the first point.
  have hb : Lexeme.isNumeric b = true ∧ (word ++ [b]).count '.' ≤ 1 := by
    unfold Numeral.push? at hpush
    by_cases hb : b = '.'
    · subst hb
      have hnone : n.hasPoint = false := by
        cases hn : n.hasPoint with
        | false => rfl
        | true => simp [hn] at hpush
      have hcount : word.count '.' = 0 := by
        rw [List.count_eq_zero]
        simpa [hnone] using hpoint
      exact ⟨rfl, by simp [List.count_append, hcount]⟩
    · have hdigit : b.isDigit = true := by
        by_contra hdigit
        simp [hb, hdigit] at hpush
      have hzero : [b].count '.' = 0 := by simp [hb]
      exact ⟨by simp [Lexeme.isNumeric, hdigit], by rw [List.count_append, hzero]; exact hcount⟩
  have hall : ∀ a ∈ word ++ [b], Lexeme.isNumeric a = true := by
    intro a ha
    rcases List.mem_append.1 ha with hword | hlast
    · exact hnumeric a hword
    · exact List.mem_singleton.1 hlast ▸ hb.1
  simp only [isNumber, Bool.and_eq_true, List.all_eq_true, decide_eq_true_eq]
  exact ⟨⟨by simp, hall⟩, hb.2⟩

/-- A number whose first character has been read ends behind its last one. -/
theorem readOn_numeral {tree : SyntaxTree} {opens : List Opening} {n : Numeral} {x : Binary64}
    (hnumber : isNumber (c :: word) = true) (hpoint : n.hasPoint = (c == '.'))
    (hvalue : Binary64.parse? (n.digits ++ String.ofList word).toList = some x)
    (hrest : ∀ b ∈ rest.head?, kind? (c :: word ++ [b]) = none) :
    Draft.readOn text maxDepth ⟨tree, opens, some (.numeral n), start + 1⟩ (word ++ rest) =
      Draft.readOn text maxDepth ((attach ⟨tree, opens⟩
        ⟨.number, some (.number (if n.negative then x.neg else x)),
          some (text.position n.start (start + (c :: word).length))⟩).draft
            (start + (c :: word).length)) rest := by
  rcases isNumber_parts hnumber with ⟨-, hnumeric, hcount⟩
  have hroom : word.count '.' + n.hasPoint.toNat ≤ 1 := by
    rw [hpoint]
    rw [List.count_cons] at hcount
    cases hc : c == '.' <;> simpa [hc] using hcount
  -- A character that extended the number would make it a longer word.
  have hends : ∀ b ∈ rest.head?, Leaf.extend? b (.numeral { n with
      digits := n.digits ++ String.ofList word
      hasPoint := n.hasPoint || word.contains '.' }) = none := by
    intro b hb
    rw [Leaf.extend?, Option.map_eq_none_iff]
    cases hpush : Numeral.push? { n with
      digits := n.digits ++ String.ofList word
      hasPoint := n.hasPoint || word.contains '.' } b with
    | none => rfl
    | some longer =>
        have hall : (n.hasPoint || word.contains '.') = (c :: word).contains '.' := by
          rw [hpoint, List.contains_cons, Bool.beq_comm]
        have hlonger := isNumber_of_push? hnumber hall hpush
        exact absurd (hrest b hb) (kind?_ne_none (.inl hlonger))
  refine (readOn_append (foldlM_numeral word
    (fun b hb => hnumeric b (List.mem_cons_of_mem _ hb)) n hroom)).trans ?_
  refine (readOn_settled _ rfl hends).trans ?_
  simp only [settled, Leaf.settle, hvalue]
  rw [Nat.add_assoc, Nat.add_comm 1]
  rfl

theorem reads_number (hnumber : isNumber (c :: word) = true)
    (hrest : ∀ b ∈ rest.head?, kind? (c :: word ++ [b]) = none) :
    Reads text maxDepth s ⟨.number, start, c :: word⟩ rest := by
  have hc : Lexeme.isNumeric c = true := (isNumber_parts hnumber).2.1 c List.mem_cons_self
  rcases parse?_spelling hnumber with ⟨x, hx, -⟩
  have hvalue := (congrArg Binary64.parse? (firstDigits?_append word hc)).trans hx
  refine reads_of_claim _ (by simp) (candidates_of_isNumeric hc) ?_
  unfold add addNumber
  simp only [hx, Option.map_some]
  -- The span starts at the sign, if there is one.
  cases hsign : Lexeme.sign? s.tree s.home with
  | none =>
      have hclaim : (s.draft start).claim text c .number =
          ⟨s.tree, s.opens, some (.numeral ⟨start, (Lexeme.firstDigits? c).getD "", c == '.',
            false⟩), start⟩ := by
        simp only [claim, draft]
        rw [show Lexeme.sign? s.tree (Draft.home s.opens) = none from hsign]
      rw [hclaim]
      exact readOn_numeral hnumber rfl hvalue hrest
  | some sign =>
      have hclaim : (s.draft start).claim text c .number =
          ⟨s.tree.popChild s.home, s.opens, some (.numeral
            ⟨((s.tree.position? sign).map fun p => p.start.offset).getD start,
              (Lexeme.firstDigits? c).getD "", c == '.', true⟩), start⟩ := by
        simp only [claim, draft]
        rw [show Lexeme.sign? s.tree (Draft.home s.opens) = some sign from hsign]
        rfl
      rw [hclaim]
      exact readOn_numeral hnumber rfl hvalue hrest

/-- The longest word at the start of the characters is read as one token. -/
theorem reads_of_longest? {kind : TokenKind}
    (h : longest? (word ++ rest) = some (kind, word)) :
    Reads text maxDepth s ⟨kind, start, word⟩ rest := by
  rcases longest?_split h with ⟨hkind, hne, rest', heq, hrest⟩
  obtain rfl := List.append_cancel_left heq
  cases word with
  | nil => exact absurd rfl hne
  | cons c word =>
      by_cases hnumber : kind = .number
      · subst hnumber
        exact reads_number (kind?_eq_number hkind) hrest
      · by_cases hname : kind = .name
        · subst hname
          exact reads_name (kind?_eq_name hkind) hrest
        · rcases mark?_eq_some (kind?_eq_mark hkind hnumber hname) with
            ⟨hword, rfl⟩ | ⟨hword, rfl⟩ | ⟨b, op, hword, hop, rfl⟩
          · rw [hword]
            exact reads_opening
          · rw [hword]
            exact reads_closing
          · rw [hword]
            exact reads_operator hop

/-! ## Texts -/

/-- Characters are read token by token. -/
theorem readOn_eq_foldlM (start : Nat) (chars : List Char) (s : Scaffold) :
    (s.draft start).readOn text maxDepth chars =
      ((tokensFrom start chars).foldlM (take text maxDepth) s).bind (finish text) := by
  -- Each step of `tokensFrom` skips a character or takes a whole word.
  induction start, chars using tokensFrom.induct generalizing s with
  | case1 start =>
      rw [tokensFrom_nil]
      rfl
  | case2 start c rest hnone ih =>
      rw [readOn_skip hnone, tokensFrom_skip hnone]
      exact ih s
  | case3 start c rest kind word hword ih =>
      rcases longest?_split hword with ⟨-, -, tail, htext, -⟩
      rw [htext] at hword ih ⊢
      rw [List.drop_left] at ih
      rw [reads_of_longest? hword, tokensFrom_word hword, List.foldlM_cons]
      cases take text maxDepth s ⟨kind, start, word⟩ with
      | error e => rfl
      | ok next => exact ih next

end Scaffold

/-- Reading a text takes its tokens one after the other. -/
theorem read_eq_foldlM (text : SourceText) (limits : Limits) :
    read text limits =
      ((tokens text).foldlM (Scaffold.take text limits.maxDepth) (Scaffold.blank text)).bind
        (Scaffold.finish text) :=
  calc read text limits
      = ((Scaffold.blank text).draft 0).readOn text limits.maxDepth text.chars.toList :=
        read_eq_readOn text limits
    _ = _ := Scaffold.readOn_eq_foldlM 0 _ (Scaffold.blank text)

end Calculator
end FeatureTree
