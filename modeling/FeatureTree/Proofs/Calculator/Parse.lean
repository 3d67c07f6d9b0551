import FeatureTree.Proofs.Calculator.Tokens

/-!
# Parse — the flat tree of a text, without any machine

The tree of a text is made in three steps: the text is cut into tokens, the tokens are nested by their
brackets, and then each child list that starts with a minus and a number takes the minus for the sign
of the number.  A text whose brackets do not match has no tree.
-/

namespace FeatureTree
namespace Calculator

/-- A flat tree as a value. -/
abbrev SyntaxTerm : Type := Term (Label SyntaxKind Literal)

/-! ## Nesting -/

/-- The label of the whole text. -/
def rootLabel (text : SourceText) : Label SyntaxKind Literal :=
  ⟨.calculator, none, some (text.position 0 text.length)⟩

/-- The label of a bracket from its opening to behind its closing character. -/
def bracketLabel (text : SourceText) (start stop : Nat) : Label SyntaxKind Literal :=
  ⟨.bracket, none, some (text.position start stop)⟩

/-- The label of a token; a number has the value of its digits. -/
def Token.label (text : SourceText) (token : Token) : Label SyntaxKind Literal :=
  let position := some (text.position token.start token.stop)
  match token.kind with
  | .number => ⟨.number, (Binary64.parse? (spelling token.word)).map .number, position⟩
  | .name => ⟨.name, some (.name (String.ofList token.word)), position⟩
  | .operator op => ⟨.operator, some (.operator op), position⟩
  | .opening | .closing => ⟨.bracket, none, position⟩

/-- A token has the span from its first character to behind its last one. -/
theorem Token.position_label (text : SourceText) (token : Token) :
    (token.label text).position = some (text.position token.start token.stop) := by
  unfold Token.label
  dsimp only
  split <;> rfl

/-- The children that the rest of the tokens makes of a child list.  Each open bracket is remembered by
its start and by what stands in front of it. -/
def nest (text : SourceText) (opens : List (Nat × List SyntaxTerm)) (items : List SyntaxTerm) :
    List Token → Option (List SyntaxTerm)
  | [] => if opens.isEmpty then some items else none
  | token :: rest =>
      match token.kind, opens with
      | .opening, opens => nest text ((token.start, items) :: opens) [] rest
      | .closing, [] => none
      | .closing, (start, outer) :: opens =>
          nest text opens (outer ++ [.branch (bracketLabel text start token.stop) items]) rest
      | _, opens => nest text opens (items ++ [.leaf (token.label text)]) rest

theorem nest_opening {text : SourceText} {opens : List (Nat × List SyntaxTerm)}
    {items : List SyntaxTerm} {token : Token} {rest : List Token} (h : token.kind = .opening) :
    nest text opens items (token :: rest) = nest text ((token.start, items) :: opens) [] rest := by
  simp only [nest, h]

theorem nest_closing {text : SourceText} {start : Nat} {outer items : List SyntaxTerm}
    {opens : List (Nat × List SyntaxTerm)} {token : Token} {rest : List Token}
    (h : token.kind = .closing) :
    nest text ((start, outer) :: opens) items (token :: rest) =
      nest text opens (outer ++ [.branch (bracketLabel text start token.stop) items]) rest := by
  simp only [nest, h]

theorem nest_leaf {text : SourceText} {opens : List (Nat × List SyntaxTerm)}
    {items : List SyntaxTerm} {token : Token} {rest : List Token}
    (hopening : token.kind ≠ .opening) (hclosing : token.kind ≠ .closing) :
    nest text opens items (token :: rest) =
      nest text opens (items ++ [.leaf (token.label text)]) rest := by
  cases hkind : token.kind with
  | opening => exact absurd hkind hopening
  | closing => exact absurd hkind hclosing
  | number => simp only [nest, hkind]
  | name => simp only [nest, hkind]
  | operator op => simp only [nest, hkind]

/-! ## Signs -/

/-- The term is a minus. -/
def isMinus (T : SyntaxTerm) : Bool := T.label.value == some (.operator .sub)

/-- The term is a number. -/
def isNumeral (T : SyntaxTerm) : Bool := T.label.kind == .number

/-- The number with the other sign, which starts where its sign starts. -/
def negated (sign number : SyntaxTerm) : SyntaxTerm :=
  .leaf {
    kind := .number
    value := (number.label.value.bind Literal.number?).map fun x => .number x.neg
    position := do
      let first ← sign.label.position
      let last ← number.label.position
      return ⟨first.start, last.stop⟩ }

/-- A minus in front of a number becomes its sign, when both start a child list. -/
def takeSign : List SyntaxTerm → List SyntaxTerm
  | first :: second :: rest =>
      if isMinus first && isNumeral second then negated first second :: rest
      else first :: second :: rest
  | items => items

mutual

/-- The term with all signs taken. -/
def signed : SyntaxTerm → SyntaxTerm
  | .leaf label => .leaf label
  | .branch label items => .branch label (takeSign (signedAll items))

/-- The terms, each with all signs taken inside. -/
def signedAll : List SyntaxTerm → List SyntaxTerm
  | [] => []
  | T :: items => signed T :: signedAll items

end

/-- The flat tree of a text; none if its brackets do not match. -/
def parse? (text : SourceText) : Option SyntaxTerm :=
  (nest text [] [] (tokens text)).map fun items => signed (.branch (rootLabel text) items)

/-! ## Child lists that grow -/

/-- A child list as it stands in the tree. -/
def finished (items : List SyntaxTerm) : List SyntaxTerm := takeSign (signedAll items)

theorem signedAll_append (items : List SyntaxTerm) (T : SyntaxTerm) :
    signedAll (items ++ [T]) = signedAll items ++ [signed T] := by
  induction items with
  | nil => rfl
  | cons S items ih => simp [signedAll, ih]

theorem isMinus_negated (sign number : SyntaxTerm) : isMinus (negated sign number) = false := by
  unfold isMinus negated
  cases number.label.value.bind Literal.number? <;> rfl

/-- A term that comes after a minus alone: a number takes it for its sign. -/
theorem takeSign_append (items : List SyntaxTerm) (T : SyntaxTerm) :
    takeSign (items ++ [T]) =
      match takeSign items with
      | [sign] => if isMinus sign && isNumeral T then [negated sign T] else [sign, T]
      | shown => shown ++ [T] := by
  match items with
  | [] => rfl
  | [sign] => rfl
  | [sign, number] =>
      unfold takeSign
      by_cases h : (isMinus sign && isNumeral number) = true
      · simp [h, isMinus_negated]
      · simp [h]
  | first :: second :: third :: rest =>
      simp only [takeSign, List.cons_append]
      by_cases h : (isMinus first && isNumeral second) = true
      · simp [h]
      · simp [h]

theorem finished_append (items : List SyntaxTerm) (T : SyntaxTerm) :
    finished (items ++ [T]) =
      match finished items with
      | [sign] => if isMinus sign && isNumeral (signed T) then [negated sign (signed T)]
          else [sign, signed T]
      | shown => shown ++ [signed T] := by
  rw [finished, signedAll_append, takeSign_append]
  rfl

/-- Only numbers take a sign. -/
theorem finished_append_of_not {items : List SyntaxTerm} {T : SyntaxTerm}
    (h : ∀ sign, finished items = [sign] → (isMinus sign && isNumeral (signed T)) = false) :
    finished (items ++ [T]) = finished items ++ [signed T] := by
  rw [finished_append]
  split
  · next sign hsign => rw [h sign hsign, hsign]; rfl
  · rfl

/-- A child list that is a minus alone in the tree is a minus alone in the text. -/
theorem finished_eq_minus {items : List SyntaxTerm} {minus : SyntaxTerm}
    (h : finished items = [minus]) (hminus : isMinus minus = true) :
    ∃ T, items = [T] ∧ minus = signed T := by
  match items with
  | [] => cases h
  | [T] => exact ⟨T, rfl, (List.cons.inj h).1.symm⟩
  | first :: second :: rest =>
      change takeSign (signed first :: signed second :: signedAll rest) = [minus] at h
      by_cases hsign : (isMinus (signed first) && isNumeral (signed second)) = true
      · rw [takeSign, if_pos hsign] at h
        rw [← (List.cons.inj h).1, isMinus_negated] at hminus
        cases hminus
      · rw [takeSign, if_neg hsign] at h
        cases h

theorem negated_leaf {sign : SyntaxTerm} {value : Option Binary64} {p q : Position}
    (hp : sign.label.position = some p) :
    negated sign (.leaf ⟨.number, value.map .number, some q⟩) =
      .leaf ⟨.number, value.map fun x => .number x.neg, some ⟨p.start, q.stop⟩⟩ := by
  unfold negated
  rw [hp]
  cases value <;> rfl

theorem label_signed (T : SyntaxTerm) : (signed T).label = T.label := by
  cases T <;> rfl

end Calculator
end FeatureTree
