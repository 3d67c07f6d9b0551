import FeatureTree.Calculator.Literal
import FeatureTree.Decimal.Reading
import FeatureTree.Reading.Reader

/-!
# Lexeme — the grammar that reads arithmetic text

Five features read numbers, names, operators and brackets; every other character is skipped.

* An operator is attached as soon as it is seen, a number or a name when its last character has been
  read.
* A bracket is attached when it opens and gets its span when it closes.  Everything between is read
  by the same grammar, under the bracket.
* A number takes a minus for its sign if that minus is the only thing read so far under its parent.
-/

namespace FeatureTree
namespace Calculator

open Reading

/-- The one dispatch rule of the calculator. -/
inductive Rule where
  | expression
  deriving DecidableEq, Repr

/-- The calculator keeps nothing in its bags. -/
abbrev NoEntry : Empty → Type := fun _ => Unit

/-- A number under construction: the offset at which its span starts, its digits so far, and whether
they hold a point. -/
structure Numeral where
  start : Nat
  digits : String
  hasPoint : Bool
  negative : Bool
  deriving DecidableEq, Repr

/-- A numeral with one more character, unless that is a second point. -/
def Numeral.push? (n : Numeral) (c : Char) : Option Numeral :=
  if c = '.' then
    if n.hasPoint then none else some { n with digits := n.digits.push '.', hasPoint := true }
  else if c.isDigit then some { n with digits := n.digits.push c }
  else none

/-- The features that read arithmetic text, in each of their states. -/
inductive Lexeme where
  /-- A bracket before its opening character. -/
  | bracket
  /-- A bracket that is open since an offset. -/
  | opened (node : NodeId) (start : Nat)
  /-- A bracket behind its closing character. -/
  | closed (node : NodeId) (start : Nat)
  /-- A closing character without its bracket. -/
  | stray
  /-- An operator before its character. -/
  | operator
  /-- An operator behind its character. -/
  | written
  /-- A number before its first character. -/
  | number
  /-- A number behind its first character. -/
  | numeral (n : Numeral)
  /-- A name before its first letter. -/
  | name
  /-- A name with its letters so far. -/
  | letters (start : Nat) (text : String)
  deriving DecidableEq, Repr

namespace Lexeme

/-- What features of the calculator share while reading. -/
abbrev Desk : Type := Scene SyntaxKind Literal NoEntry Unit

/-- A call of a feature. -/
abbrev Call (α : Type) : Type := EStateM Error Desk α

/-- A feature and its answer. -/
abbrev Reply : Type := Lexeme × Step (Redirect Rule)

def isLetter (c : Char) : Bool := c.isLower

/-- The character may occur in a number. -/
def isNumeric (c : Char) : Bool := c.isDigit || c == '.'

/-- Candidates for a character: at most one. -/
def candidates (c : Char) : List Lexeme :=
  if c = '(' then [.bracket]
  else if c = ')' then [.stray]
  else if (Operator.ofChar? c).isSome then [.operator]
  else if isNumeric c then [.number]
  else if isLetter c then [.name]
  else []

/-! ## Numbers -/

/-- The minus that a number may take for its sign: the only child of its parent. -/
def sign? (t : SyntaxTree) (ancestor : NodeId) : Option NodeId :=
  match t.onlyChild? ancestor with
  | some only =>
      if (t.get? only).bind Node.value = some (.operator .sub) then some only else none
  | none => none

/-- The digits of a numeral after its first character; a zero is put before a leading point. -/
def firstDigits? (c : Char) : Option String :=
  if c = '.' then some "0." else if c.isDigit then some c.toString else none

/-- Starts a number, which may take a sign from the tree. -/
def startNumber (cx : Context) (c : Char) : Call Reply :=
  match firstDigits? c with
  | none => pure (.number, .decline)
  | some digits => do
      let tree := (← get).tree
      match sign? tree cx.ancestor with
      | none => return (.numeral ⟨cx.offset, digits, c == '.', false⟩, .proceed)
      | some sign =>
          Scene.editTree (·.popChild cx.ancestor)
          let start := ((tree.position? sign).map fun p => p.start.offset).getD cx.offset
          return (.numeral ⟨start, digits, c == '.', true⟩, .proceed)

def finishNumber (n : Numeral) (cx : Context) : Call Unit :=
  match Binary64.parse? n.digits.toList with
  | none => throw (.rejected ("invalid number `" ++ n.digits ++ "`") (cx.text.point n.start))
  | some x => do
      let value := if n.negative then x.neg else x
      let _ ← Scene.append cx.ancestor
        ⟨.number, some (.number value), some (cx.positionFrom n.start), none⟩

/-! ## Brackets and operators -/

/-- Attaches a bracket that opens here; its span is empty until it closes. -/
def openBracket (cx : Context) : Call Reply := do
  let node ← Scene.append cx.ancestor
    ⟨.bracket, none, some (cx.positionFrom cx.offset), some #[]⟩
  return (.opened node cx.offset, .proceed)

def writeOperator (cx : Context) (op : Operator) : Call Reply := do
  let position := cx.text.position cx.offset (cx.offset + 1)
  let _ ← Scene.append cx.ancestor ⟨.operator, some (.operator op), some position, none⟩
  return (.written, .proceed)

/-! ## The grammar -/

def handle (feature : Lexeme) (cx : Context) (c : Char) : Call Reply :=
  match feature with
  | bracket => if c = '(' then openBracket cx else pure (.bracket, .decline)
  | opened node start =>
      if c = ')' then pure (.closed node start, .proceed)
      else pure (.opened node start, .redirect ⟨.expression, some node⟩)
  | closed node start => pure (.closed node start, .decline)
  | stray => throw (.rejected "unmatched closing bracket" cx.point)
  | operator =>
      match Operator.ofChar? c with
      | none => pure (.operator, .decline)
      | some op => writeOperator cx op
  | written => pure (.written, .decline)
  | number => startNumber cx c
  | numeral n =>
      match n.push? c with
      | none => pure (.numeral n, .decline)
      | some n => pure (.numeral n, .proceed)
  | name =>
      if isLetter c then pure (.letters cx.offset c.toString, .proceed) else pure (.name, .decline)
  | letters start text =>
      if isLetter c then pure (.letters start (text.push c), .proceed)
      else pure (.letters start text, .decline)

/-- What a feature does after its last character. -/
def exit (feature : Lexeme) (cx : Context) : Call Unit :=
  match feature with
  | opened _ start => throw (.rejected "unclosed bracket" (cx.text.point start))
  | closed node start => Scene.editTree (·.setPosition node (cx.positionFrom start))
  | numeral n => finishNumber n cx
  | letters start text => do
      let _ ← Scene.append cx.ancestor
        ⟨.name, some (.name text), some (cx.positionFrom start), none⟩
  | _ => pure ()

def grammar : Grammar Rule Lexeme SyntaxKind Literal NoEntry Unit where
  dispatch _ cx scene :=
    ((cx.char?.map candidates).getD [], scene.bag, scene.world)
  handle := handle
  exit := exit

end Lexeme

/-! ## Reading -/

/-- A reader of arithmetic text, whose root has no span yet. -/
abbrev TextReader : Type := Reader Rule Lexeme SyntaxKind Literal NoEntry Unit

/-- A reader at the start of a text. -/
def TextReader.new (text : SourceText) (limits : Limits) : TextReader :=
  Reader.new Lexeme.grammar .expression text (Node.parent .calculator) () limits

/-- Reads a text into a flat tree, whose root spans the whole text. -/
def read (text : SourceText) (limits : Limits) : Except Error SyntaxTree :=
  let position := text.position 0 text.length
  let reader := (TextReader.new text limits).updateRoot fun n =>
    { n with position := some position }
  match reader.read with
  | (.ok _, reader) => .ok reader.tree
  | (.error e, _) => .error e

end Calculator
end FeatureTree
