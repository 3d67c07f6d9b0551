import FeatureTree.Decimal.Layout
import FeatureTree.Tree.Printer

/-!
# Literal — operators, levels, kinds and values of the calculator

Operators bind on one of three levels.  Nodes of the flat tree that reading builds have a `SyntaxKind`,
nodes of the expression tree an `ExprKind`; both carry a `Literal` as their value.
-/

namespace FeatureTree
namespace Calculator

/-! ## Operators and their levels -/

/-- How strongly an operator binds, the weakest first. -/
inductive Level where
  | additive
  | multiplicative
  | exponent
  deriving DecidableEq, Repr

namespace Level

/-- All levels, the weakest first. -/
def all : List Level := [.additive, .multiplicative, .exponent]

def rank : Level → Nat
  | additive => 0
  | multiplicative => 1
  | exponent => 2

instance : Ord Level := ⟨fun a b => compare a.rank b.rank⟩

def tighter? : Level → Option Level
  | additive => some multiplicative
  | multiplicative => some exponent
  | exponent => none

def name : Level → String
  | additive => "additive"
  | multiplicative => "multiplicative"
  | exponent => "exponent"

end Level

/-- A binary operator. -/
inductive Operator where
  | add
  | sub
  | mul
  | div
  | pow
  deriving DecidableEq, Repr

namespace Operator

/-- The character that an operator is written as. -/
def symbol : Operator → Char
  | add => '+'
  | sub => '-'
  | mul => '*'
  | div => '/'
  | pow => '^'

def ofChar? (c : Char) : Option Operator :=
  if c = '+' then some add
  else if c = '-' then some sub
  else if c = '*' then some mul
  else if c = '/' then some div
  else if c = '^' then some pow
  else none

/-- The level on which an operator binds. -/
def level : Operator → Level
  | add | sub => .additive
  | mul | div => .multiplicative
  | pow => .exponent

end Operator

/-! ## Values -/

/-- The value of a node. -/
inductive Literal where
  | number (x : Binary64)
  | operator (op : Operator)
  | name (text : String)
  | level (l : Level)
  deriving DecidableEq, Repr

namespace Literal

/-- The operator, if the value is one. -/
def operator? : Literal → Option Operator
  | operator op => some op
  | _ => none

/-- The number, if the value is one. -/
def number? : Literal → Option Binary64
  | number x => some x
  | _ => none

/-- The name, if the value is one. -/
def name? : Literal → Option String
  | name text => some text
  | _ => none

/-- Equality of values; numbers are compared as numbers. -/
def equal : Literal → Literal → Bool
  | number x, number y => x.equal y
  | operator a, operator b => a == b
  | name a, name b => a == b
  | level a, level b => a == b
  | _, _ => false

def text : Literal → String
  | number x => x.display
  | operator op => op.symbol.toString
  | name text => text
  | level l => l.name

/-- The value as JSON; a number that is not finite has none and becomes `null`. -/
def json : Literal → Json.Value
  | number x => if x.isFinite then .number (Layout.json.text x) else .null
  | operator op => .string op.symbol.toString
  | name text => .string text
  | level l => .string l.name

instance : Written Literal := ⟨text, json⟩

end Literal

/-! ## Kinds -/

/-- Kinds of nodes in the flat tree. -/
inductive SyntaxKind where
  | calculator
  | bracket
  | number
  | operator
  | name
  deriving DecidableEq, Repr

namespace SyntaxKind

def all : List SyntaxKind := [.calculator, .bracket, .number, .operator, .name]

def word : SyntaxKind → String
  | calculator => "calculator"
  | bracket => "bracket"
  | number => "number"
  | operator => "operator"
  | name => "name"

instance : Written SyntaxKind := ⟨word, fun kind => .string kind.word⟩

end SyntaxKind

/-- Kinds of nodes in the expression tree. -/
inductive ExprKind where
  | calculator
  /-- Operands bound more tightly than their surroundings; the value is the level. -/
  | group
  | bracket
  /-- A name applied to a bracket; the value is the name. -/
  | function
  /-- A name on its own. -/
  | bareName
  | number
  | operator
  deriving DecidableEq, Repr

namespace ExprKind

def all : List ExprKind :=
  [.calculator, .group, .bracket, .function, .bareName, .number, .operator]

def word : ExprKind → String
  | calculator => "calculator"
  | group => "group"
  | bracket => "bracket"
  | function => "function"
  | bareName => "variable"
  | number => "number"
  | operator => "operator"

instance : Written ExprKind := ⟨word, fun kind => .string kind.word⟩

end ExprKind

/-- The flat tree that reading builds. -/
abbrev SyntaxTree : Type := Tree SyntaxKind Literal

/-- The tree with operators grouped by level and names applied to brackets. -/
abbrev ExprTree : Type := Tree ExprKind Literal

end Calculator
end FeatureTree
