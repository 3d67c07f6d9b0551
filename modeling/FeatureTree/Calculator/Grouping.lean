import FeatureTree.Calculator.Lexeme
import FeatureTree.Rebuilding.Machine
import FeatureTree.Tree.Walk

/-!
# Grouping — the grammar that groups operators by level

The children of the calculator and of each bracket are rebuilt from left to right.  An operator on
the level of the current output is copied in place.  An operator that binds more tightly opens a
group one level tighter, moves the operand before it into the group, and stays active: operands go into
the group until an operator of the output's own level, or of a weaker one, arrives.

A name that a bracket follows becomes a function, which holds what the bracket holds.
-/

namespace FeatureTree
namespace Calculator

open Rebuilding

/-- The features that rebuild a flat tree, in each of their states. -/
inductive Piece where
  /-- A number to be copied. -/
  | number
  /-- A bracket to be copied. -/
  | bracket
  /-- An operator that has not been placed. -/
  | operator
  /-- A number, bracket or operator that has been copied in place. -/
  | placed
  /-- An operator that feeds a group of the given level. -/
  | grouping (group : NodeId) (level : Level)
  /-- An operator whose group has ended. -/
  | settled (group : NodeId)
  /-- A name that has not been seen. -/
  | name
  /-- A name that waits for a bracket. -/
  | named (node : NodeId)
  /-- A name that was applied to a bracket. -/
  | applied
  deriving DecidableEq, Repr

namespace Piece

/-- What features of the calculator share while rebuilding. -/
abbrev Desk : Type := Scene ExprKind Literal NoEntry Unit

/-- A call of a feature. -/
abbrev Call (α : Type) : Type := EStateM Error Desk α

/-- A feature and its answer. -/
abbrev Reply : Type := Piece × Step (Redirect Rule)

/-- Where a feature is called. -/
abbrev Place : Type := Context SyntaxKind Literal

/-! ## Looking at nodes -/

def kind? (cx : Place) (node : NodeId) : Option SyntaxKind :=
  (cx.inputTree.get? node).map Node.kind

def value? (cx : Place) (node : NodeId) : Option Literal :=
  (cx.inputTree.get? node).bind Node.value

/-- The operator that an input node carries. -/
def operator? (cx : Place) (node : NodeId) : Option Operator :=
  (value? cx node).bind Literal.operator?

/-- The level on which an output node holds operators: a group's own level, else the weakest. -/
def outputLevel (t : ExprTree) (output : NodeId) : Level :=
  match t.get? output with
  | some ⟨.group, some (.level l), _, _⟩ => l
  | _ => .additive

/-- Span from the start of one node to the end of another, if both have spans. -/
def spanOf? (first last : Option Position) : Option Position :=
  match first, last with
  | some p, some q => some ⟨p.start, q.stop⟩
  | _, _ => none

/-! ## Building -/

/-- Copies value and span of an input node to a new leaf. -/
def copyLeaf (cx : Place) (node : NodeId) (kind : ExprKind) (parent : NodeId) : Call Unit := do
  let _ ← Scene.append parent ⟨kind, value? cx node, cx.inputTree.position? node, none⟩

def feed (group : NodeId) : Step (Redirect Rule) := .redirect (.toOutput group .expression)

/-- Rebuilds the children of an input node under an output node. -/
def into (input output : NodeId) : Step (Redirect Rule) :=
  .redirect (.into input output .expression)

/-- Opens a group of a level and moves the last operand into it. -/
def openGroup (output : NodeId) (level : Level) : Call NodeId :=
  modifyGet fun s =>
    let operand := s.tree.lastChild? output
    let group := s.tree.size
    let tree := (s.tree.popChild output).append output ⟨.group, some (.level level), none, some #[]⟩
    let tree := match operand with
      | some operand => tree.attach group operand
      | none => tree
    (group, { s with tree })

/-- Spans a group from its first to its last child, if both have spans. -/
def spanGroup (group : NodeId) : Call Unit :=
  Scene.editTree fun t =>
    let first := (t.firstChild? group).bind t.position?
    let last := (t.lastChild? group).bind t.position?
    match spanOf? first last with
    | some position => t.setPosition group position
    | none => t

/-! ## Operators -/

/-- An operator that has not been placed yet. -/
def placeOperator (cx : Place) (node : NodeId) (op : Operator) : Call Reply := do
  let current := outputLevel (← get).tree cx.output
  match compare current op.level with
  | .eq =>
      copyLeaf cx node .operator cx.output
      return (.placed, .proceed)
  | .gt => return (.operator, .decline)
  | .lt =>
      match current.tighter? with
      | none => return (.operator, .decline)
      | some level =>
          let group ← openGroup cx.output level
          return (.grouping group level, feed group)

/-- An operator that meets the operator of a group. -/
def feedOperator (cx : Place) (node : NodeId) (op : Operator) (group : NodeId) (level : Level) :
    Call Reply := do
  let current := outputLevel (← get).tree cx.output
  match compare current op.level with
  | .eq =>
      copyLeaf cx node .operator cx.output
      return (.settled group, .proceed)
  | .gt => return (.grouping group level, .decline)
  | .lt =>
      if level = op.level then
        copyLeaf cx node .operator group
        return (.grouping group level, .proceed)
      else return (.grouping group level, feed group)

/-! ## Brackets and names -/

/-- Copies a bracket and rebuilds its children into the copy. -/
def placeBracket (cx : Place) (node : NodeId) : Call Reply := do
  let copy ← Scene.append cx.output
    ⟨.bracket, none, cx.inputTree.position? node, some #[]⟩
  return (.placed, into node copy)

/-- Applies a name to the bracket that follows it. -/
def applyName (cx : Place) (name bracket : NodeId) : Call Reply := do
  let position := spanOf? (cx.inputTree.position? name) (cx.inputTree.position? bracket)
  let function ← Scene.append cx.output ⟨.function, value? cx name, position, some #[]⟩
  return (.applied, into bracket function)

/-! ## The grammar -/

/-- Candidates for an input node: at most one. -/
def candidates : SyntaxKind → List Piece
  | .number => [.number]
  | .operator => [.operator]
  | .bracket => [.bracket]
  | .name => [.name]
  | .calculator => []

def handle (feature : Piece) (cx : Place) (node : NodeId) : Call Reply :=
  match feature with
  | number =>
      if kind? cx node = some .number then do
        copyLeaf cx node .number cx.output
        return (.placed, .proceed)
      else pure (.number, .decline)
  | bracket =>
      if kind? cx node = some .bracket then placeBracket cx node else pure (.bracket, .decline)
  | operator =>
      match operator? cx node with
      | none => pure (.operator, .decline)
      | some op => placeOperator cx node op
  | placed => pure (.placed, .decline)
  | grouping group level =>
      match operator? cx node with
      | none => pure (.grouping group level, feed group)
      | some op => feedOperator cx node op group level
  | settled group => pure (.settled group, .decline)
  | name =>
      if kind? cx node = some .name then pure (.named node, .proceed) else pure (.name, .decline)
  | named first =>
      if kind? cx node = some .bracket then applyName cx first node
      else pure (.named first, .decline)
  | applied => pure (.applied, .decline)

/-- What a feature does after its last node. -/
def exit (feature : Piece) (cx : Place) : Call Unit :=
  match feature with
  | grouping group _ => spanGroup group
  | settled group => spanGroup group
  | named node => copyLeaf cx node .bareName cx.output
  | _ => pure ()

/-- The grammar that groups operators by level. -/
def grammar : Grammar Rule Piece SyntaxKind Literal ExprKind Literal NoEntry Unit where
  dispatch _ cx node scene :=
    (((kind? cx node).map candidates).getD [], scene.bag, scene.world)
  handle := handle
  exit := exit

end Piece

/-! ## Rebuilding -/

/-- A rebuilder of flat trees, whose output root has no span yet. -/
abbrev Grouper : Type :=
  Rebuilder Rule Piece SyntaxKind Literal ExprKind Literal NoEntry Unit

/-- Rounds that rebuilding a flat tree takes at most: a fixed number for each path down from the root.
At each node some features leave, at most three become active, and one region may open. -/
def roundsFor (t : SyntaxTree) : Nat := 16 * (t.spread t.size Tree.root + 1)

/-- A rebuilder before the first child of the root. -/
def Grouper.new (t : SyntaxTree) (limits : Limits) : Grouper :=
  Rebuilder.new Piece.grammar .expression t (roundsFor t) (Node.parent .calculator) () limits

/-- Groups the operators of a flat tree; the root keeps its span. -/
def group (t : SyntaxTree) (limits : Limits) : Outcome Error ExprTree :=
  let rebuilder := (Grouper.new t limits).updateRoot fun n =>
    { n with position := t.rootNode.position }
  match rebuilder.rebuild with
  | (.success _, rebuilder) => .success rebuilder.tree
  | (.failure e, _) => .failure e
  | (.unfinished, _) => .unfinished

end Calculator
end FeatureTree
