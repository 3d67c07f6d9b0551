import FeatureTree.Reading.Reader
import FeatureTree.Script.Journal
import FeatureTree.Tree.Scalar

/-!
# TextFeature — reading features given by rule tables

A scripted feature has a state, a start offset, a buffer of characters and a node of its own.  It
answers a character by the first of its rules that fits its state and the character, and declines if
none fits.  A rule runs its effects, may set the state, and then gives the answer.
-/

namespace FeatureTree
namespace Script

open Reading

/-! ## Tables -/

/-- A class of characters. -/
inductive CharClass where
  | any
  | letter
  | digit
  | oneOf (chars : List Char)
  deriving DecidableEq, Repr

def CharClass.accepts : CharClass → Char → Bool
  | any, _ => true
  | letter, c => c.isLower
  | digit, c => c.isDigit
  | oneOf chars, c => chars.contains c

namespace TextFeature

/-- The node to which a redirection leads. -/
inductive Target where
  /-- The node under which the feature builds. -/
  | current
  /-- The feature's own node, if it has one. -/
  | own
  | root
  | node (id : NodeId)
  deriving DecidableEq, Repr

/-- What a rule answers. -/
inductive Answer where
  | proceed
  | decline
  | reject (message : String)
  | redirect (rule : String) (target : Target)
  deriving DecidableEq, Repr

def Answer.word : Answer → String
  | proceed => "continue"
  | decline => "decline"
  | reject _ => "reject"
  | redirect _ _ => "redirect"

/-- What a rule or an exit does. -/
inductive Effect where
  /-- Keeps the current offset as the start. -/
  | mark
  /-- Adds the current character to the buffer. -/
  | push
  /-- Appends a parent, which becomes the feature's own node. -/
  | openNode (kind : String)
  /-- Appends a leaf. -/
  | leaf (kind : String)
  /-- Appends the buffer as a leaf that spans from the start, and empties it. -/
  | emit (kind : String)
  /-- Spans the own node from the start. -/
  | close
  /-- Adds to the tally of the bag. -/
  | tally (n : Int)
  /-- Appends the tally as a leaf; without a tally, minus one. -/
  | emitTally (kind : String)
  /-- Takes the last child from the node under which the feature builds. -/
  | pop
  /-- Makes that last child the own node. -/
  | ownLast
  /-- Rejects the text at the start if the feature is in a state. -/
  | rejectIf (state : Int) (message : String)
  /-- Writes the context to the journal. -/
  | context
  deriving DecidableEq, Repr

/-- A rule; without a state it fits every state. -/
structure Rule where
  state : Option Int
  chars : CharClass
  effects : List Effect
  next : Option Int
  answer : Answer
  deriving Repr

/-- The rules of a feature, and what it does at its end. -/
structure Behavior where
  rules : List Rule
  atExit : List Effect
  deriving Repr

/-- Dispatch rules and features by name. -/
structure Program where
  dispatch : List (String × List (CharClass × List String))
  features : List (String × Behavior)
  deriving Repr

/-! ## The journal -/

/-- What the journal holds of one call. -/
inductive Entry where
  | dispatch (rule : String) (offset : Nat) (ancestor : NodeId)
  | handle (feature : String) (state : Int) (offset : Nat) (char : Char) (answer : String)
  | exit (feature : String) (state : Int) (offset : Nat) (ancestor : NodeId)
  | context (cx : Context) (treeSize : Nat)

/-- What scripted features share. -/
abbrev Desk : Type := Scene String Scalar BagEntry (Journal Entry)

/-- A call of a feature. -/
abbrev Call (α : Type) : Type := EStateM Error Desk α

def record (entry : Entry) : Call Unit :=
  modify fun s => { s with world := s.world.record entry }

/-! ## Features -/

/-- A feature at work. -/
structure Instance where
  name : String
  behavior : Behavior
  state : Int
  start : Nat
  buffer : String
  own : Option NodeId

def Instance.new (name : String) (behavior : Behavior) : Instance := ⟨name, behavior, 0, 0, "", none⟩

/-- Runs one effect; at an exit there is no current character. -/
def perform (f : Instance) (cx : Context) (c : Option Char) : Effect → Call Instance
  | .mark => pure { f with start := cx.offset }
  | .push =>
      match c with
      | some c => pure { f with buffer := f.buffer.push c }
      | none => pure f
  | .openNode kind => do
      let id ← Scene.append cx.ancestor (Node.parent kind)
      return { f with own := some id }
  | .leaf kind => do
      let _ ← Scene.append cx.ancestor (Node.leaf kind)
      return f
  | .emit kind => do
      let _ ← Scene.append cx.ancestor
        ⟨kind, some (.text f.buffer), some (cx.positionFrom f.start), none⟩
      return { f with buffer := "" }
  | .close => do
      match f.own with
      | some id => Scene.editTree (·.setPosition id (cx.positionFrom f.start))
      | none => pure ()
      return f
  | .tally n => do
      modify fun s => { s with bag := s.bag.modify .tally (· + n) }
      return f
  | .emitTally kind => do
      let tally := ((← get).bag.get? .tally).getD (-1)
      let _ ← Scene.append cx.ancestor (Node.literal kind (.int tally))
      return f
  | .pop => do
      Scene.editTree (·.popChild cx.ancestor)
      return f
  | .ownLast => do
      return { f with own := (← get).tree.lastChild? cx.ancestor }
  | .rejectIf state message =>
      if f.state = state then throw (.rejected message (cx.text.point f.start)) else pure f
  | .context => do
      record (.context cx (← get).tree.size)
      return f

def performAll (f : Instance) (cx : Context) (c : Option Char) : List Effect → Call Instance
  | [] => pure f
  | effect :: rest => do
      let f ← perform f cx c effect
      performAll f cx c rest

/-- The rule fits the feature's state and the character. -/
def Rule.fits (rule : Rule) (f : Instance) (c : Char) : Bool :=
  rule.state.all (· == f.state) && rule.chars.accepts c

/-- The rule that answers when none fits. -/
def Rule.default : Rule := ⟨none, .any, [], none, .decline⟩

/-- The first rule that fits. -/
def Instance.rule (f : Instance) (c : Char) : Rule :=
  (f.behavior.rules.find? (·.fits f c)).getD Rule.default

/-- The node to which a redirection leads; none for the current one. -/
def Target.node? (f : Instance) : Target → Option NodeId
  | current => none
  | own => f.own
  | root => some Tree.root
  | node id => some id

def answer (f : Instance) (cx : Context) : Answer → Call (Instance × Step (Redirect String))
  | .proceed => pure (f, .proceed)
  | .decline => pure (f, .decline)
  | .reject message => throw (.rejected message cx.point)
  | .redirect rule target => pure (f, .redirect ⟨rule, target.node? f⟩)

def handle (f : Instance) (cx : Context) (c : Char) :
    Call (Instance × Step (Redirect String)) := do
  modify fun s => { s with world := s.world.count }
  if (← get).world.isExhausted then throw (.rejected limitMessage cx.point)
  let rule := f.rule c
  record (.handle f.name f.state cx.offset c rule.answer.word)
  let f ← performAll f cx (some c) rule.effects
  answer { f with state := rule.next.getD f.state } cx rule.answer

/-- What a feature does after its last character. -/
def exit (f : Instance) (cx : Context) : Call Unit := do
  record (.exit f.name f.state cx.offset cx.ancestor)
  let _ ← performAll f cx none f.behavior.atExit

/-- Candidates for a character: those of the first entry whose class it belongs to. -/
def Program.candidates (p : Program) (rule : String) (c : Option Char) : List Instance :=
  let entries := (lookup? rule p.dispatch).getD []
  match entries.find? fun entry => c.all entry.1.accepts with
  | none => []
  | some (_, names) =>
      names.map fun name => Instance.new name ((lookup? name p.features).getD ⟨[], []⟩)

def Program.grammar (p : Program) :
    Grammar String Instance String Scalar BagEntry (Journal Entry) where
  dispatch rule cx scene :=
    (p.candidates rule cx.char?, scene.bag,
      scene.world.record (.dispatch rule cx.offset cx.ancestor))
  handle := handle
  exit := exit

/-- A reader that runs a program on a text. -/
def Program.reader (p : Program) (start : String) (text : SourceText)
    (root : Node String Scalar) (limits : Limits) :
    Reader String Instance String Scalar BagEntry (Journal Entry) :=
  Reader.new p.grammar start text root Journal.empty limits

end TextFeature

end Script
end FeatureTree
