import FeatureTree.Rebuilding.Machine
import FeatureTree.Script.Journal
import FeatureTree.Tree.Scalar

/-!
# TreeFeature — rebuilding features given by rule tables

A scripted feature has a state, an input node that it saved and an output node of its own.  It answers
an input node by the first of its rules that fits its state and the node, and declines if none fits.
-/

namespace FeatureTree
namespace Script
namespace TreeFeature

open Rebuilding

/-! ## Tables -/

/-- A class of nodes: what is given must agree. -/
structure NodeClass where
  kind : Option String
  value : Option Scalar
  isParent : Option Bool
  deriving DecidableEq, Repr

def NodeClass.accepts (cls : NodeClass) (n : Node String Scalar) : Bool :=
  cls.kind.all (· == n.kind) && cls.value.all (some · == n.value)
    && cls.isParent.all (· == n.isParent)

/-- An output node. -/
inductive OutputNode where
  | current
  /-- The feature's own node; the current one, if it has none. -/
  | own
  | root
  | node (id : NodeId)
  deriving DecidableEq, Repr

/-- An input node. -/
inductive InputNode where
  /-- The node that is being answered. -/
  | child
  /-- The node whose children are traversed. -/
  | current
  | root
  | node (id : NodeId)
  deriving DecidableEq, Repr

/-- What a rule answers. -/
inductive Answer where
  | proceed
  | decline
  | reject (message : String)
  /-- The same node again, with output elsewhere. -/
  | output (rule : String) (out : OutputNode)
  /-- The children of an input node. -/
  | nested (rule : String) (input : InputNode) (out : OutputNode) (start : Option Nat)
  deriving DecidableEq, Repr

def Answer.word : Answer → String
  | proceed => "continue"
  | decline => "decline"
  | reject _ => "reject"
  | output _ _ => "output"
  | nested _ _ _ _ => "nested"

/-- What a rule or an exit does. -/
inductive Effect where
  /-- Copies the node to a leaf. -/
  | copy
  /-- Saves the node. -/
  | save
  /-- Copies the saved node to a leaf. -/
  | copySaved
  /-- Appends a parent, which becomes the feature's own node. -/
  | openNode (kind : String)
  /-- Appends a leaf. -/
  | leaf (kind : String)
  /-- Appends a parent as the own node, and moves the child before it into it. -/
  | regroup (kind : String)
  /-- Spans the own node from its first to its last child, if both have spans. -/
  | span
  /-- Adds to the tally of the bag. -/
  | tally (n : Int)
  /-- Appends the tally as a leaf; without a tally, minus one. -/
  | emitTally (kind : String)
  /-- Rejects the saved node, else the traversed one, if the feature is in a state. -/
  | rejectIf (state : Int) (message : String)
  /-- Writes the context to the journal. -/
  | context
  deriving DecidableEq, Repr

/-- A rule; without a state it fits every state. -/
structure Rule where
  state : Option Int
  nodes : NodeClass
  effects : List Effect
  next : Option Int
  answer : Answer
  deriving Repr

/-- The rules of a feature, and what it does at its end. -/
structure Behavior where
  rules : List Rule
  atExit : List Effect
  deriving Repr

/-- Dispatch rules and features by name. -/
structure Program where
  dispatch : List (String × List (NodeClass × List String))
  features : List (String × Behavior)
  deriving Repr

/-! ## The journal -/

/-- Where a scripted feature is called. -/
abbrev Place : Type := Context String Scalar

/-- What the journal holds of one call. -/
inductive Entry where
  | dispatch (rule : String) (node : NodeId) (cx : Place)
  | handle (feature : String) (state : Int) (node : NodeId) (index : Nat) (answer : String)
  | exit (feature : String) (state : Int) (cx : Place)
  | context (cx : Place) (treeSize : Nat)

/-- What scripted features share. -/
abbrev Desk : Type := Scene String Scalar BagEntry (Journal Entry)

/-- A call of a feature. -/
abbrev Call (α : Type) : Type := EStateM Error Desk α

def record (entry : Entry) : Call Unit :=
  modify fun s => { s with world := s.world.record entry }

/-! ## Features -/

/-- A feature at work. -/
structure Instance where
  name : String
  behavior : Behavior
  state : Int
  saved : Option NodeId
  own : Option NodeId

def Instance.new (name : String) (behavior : Behavior) : Instance := ⟨name, behavior, 0, none, none⟩

/-- Copies an input node to a leaf under the output node. -/
def copyNode (cx : Place) (node : Option NodeId) : Call Unit :=
  match node.bind cx.inputTree.get? with
  | some n => do
      let _ ← Scene.append cx.output n.label.leaf
  | none => pure ()

/-- Moves the last child of a node into a new parent that takes its place. -/
def regroup (output : NodeId) (kind : String) : Call NodeId :=
  modifyGet fun s =>
    let operand := s.tree.lastChild? output
    let group := s.tree.size
    let tree := (s.tree.popChild output).append output (Node.parent kind)
    let tree := match operand with
      | some operand => tree.attach group operand
      | none => tree
    (group, { s with tree })

/-- Spans a node from its first to its last child, if both have spans. -/
def spanNode (t : WordTree) (id : NodeId) : WordTree :=
  match (t.firstChild? id).bind t.position?, (t.lastChild? id).bind t.position? with
  | some first, some last => t.setPosition id ⟨first.start, last.stop⟩
  | _, _ => t

/-- Runs one effect; at an exit there is no current node. -/
def perform (f : Instance) (cx : Place) (node : Option NodeId) : Effect → Call Instance
  | .copy => do
      copyNode cx node
      return f
  | .save => pure { f with saved := node }
  | .copySaved => do
      copyNode cx f.saved
      return f
  | .openNode kind => do
      let id ← Scene.append cx.output (Node.parent kind)
      return { f with own := some id }
  | .leaf kind => do
      let _ ← Scene.append cx.output (Node.leaf kind)
      return f
  | .regroup kind => do
      let id ← regroup cx.output kind
      return { f with own := some id }
  | .span => do
      match f.own with
      | some id => Scene.editTree (spanNode · id)
      | none => pure ()
      return f
  | .tally n => do
      modify fun s => { s with bag := s.bag.modify .tally (· + n) }
      return f
  | .emitTally kind => do
      let tally := ((← get).bag.get? .tally).getD (-1)
      let _ ← Scene.append cx.output (Node.literal kind (.int tally))
      return f
  | .rejectIf state message =>
      if f.state = state then throw (.rejected message (f.saved.getD cx.input)) else pure f
  | .context => do
      record (.context cx (← get).tree.size)
      return f

def performAll (f : Instance) (cx : Place) (node : Option NodeId) : List Effect → Call Instance
  | [] => pure f
  | effect :: rest => do
      let f ← perform f cx node effect
      performAll f cx node rest

/-- The rule fits the feature's state and the node. -/
def Rule.fits (rule : Rule) (f : Instance) (n : Node String Scalar) : Bool :=
  rule.state.all (· == f.state) && rule.nodes.accepts n

/-- The rule that answers when none fits. -/
def Rule.default : Rule := ⟨none, ⟨none, none, none⟩, [], none, .decline⟩

/-- The first rule that fits. -/
def Instance.rule (f : Instance) (cx : Place) (node : NodeId) : Rule :=
  ((cx.inputTree.get? node).bind fun n => f.behavior.rules.find? (·.fits f n)).getD Rule.default

def OutputNode.id (f : Instance) (cx : Place) : OutputNode → NodeId
  | current => cx.output
  | own => f.own.getD cx.output
  | root => Tree.root
  | node id => id

def InputNode.id (cx : Place) (node : NodeId) : InputNode → NodeId
  | child => node
  | current => cx.input
  | root => Tree.root
  | .node id => id

def answer (f : Instance) (cx : Place) (node : NodeId) :
    Answer → Call (Instance × Step (Redirect String))
  | .proceed => pure (f, .proceed)
  | .decline => pure (f, .decline)
  | .reject message => throw (.rejected message node)
  | .output rule out => pure (f, .redirect (.toOutput (out.id f cx) rule))
  | .nested rule input out start =>
      pure (f, .redirect ⟨rule, some (input.id cx node), out.id f cx, start⟩)

def handle (f : Instance) (cx : Place) (node : NodeId) :
    Call (Instance × Step (Redirect String)) := do
  modify fun s => { s with world := s.world.count }
  if (← get).world.isExhausted then throw (.rejected limitMessage node)
  let rule := f.rule cx node
  record (.handle f.name f.state node cx.index rule.answer.word)
  let f ← performAll f cx (some node) rule.effects
  answer { f with state := rule.next.getD f.state } cx node rule.answer

/-- What a feature does after its last node. -/
def exit (f : Instance) (cx : Place) : Call Unit := do
  record (.exit f.name f.state cx)
  let _ ← performAll f cx none f.behavior.atExit

/-- Candidates for a node: those of the first entry whose class it belongs to. -/
def Program.candidates (p : Program) (rule : String) (n : Node String Scalar) : List Instance :=
  let entries := (lookup? rule p.dispatch).getD []
  match entries.find? fun entry => entry.1.accepts n with
  | none => []
  | some (_, names) =>
      names.map fun name => Instance.new name ((lookup? name p.features).getD ⟨[], []⟩)

def Program.grammar (p : Program) :
    Grammar String Instance String Scalar String Scalar BagEntry (Journal Entry) where
  dispatch rule cx node scene :=
    (((cx.inputTree.get? node).map (p.candidates rule)).getD [], scene.bag,
      scene.world.record (.dispatch rule node cx))
  handle := handle
  exit := exit

/-- Rounds that a run takes at most.  A round asks a feature, or lets a region propose candidates that
the next round asks, or releases frames; and an answer makes at most two frames. -/
def rounds : Nat := 8 * (callLimit + 1)

/-- A rebuilder that runs a program on a tree. -/
def Program.rebuilder (p : Program) (start : String) (source : WordTree)
    (root : Node String Scalar) (limits : Limits) :
    Rebuilder String Instance String Scalar String Scalar BagEntry (Journal Entry) :=
  Rebuilder.new p.grammar start source rounds root Journal.empty limits

end TreeFeature
end Script
end FeatureTree
