import FeatureTree.Feature.Stack
import FeatureTree.Rebuilding.Cursors
import FeatureTree.Rebuilding.Grammar

/-!
# Machine — rebuilding with an explicit stack

The machine traverses the children of input nodes.  The innermost frame says which input node is being
traversed, the root if there is no frame; the recorded index of that node says which child is the
current one.

One round (`Machine.advance`) looks at the current child.  Waiting candidates are asked in order, and
it is an error if all decline.  If none wait, the innermost frame is asked.  Past the last child, all
frames that traverse the node are released.

A redirection into another input node opens a region: a frame that offers every child of that node to
its dispatch rule.  When the last frame of a region has left, the node that encloses it goes on to its
next child.

A grammar may redirect into nodes that are being traversed already, and then rebuilding need not end.
So runs are bounded by a number of rounds, and `Outcome` tells a run that was cut off from one that
failed.
-/

namespace FeatureTree

/-- How a bounded run ends. -/
inductive Outcome (ε α : Type) where
  | success (result : α)
  | failure (error : ε)
  /-- The rounds were used up. -/
  | unfinished

namespace Rebuilding

variable {D F I J K V Key W : Type} {Entry : Key → Type}

/-! ## States -/

/-- Who acts for a frame: a feature with the bag of its group, or the rule of a region. -/
inductive Handler (D F : Type) {Key : Type} (Entry : Key → Type) where
  | feature (feature : F) (bag : Bag Key Entry)
  | region (rule : D)

/-- A frame with the input node that it traverses and the output node that it builds under. -/
structure Frame (D F : Type) {Key : Type} (Entry : Key → Type) where
  handler : Handler D F Entry
  input : NodeId
  output : NodeId

/-- Features proposed by one call of a dispatch rule, which wait for the current child. -/
structure Candidates (F : Type) {Key : Type} (Entry : Key → Type) where
  features : List F
  input : NodeId
  output : NodeId
  bag : Bag Key Entry

/-- A state of the machine. -/
structure Machine (D F K V : Type) {Key : Type} (Entry : Key → Type) (W : Type) where
  /-- The output tree. -/
  tree : Tree K V
  world : W
  stack : Stack (Frame D F Entry)
  waiting : Option (Candidates F Entry)
  cursors : Cursors
  /-- Number of bags given out so far. -/
  bags : Nat

/-- A run on the machine's state, which is kept when the run fails. -/
abbrev Run (D F K V : Type) {Key : Type} (Entry : Key → Type) (W α : Type) : Type :=
  EStateM Error (Machine D F K V Entry W) α

namespace Machine

/-- The state before the first child of the input root. -/
def initial (root : Node K V) (world : W) (limits : Limits) : Machine D F K V Entry W where
  tree := Tree.singleton root
  world := world
  stack := Stack.empty limits
  waiting := none
  cursors := Cursors.empty.set Tree.root 0
  bags := 0

def input (m : Machine D F K V Entry W) : NodeId :=
  match m.stack.top? with
  | some frame => frame.input
  | none => Tree.root

def index (m : Machine D F K V Entry W) : Nat := m.cursors.index m.input

def push (frame : Frame D F Entry) : Run D F K V Entry W Unit := fun m =>
  match m.stack.push frame with
  | .ok stack => .ok () { m with stack }
  | .error v => .error (.violation v) m

/-- Goes on to the next child of an input node. -/
def proceed (input : NodeId) : Run D F K V Entry W Unit := fun m =>
  .ok () { m with cursors := m.cursors.bump input }

/-- After a frame of `input` has left: if another node is traversed now, the region of `input` is
finished, and the enclosing node goes on. -/
def ascend (input : NodeId) (m : Machine D F K V Entry W) : Machine D F K V Entry W :=
  if m.input = input then m
  else { m with cursors := (m.cursors.erase input).bump m.input }

section Rounds

variable (g : Grammar D F I J K V Entry W) (source : Tree I J)

/-- The current child. -/
def node? (m : Machine D F K V Entry W) : Option NodeId := source.childAt? m.input m.index

/-- The root has no further child and nothing is active. -/
def isFinished (m : Machine D F K V Entry W) : Bool :=
  (m.node? source).isNone && m.stack.isEmpty

/-- Asks a dispatch rule for candidates for a child, with a fresh bag. -/
def propose (rule : D) (input output node : NodeId) (m : Machine D F K V Entry W) :
    Candidates F Entry × Machine D F K V Entry W :=
  let (features, bag, world) :=
    g.dispatch rule ⟨source, input, output, m.cursors.index input⟩ node
      ⟨m.tree, Bag.empty m.bags, m.world⟩
  (⟨features, input, output, bag⟩, { m with world, bags := m.bags + 1 })

def ask (feature : F) (cx : Context I J) (bag : Bag Key Entry) (node : NodeId) :
    Run D F K V Entry W (F × Bag Key Entry × Step (Redirect D)) := fun m =>
  match m with
  | ⟨tree, world, stack, waiting, cursors, bags⟩ =>
      match g.handle feature cx node ⟨tree, bag, world⟩ with
      | .ok (feature, step) ⟨tree, bag, world⟩ =>
          .ok (feature, bag, step) ⟨tree, world, stack, waiting, cursors, bags⟩
      | .error e ⟨tree, _, world⟩ => .error e ⟨tree, world, stack, waiting, cursors, bags⟩

/-- Lets a feature finish that has left the stack. -/
def finish (feature : F) (bag : Bag Key Entry) (input output : NodeId) :
    Run D F K V Entry W Unit := fun m =>
  match m with
  | ⟨tree, world, stack, waiting, cursors, bags⟩ =>
      match g.exit feature ⟨source, input, output, cursors.index input⟩ ⟨tree, bag, world⟩ with
      | .ok _ ⟨tree, _, world⟩ => .ok () ⟨tree, world, stack, waiting, cursors, bags⟩
      | .error e ⟨tree, _, world⟩ => .error e ⟨tree, world, stack, waiting, cursors, bags⟩

/-- Takes the innermost frame off the stack; a feature may finish, a region has nothing to do. -/
def releaseTop : Run D F K V Entry W Unit := fun m =>
  match m.stack.pop? with
  | none => .ok () m
  | some (frame, stack) =>
      match frame.handler with
      | .region _ => .ok () (ascend frame.input { m with stack })
      | .feature feature bag =>
          match finish g source feature bag frame.input frame.output { m with stack } with
          | .ok _ m => .ok () (ascend frame.input m)
          | .error e m => .error e m

/-- Opens a region for the children of an input node. -/
def descend (target : Redirect D) (nested : NodeId) : Run D F K V Entry W Unit := fun m =>
  match source.get? nested with
  | none => .error (.violation (.invalidRedirect (.input nested))) m
  | some node =>
      if node.isParent then
        let index := target.start.getD (m.cursors.index nested)
        push ⟨.region target.dispatch, nested, target.output⟩
          { m with cursors := m.cursors.set nested index }
      else .error (.violation (.invalidRedirect (.leafInput nested))) m

/-- Follows a redirection of a frame that traverses `input`. -/
def redirect (target : Redirect D) (input node : NodeId) : Run D F K V Entry W Unit := fun m =>
  if m.tree.contains target.output then
    let nested := target.input.getD input
    if nested = input then
      let (group, m) := m.propose g source target.dispatch input target.output node
      .ok () { m with waiting := some group }
    else descend source target nested m
  else .error (.violation (.invalidRedirect (.output target.output))) m

/-- Follows the answer of the innermost feature, which traverses `input`. -/
def follow (step : Step (Redirect D)) (input node : NodeId) : Run D F K V Entry W Unit :=
  match step with
  | .proceed => proceed input
  | .decline => releaseTop g source
  | .redirect target => redirect g source target input node

/-- Asks candidates in order; the first that claims the child becomes active. -/
def offer (cx : Context I J) (node : NodeId) : List F → Bag Key Entry → Run D F K V Entry W Unit
  | [], _ => fun m => .error (.unclaimed node cx.index) m
  | feature :: rest, bag => do
      let (feature, bag, step) ← ask g feature cx bag node
      if step.claims then
        push ⟨.feature feature bag, cx.input, cx.output⟩
        follow g source step cx.input node
      else offer cx node rest bag

def offerGroup (group : Candidates F Entry) (node : NodeId) : Run D F K V Entry W Unit := fun m =>
  offer g source ⟨source, group.input, group.output, m.index⟩ node group.features group.bag
    { m with waiting := none }

def stepTop (node : NodeId) : Run D F K V Entry W Unit := fun m =>
  match m.stack.top? with
  | none => .ok () m
  | some top =>
      match top.handler with
      | .region rule =>
          let (group, m) := m.propose g source rule top.input top.output node
          .ok () { m with waiting := some group }
      | .feature feature bag =>
          let cx := ⟨source, top.input, top.output, m.cursors.index top.input⟩
          match ask g feature cx bag node m with
          | .ok (feature, bag, step) m =>
              follow g source step top.input node
                { m with stack := m.stack.setTop ⟨.feature feature bag, top.input, top.output⟩ }
          | .error e m => .error e m

/-- Releases the listed frames, the innermost first, as long as they traverse `input`. -/
def releaseWhile (input : NodeId) : List (FrameId × Frame D F Entry) → Run D F K V Entry W Unit
  | [] => pure ()
  | (_, frame) :: rest =>
      if frame.input = input then do
        releaseTop g source
        releaseWhile input rest
      else pure ()

/-- Releases all frames that traverse the current input node. -/
def releaseInput : Run D F K V Entry W Unit := fun m =>
  releaseWhile g source m.input m.stack.frames { m with waiting := none }

/-- One round.  When no candidates wait and nothing is active, the start rule proposes candidates that
build under the output root, and they are asked at once. -/
def advance (start : D) : Run D F K V Entry W Unit := fun m =>
  match m.node? source with
  | none => releaseInput g source m
  | some node =>
      match m.waiting with
      | some group => offerGroup g source group node m
      | none =>
          if m.stack.isEmpty then
            let (group, m) := m.propose g source start Tree.root Tree.root node
            offerGroup g source group node m
          else stepTop g source node m

/-- At most the given number of rounds. -/
def run (start : D) : Nat → Machine D F K V Entry W →
    Outcome Error Unit × Machine D F K V Entry W
  | 0, m => (if m.isFinished source then .success () else .unfinished, m)
  | rounds + 1, m =>
      if m.isFinished source then (.success (), m)
      else
        match advance g source start m with
        | .ok _ next => run start rounds next
        | .error e failed => (.failure e, failed)

end Rounds

/-- The state in which nothing is active and nothing waits. -/
def drop (m : Machine D F K V Entry W) : Machine D F K V Entry W :=
  { m with stack := m.stack.unwind, waiting := none }

end Machine

/-! ## Rebuilders -/

/-- A grammar with its start rule, an input tree, and how far the rebuilding has come.  A run takes at
most `rounds` rounds. -/
structure Rebuilder (D F I J K V : Type) {Key : Type} (Entry : Key → Type) (W : Type) where
  grammar : Grammar D F I J K V Entry W
  start : D
  source : Tree I J
  rounds : Nat
  machine : Machine D F K V Entry W
  status : Status

namespace Rebuilder

/-- A rebuilder before the first child of the input root, which builds under the given root. -/
def new (grammar : Grammar D F I J K V Entry W) (start : D) (source : Tree I J) (rounds : Nat)
    (root : Node K V) (world : W) (limits : Limits) : Rebuilder D F I J K V Entry W where
  grammar := grammar
  start := start
  source := source
  rounds := rounds
  machine := Machine.initial root world limits
  status := .ready

/-- The output tree as far as it is built. -/
def tree (r : Rebuilder D F I J K V Entry W) : Tree K V := r.machine.tree

/-- Changes the root node of the output. -/
def updateRoot (r : Rebuilder D F I J K V Entry W) (f : Node K V → Node K V) :
    Rebuilder D F I J K V Entry W :=
  { r with machine := { r.machine with tree := r.machine.tree.update Tree.root f } }

/-- Rebuilds the whole input tree.  After a success, later calls answer the same and do nothing; after
a failure, frames are dropped and later calls are refused.  A call that was cut off goes on where it
stopped. -/
def rebuild (r : Rebuilder D F I J K V Entry W) :
    Outcome Error Unit × Rebuilder D F I J K V Entry W :=
  match r.status with
  | .done => (.success (), r)
  | .failed => (.failure (.violation .poisoned), r)
  | .ready =>
      match r.machine.run r.grammar r.source r.start r.rounds with
      | (.success _, m) => (.success (), { r with machine := m, status := .done })
      | (.failure e, m) => (.failure e, { r with machine := m.drop, status := .failed })
      | (.unfinished, m) => (.unfinished, { r with machine := m })

end Rebuilder

end Rebuilding

end FeatureTree
