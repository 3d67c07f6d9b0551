import FeatureTree.Feature.Stack
import FeatureTree.Reading.Grammar

/-!
# Machine — reading with an explicit stack

The machine reads a text from left to right.  Its control lies in three places: the candidates that
wait for the current character, the stack of active features, and the offset.

One round (`Machine.advance`) looks at one character.  Waiting candidates are asked in order, and the
first that does not decline becomes active; if all decline, the character is skipped.  If none wait,
the innermost feature is asked.  If no feature is active either, the start rule proposes candidates
first.

Reading ends for every grammar.  In each round that does not use up the character, either features
leave the stack before any candidates wait, or candidates wait and one more feature has become active;
the limit bounds both.  `Machine.measure` puts this into numbers.
-/

namespace FeatureTree
namespace Reading

variable {D F K V Key W : Type} {Entry : Key → Type}

/-! ## States -/

/-- An active feature with the node it builds under and the bag of its group. -/
structure Frame (F : Type) {Key : Type} (Entry : Key → Type) where
  feature : F
  ancestor : NodeId
  bag : Bag Key Entry

/-- Features proposed by one call of a dispatch rule, which wait for the current character. -/
structure Candidates (F : Type) {Key : Type} (Entry : Key → Type) where
  features : List F
  ancestor : NodeId
  bag : Bag Key Entry

/-- A state of the machine. -/
structure Machine (F K V : Type) {Key : Type} (Entry : Key → Type) (W : Type) where
  tree : Tree K V
  world : W
  stack : Stack (Frame F Entry)
  waiting : Option (Candidates F Entry)
  offset : Nat
  /-- Number of bags given out so far. -/
  bags : Nat

/-- A run on the machine's state, which is kept when the run fails. -/
abbrev Run (F K V : Type) {Key : Type} (Entry : Key → Type) (W α : Type) : Type :=
  EStateM Error (Machine F K V Entry W) α

namespace Machine

def initial (root : Node K V) (world : W) (limits : Limits) : Machine F K V Entry W where
  tree := Tree.singleton root
  world := world
  stack := Stack.empty limits
  waiting := none
  offset := 0
  bags := 0

def skip : Run F K V Entry W Unit := fun m => .ok () { m with offset := m.offset + 1 }

def push (frame : Frame F Entry) : Run F K V Entry W Unit := fun m =>
  match m.stack.push frame with
  | .ok stack => .ok () { m with stack }
  | .error v => .error (.violation v) m

section Rounds

variable (g : Grammar D F K V Entry W) (text : SourceText)

/-- Asks a dispatch rule for candidates under a node, with a fresh bag. -/
def propose (rule : D) (ancestor : NodeId) (m : Machine F K V Entry W) :
    Candidates F Entry × Machine F K V Entry W :=
  let (features, bag, world) :=
    g.dispatch rule ⟨text, ancestor, m.offset⟩ ⟨m.tree, Bag.empty m.bags, m.world⟩
  (⟨features, ancestor, bag⟩, { m with world, bags := m.bags + 1 })

/-- Asks a feature about the current character. -/
def ask (feature : F) (ancestor : NodeId) (bag : Bag Key Entry) (c : Char) :
    Run F K V Entry W (Frame F Entry × Step (Redirect D)) := fun m =>
  match m with
  | ⟨tree, world, stack, waiting, offset, bags⟩ =>
      match g.handle feature ⟨text, ancestor, offset⟩ c ⟨tree, bag, world⟩ with
      | .ok (feature, step) ⟨tree, bag, world⟩ =>
          .ok (⟨feature, ancestor, bag⟩, step) ⟨tree, world, stack, waiting, offset, bags⟩
      | .error e ⟨tree, _, world⟩ => .error e ⟨tree, world, stack, waiting, offset, bags⟩

/-- Takes the innermost feature off the stack and lets it finish. -/
def releaseTop : Run F K V Entry W Unit := fun m =>
  match m with
  | ⟨tree, world, stack, waiting, offset, bags⟩ =>
      match stack.pop? with
      | none => .ok () ⟨tree, world, stack, waiting, offset, bags⟩
      | some (frame, stack) =>
          match g.exit frame.feature ⟨text, frame.ancestor, offset⟩ ⟨tree, frame.bag, world⟩ with
          | .ok _ ⟨tree, _, world⟩ => .ok () ⟨tree, world, stack, waiting, offset, bags⟩
          | .error e ⟨tree, _, world⟩ => .error e ⟨tree, world, stack, waiting, offset, bags⟩

/-- Follows a redirection to a node of the tree. -/
def redirect (target : Redirect D) (ancestor : NodeId) : Run F K V Entry W Unit := fun m =>
  let ancestor := target.ancestor.getD ancestor
  if m.tree.contains ancestor then
    let (group, m) := m.propose g text target.dispatch ancestor
    .ok () { m with waiting := some group }
  else .error (.violation (.invalidRedirect (.ancestor ancestor))) m

/-- Follows the answer of the innermost feature, which builds under `ancestor`. -/
def follow (step : Step (Redirect D)) (ancestor : NodeId) : Run F K V Entry W Unit :=
  match step with
  | .proceed => skip
  | .decline => releaseTop g text
  | .redirect target => redirect g text target ancestor

/-- Asks candidates in order; the first that claims the character becomes active. -/
def offer (c : Char) (ancestor : NodeId) : List F → Bag Key Entry → Run F K V Entry W Unit
  | [], _ => skip
  | feature :: rest, bag => do
      let (frame, step) ← ask g text feature ancestor bag c
      if step.claims then
        push frame
        follow g text step ancestor
      else offer c ancestor rest frame.bag

def stepTop (c : Char) : Run F K V Entry W Unit := fun m =>
  match m.stack.top? with
  | none => .ok () m
  | some top =>
      match ask g text top.feature top.ancestor top.bag c m with
      | .ok (frame, step) m =>
          follow g text step frame.ancestor { m with stack := m.stack.setTop frame }
      | .error e m => .error e m

def offerGroup (c : Char) (group : Candidates F Entry) : Run F K V Entry W Unit := fun m =>
  offer g text c group.ancestor group.features group.bag { m with waiting := none }

/-- One round on the current character.  When no candidates wait and no feature is active, the start
rule proposes candidates under the root, which are asked at once. -/
def advance (start : D) (c : Char) : Run F K V Entry W Unit := fun m =>
  match m.waiting with
  | some group => offerGroup g text c group m
  | none =>
      if m.stack.isEmpty then
        let (group, m) := m.propose g text start Tree.root
        offerGroup g text c group m
      else stepTop g text c m

/-- Releases as many frames as are listed, the innermost first. -/
def releaseEach : List (FrameId × Frame F Entry) → Run F K V Entry W Unit
  | [] => pure ()
  | _ :: rest => do
      releaseTop g text
      releaseEach rest

def releaseAll : Run F K V Entry W Unit := fun m => releaseEach g text m.stack.frames m

end Rounds

/-! ## The end of reading -/

/-- Characters left; then whether candidates may still be proposed here; then how many more features
may leave, or become active. -/
def measure (text : SourceText) (m : Machine F K V Entry W) : Nat × Nat × Nat :=
  match m.waiting with
  | none => (text.length - m.offset, 1, m.stack.depth)
  | some _ => (text.length - m.offset, 0, m.stack.maxDepth - m.stack.depth)

end Machine

end Reading
end FeatureTree
