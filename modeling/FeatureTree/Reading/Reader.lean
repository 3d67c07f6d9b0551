import FeatureTree.Reading.Progress

/-!
# Reader — a text read at most once

`Machine.run` repeats rounds until the end of the text and then releases what is still active.

A `Reader` runs its machine on the first call of `Reader.read`.  After a success, later calls answer the
same and do nothing.  After a failure the active features are dropped without a chance to finish, and
every later call is refused.
-/

namespace FeatureTree

namespace Reading

variable {D F K V Key W : Type} {Entry : Key → Type}

namespace Machine

/-- Rounds up to the end of the text, then the release of all active features. -/
def run (g : Grammar D F K V Entry W) (text : SourceText) (start : D)
    (m : Machine F K V Entry W) : EStateM.Result Error (Machine F K V Entry W) Unit :=
  match _ : text.char? m.offset with
  | none => releaseAll g text m
  | some c =>
      match _ : advance g text start c m with
      | .ok _ next => run g text start next
      | .error e failed => .error e failed
termination_by m.measure text
decreasing_by
  next hc _ hm => exact (advance_progress (Array.getElem?_eq_some_iff.1 hc).1 hm).rel

/-- The state in which nothing is active and nothing waits. -/
def drop (m : Machine F K V Entry W) : Machine F K V Entry W :=
  { m with stack := m.stack.unwind, waiting := none }

end Machine

/-- A grammar with its start rule, a text, and how far the reading has come. -/
structure Reader (D F K V : Type) {Key : Type} (Entry : Key → Type) (W : Type) where
  grammar : Grammar D F K V Entry W
  start : D
  text : SourceText
  machine : Machine F K V Entry W
  status : Status

namespace Reader

/-- A reader at the start of a text, which builds under the given root. -/
def new (grammar : Grammar D F K V Entry W) (start : D) (text : SourceText) (root : Node K V)
    (world : W) (limits : Limits) : Reader D F K V Entry W where
  grammar := grammar
  start := start
  text := text
  machine := Machine.initial root world limits
  status := .ready

/-- The tree as far as it is built. -/
def tree (r : Reader D F K V Entry W) : Tree K V := r.machine.tree

def offset (r : Reader D F K V Entry W) : Nat := r.machine.offset

def updateRoot (r : Reader D F K V Entry W) (f : Node K V → Node K V) : Reader D F K V Entry W :=
  { r with machine := { r.machine with tree := r.machine.tree.update Tree.root f } }

/-- Reads the whole text; only the first call works. -/
def read (r : Reader D F K V Entry W) : Except Error Unit × Reader D F K V Entry W :=
  match r.status with
  | .done => (.ok (), r)
  | .failed => (.error (.violation .poisoned), r)
  | .ready =>
      match r.machine.run r.grammar r.text r.start with
      | .ok _ m => (.ok (), { r with machine := m, status := .done })
      | .error e m => (.error e, { r with machine := m.drop, status := .failed })

end Reader

end Reading
end FeatureTree
