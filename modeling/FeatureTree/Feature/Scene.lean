import FeatureTree.Feature.Bag
import FeatureTree.Tree.Basic

/-!
# Scene — what features share

Features of both engines change the tree under construction, the bag of their group of candidates, and
a world of the grammar's own choice, for instance a log.  What they did to the scene stays done when
they fail.
-/

namespace FeatureTree

/-- The tree under construction, the bag of the group, and the grammar's world. -/
structure Scene (K V : Type) {Key : Type} (Entry : Key → Type) (W : Type) where
  tree : Tree K V
  bag : Bag Key Entry
  world : W

/-- How far an engine has come. -/
inductive Status where
  | ready
  | done
  | failed
  deriving DecidableEq, Repr

namespace Scene

variable {ε K V Key W : Type} {Entry : Key → Type}

def editTree (f : Tree K V → Tree K V) : EStateM ε (Scene K V Entry W) Unit :=
  modify fun s => { s with tree := f s.tree }

/-- Adds a node under a parent and returns its id. -/
def append (parent : NodeId) (node : Node K V) : EStateM ε (Scene K V Entry W) NodeId :=
  modifyGet fun s => (s.tree.size, { s with tree := s.tree.append parent node })

theorem run_get (s : Scene K V Entry W) : (get : EStateM ε (Scene K V Entry W) _) s = .ok s s := rfl

theorem run_editTree (f : Tree K V → Tree K V) (s : Scene K V Entry W) :
    (editTree f : EStateM ε _ _) s = .ok () { s with tree := f s.tree } := rfl

end Scene

end FeatureTree
