/-!
# Violation — ways to break the rules of nesting

A violation ends a run for good: active features are dropped, and the engine refuses to work again.
-/

namespace FeatureTree

/-- Why a redirection leads nowhere. -/
inductive BadTarget where
  /-- The ancestor is not a node of the tree. -/
  | ancestor (id : Nat)
  /-- The output node is not a node of the output tree. -/
  | output (id : Nat)
  /-- The input node is a leaf. -/
  | leafInput (id : Nat)
  /-- The input node is not a node of the input tree. -/
  | input (id : Nat)
  /-- Any other reason, in words. -/
  | other (reason : String)
  deriving DecidableEq, Repr

def BadTarget.reason : BadTarget → String
  | ancestor id => "ancestor " ++ toString id ++ " is not part of the tree"
  | output id => "output node " ++ toString id ++ " is not part of the output tree"
  | leafInput id => "input node " ++ toString id ++ " has no children"
  | input id => "input node " ++ toString id ++ " is not part of the input tree"
  | other reason => reason

/-- A broken rule. -/
inductive Violation where
  /-- A live frame was released below the top one. -/
  | notTop (frame top : Nat)
  /-- A frame was released again. -/
  | alreadyReleased (frame : Nat)
  /-- A frame of this number was never pushed. -/
  | unknownFrame (frame : Nat)
  /-- A redirection names a node that cannot receive it. -/
  | invalidRedirect (target : BadTarget)
  /-- One more frame would pass the limit. -/
  | depthExceeded (maxDepth : Nat)
  /-- The engine failed before. -/
  | poisoned
  deriving DecidableEq, Repr

def Violation.message : Violation → String
  | notTop frame top =>
      "frame " ++ toString frame ++ " is not the top of the feature stack (top is "
        ++ toString top ++ ")"
  | alreadyReleased frame => "frame " ++ toString frame ++ " was already released"
  | unknownFrame frame => "frame " ++ toString frame ++ " was never pushed on this stack"
  | invalidRedirect target => "invalid redirect target: " ++ target.reason
  | depthExceeded maxDepth =>
      "feature stack exceeded the maximum depth of " ++ toString maxDepth
  | poisoned => "engine is poisoned by an earlier failure"

end FeatureTree
