/-!
# Step — what a feature answers

A feature is a small state machine that claims a run of input.  It answers each element with a `Step`.
-/

namespace FeatureTree

/-- The answer of a feature to one element; `R` says where a redirection leads. -/
inductive Step (R : Type) where
  /-- The element is used up, and the feature stays active. -/
  | proceed
  /-- The element does not belong to the feature: it is left, and the element is tried elsewhere. -/
  | decline
  /-- The feature rests while other features are tried on the same element. -/
  | redirect (target : R)
  deriving DecidableEq, Repr

namespace Step

variable {R : Type}

/-- The element is used up. -/
def isProceed : Step R → Bool
  | proceed => true
  | _ => false

/-- The element is handed back. -/
def isDecline : Step R → Bool
  | decline => true
  | _ => false

/-- The element is handed on. -/
def isRedirect : Step R → Bool
  | redirect _ => true
  | _ => false

/-- A candidate becomes active with every answer but a refusal. -/
def claims (s : Step R) : Bool := !s.isDecline

/-- The answer of a feature that only tells whether it used the element. -/
def ofBool (used : Bool) : Step R := if used then proceed else decline

end Step

end FeatureTree
