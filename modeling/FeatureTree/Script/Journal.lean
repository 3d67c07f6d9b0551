/-!
# Journal — what scripted features leave behind

Features whose behaviour is given by rule tables keep a journal: the entries in order, and the number of
times a feature was asked.  A run that asks too often is rejected, so every scripted run ends.
-/

namespace FeatureTree
namespace Script

/-- Number of times that features of one run may be asked. -/
def callLimit : Nat := 400

/-- What is said when features are asked once more. -/
def limitMessage : String := "step limit"

/-- Entries, the latest last, and how often a feature was asked. -/
structure Journal (α : Type) where
  entries : Array α
  calls : Nat

namespace Journal

variable {α : Type}

def empty : Journal α := ⟨#[], 0⟩

def record (j : Journal α) (entry : α) : Journal α := { j with entries := j.entries.push entry }

def count (j : Journal α) : Journal α := { j with calls := j.calls + 1 }

def isExhausted (j : Journal α) : Bool := callLimit < j.calls

end Journal

/-- The only entry of a scripted bag: a whole number. -/
inductive BagKey where
  | tally
  deriving DecidableEq, Repr

/-- What a scripted bag stores. -/
abbrev BagEntry : BagKey → Type := fun _ => Int

/-- The value of the first pair with the given name. -/
def lookup? (name : String) : List (String × α) → Option α
  | [] => none
  | (key, value) :: rest => if key = name then some value else lookup? name rest

end Script
end FeatureTree
