import FeatureTree.Json.Value
import FeatureTree.Tree.Term

/-!
# Printer — three written views of a tree

* `Term.render` writes a term on one line.  A leaf is its value, or its kind if it has no value; a branch
  is a pair of brackets around its kind, its value if any, and its children.
* `Term.toJson` makes an object of every node.  Only parents have the member `children`.
* `Term.rows` lists the nodes in pre-order with their depth.
-/

namespace FeatureTree

variable {K V : Type}

/-! ## Positions as JSON -/

/-- The point as an object of its three numbers. -/
def Point.toJson (p : Point) : Json.Value :=
  .object [("line", .ofNat p.line), ("column", .ofNat p.column), ("offset", .ofNat p.offset)]

/-- The span as an object of its two points. -/
def Position.toJson (p : Position) : Json.Value :=
  .object [("start", p.start.toJson), ("end", p.stop.toJson)]

/-! ## How kinds and values are written -/

/-- How a type of kinds or values is written: on one line, and as JSON. -/
class Written (α : Type) where
  /-- The text on one line. -/
  text : α → String
  /-- The JSON value. -/
  json : α → Json.Value

instance : Written String := ⟨id, .string⟩

namespace Term

/-! ## One line -/

def leafText [Written K] [Written V] (label : Label K V) : String :=
  match label.value with
  | some value => Written.text value
  | none => Written.text label.kind

/-- What a branch starts with, after its bracket. -/
def headText [Written K] [Written V] (label : Label K V) : String :=
  match label.value with
  | some value => Written.text label.kind ++ " " ++ Written.text value
  | none => Written.text label.kind

mutual

def render [Written K] [Written V] : Term (Label K V) → String
  | .leaf label => leafText label
  | .branch label children => renderList ("(" ++ headText label) children ++ ")"

/-- The text so far, then the terms, each after a blank. -/
def renderList [Written K] [Written V] (text : String) : List (Term (Label K V)) → String
  | [] => text
  | t :: ts => renderList (text ++ " " ++ render t) ts

end

/-! ## JSON -/

/-- The members that every node may have: its kind, its value and its span. -/
def labelMembers [Written K] [Written V] (label : Label K V) : List (String × Json.Value) :=
  [("type", Written.json label.kind)]
    ++ (label.value.map fun value => ("value", Written.json value)).toList
    ++ (label.position.map fun position => ("position", position.toJson)).toList

mutual

def toJson [Written K] [Written V] : Term (Label K V) → Json.Value
  | .leaf label => .object (labelMembers label)
  | .branch label children =>
      .object (labelMembers label ++ [("children", .array (toJsonList children))])

def toJsonList [Written K] [Written V] : List (Term (Label K V)) → List Json.Value
  | [] => []
  | t :: ts => toJson t :: toJsonList ts

end

theorem toJsonList_eq_map [Written K] [Written V] (ts : List (Term (Label K V))) :
    toJsonList ts = ts.map toJson := by
  induction ts with
  | nil => rfl
  | cons t ts ih => rw [toJsonList, ih, List.map_cons]

/-! ## Rows -/

/-- A node in a list of nodes: how deep it lies, what it shows, and its number of children, which a
leaf does not have. -/
structure Row (α : Type) where
  depth : Nat
  label : α
  childCount : Option Nat
  deriving Repr

mutual

/-- The nodes of a term in pre-order, the topmost at the given depth. -/
def rowsAt {α : Type} (depth : Nat) : Term α → List (Row α)
  | .leaf label => [⟨depth, label, none⟩]
  | .branch label children => ⟨depth, label, some children.length⟩ :: rowsAtList (depth + 1) children

/-- The nodes of several terms in pre-order, their topmost at the given depth. -/
def rowsAtList {α : Type} (depth : Nat) : List (Term α) → List (Row α)
  | [] => []
  | t :: ts => rowsAt depth t ++ rowsAtList depth ts

end

/-- The nodes of a term in pre-order. -/
def rows {α : Type} (t : Term α) : List (Row α) := rowsAt 0 t

end Term

namespace Tree

/-- The tree from its root on one line; nothing if the root has no term. -/
def render [Written K] [Written V] (t : Tree K V) : String :=
  match t.term? root with
  | some term => term.render
  | none => ""

/-- The rows of the tree from its root, with ids. -/
def rows (t : Tree K V) : List (Term.Row (NodeId × Label K V)) :=
  match t.idTerm? root with
  | some term => term.rows
  | none => []

end Tree

end FeatureTree
