import FeatureTree.Calculator.Grouping
import FeatureTree.Proofs.Tree.Picture
import Mathlib.Logic.Function.Iterate

/-!
# Bench — grouping as a fold over child lists

While a child list is rebuilt, finished terms lie on a `Bench`: those of the innermost open group, those
around each open group, and perhaps a name that waits for a bracket.  A term is laid at the end of the
innermost list; an operator first closes the groups that bind more tightly and opens the ones that are
missing, each of which takes the last term over.

`Bench.take` says what one node does, brackets with all that they contain, and what it fails with.
-/

namespace FeatureTree
namespace Calculator

open Rebuilding

/-- An expression tree as a value. -/
abbrev ExprTerm : Type := Term (Label ExprKind Literal)

/-- The level of a list inside a number of open groups. -/
def Level.ofDepth : Nat → Level
  | 0 => .additive
  | 1 => .multiplicative
  | _ + 2 => .exponent

namespace Level

theorem rank_le (level : Level) : level.rank ≤ 2 := by
  cases level <;> decide

theorem rank_ofDepth {depth : Nat} (h : depth ≤ 2) : (ofDepth depth).rank = depth := by
  match depth, h with
  | 0, _ => rfl
  | 1, _ => rfl
  | 2, _ => rfl

theorem ofDepth_rank (level : Level) : ofDepth level.rank = level := by
  cases level <;> rfl

theorem tighter?_ofDepth {depth : Nat} (h : depth < 2) :
    (ofDepth depth).tighter? = some (ofDepth (depth + 1)) := by
  match depth, h with
  | 0, _ => rfl
  | 1, _ => rfl

end Level

/-- The label of an open group, which has no span yet. -/
def openLabel (depth : Nat) : Label ExprKind Literal := ⟨.group, some (.level (.ofDepth depth)), none⟩

/-- The label of a group from its first to its last member. -/
def groupLabel (depth : Nat) (members : List ExprTerm) : Label ExprKind Literal where
  kind := .group
  value := some (.level (.ofDepth depth))
  position := Piece.spanOf? (members.head?.bind fun T => T.label.position)
    (members.getLast?.bind fun T => T.label.position)

/-- A child list under construction. -/
structure Bench where
  /-- The terms of the innermost list. -/
  inner : List ExprTerm
  /-- The terms in front of each open group, from the innermost outwards. -/
  outer : List (List ExprTerm)
  /-- A name that waits for a bracket. -/
  name : Option (Label SyntaxKind Literal)

namespace Bench

/-- The bench before the first node. -/
def clear : Bench := ⟨[], [], none⟩

/-- Number of open groups. -/
def depth (b : Bench) : Nat := b.outer.length

/-- Lays a term at the end of the innermost list. -/
def add (T : ExprTerm) (b : Bench) : Bench := { b with inner := b.inner ++ [T] }

/-- Closes the innermost group. -/
def close (b : Bench) : Bench :=
  match b.outer with
  | [] => b
  | around :: outer =>
      { b with inner := around ++ [.branch (groupLabel b.depth b.inner) b.inner], outer }

/-- Opens a group, which takes the last term over. -/
def openGroup (b : Bench) : Bench :=
  { b with inner := b.inner.getLast?.toList, outer := b.inner.dropLast :: b.outer }

/-- Closes the groups tighter than the level, and opens groups up to the level. -/
def turnTo (level : Level) (b : Bench) : Bench :=
  openGroup^[level.rank - b.depth] (close^[b.depth - level.rank] b)

/-- A waiting name becomes a term of its own. -/
def flush (b : Bench) : Bench :=
  match b.name with
  | none => b
  | some name => { b.add (.leaf ⟨.bareName, name.value, name.position⟩) with name := none }

/-- The terms when all groups are closed. -/
def finish (b : Bench) : List ExprTerm := (close^[b.depth] b.flush).inner

/-- The label of a copied bracket, or of the function that a waiting name makes of it. -/
def enclosure (bracket : Label SyntaxKind Literal) (b : Bench) : Label ExprKind Literal :=
  match b.name with
  | none => ⟨.bracket, none, bracket.position⟩
  | some name => ⟨.function, name.value, Piece.spanOf? name.position bracket.position⟩

/-- Lays a bracket or a function with its terms. -/
def enclose (bracket : Label SyntaxKind Literal) (b : Bench) (items : List ExprTerm) : Bench :=
  { b.add (.branch (b.enclosure bracket) items) with name := none }

/-! ## Depths -/

@[simp] theorem depth_add (T : ExprTerm) (b : Bench) : (b.add T).depth = b.depth := rfl

@[simp] theorem depth_close (b : Bench) : b.close.depth = b.depth - 1 := by
  unfold close
  cases h : b.outer with
  | nil => simp [depth, h]
  | cons around outer => simp [depth, h]

@[simp] theorem depth_openGroup (b : Bench) : b.openGroup.depth = b.depth + 1 := rfl

@[simp] theorem depth_iterate_openGroup (n : Nat) (b : Bench) :
    (openGroup^[n] b).depth = b.depth + n := by
  induction n generalizing b with
  | zero => rfl
  | succ n ih =>
      rw [Function.iterate_succ_apply, ih, depth_openGroup]
      omega

@[simp] theorem outer_flush (b : Bench) : b.flush.outer = b.outer := by
  unfold flush
  cases b.name <;> rfl

@[simp] theorem depth_flush (b : Bench) : b.flush.depth = b.depth :=
  congrArg List.length b.outer_flush

@[simp] theorem name_flush (b : Bench) : b.flush.name = none := by
  unfold flush
  cases h : b.name with
  | none => exact h
  | some name => rfl

theorem flush_of_name (b : Bench) (h : b.name = none) : b.flush = b := by
  rw [flush, h]

theorem finish_flush (b : Bench) : b.flush.finish = b.finish := by
  rw [finish, flush_of_name _ b.name_flush, depth_flush]
  rfl

/-- Groups are closed from the innermost outwards. -/
theorem turnTo_close {level : Level} {b : Bench} (h : level.rank < b.depth) :
    b.turnTo level = b.close.turnTo level := by
  have hclose : b.depth - level.rank = b.close.depth - level.rank + 1 := by
    rw [depth_close]
    omega
  have hopen : level.rank - b.depth = level.rank - b.close.depth := by
    rw [depth_close]
    omega
  rw [turnTo, hclose, hopen, Function.iterate_succ_apply]
  rfl

theorem turnTo_open {level : Level} {b : Bench} (h : b.depth ≤ level.rank) :
    b.turnTo level = openGroup^[level.rank - b.depth] b := by
  rw [turnTo, Nat.sub_eq_zero_of_le h]
  rfl

theorem depth_turnTo (level : Level) (b : Bench) : (b.turnTo level).depth = level.rank := by
  rcases Nat.lt_or_ge level.rank b.depth with hlt | hle
  · have hclose : ∀ n (c : Bench), (close^[n] c).depth = c.depth - n := by
      intro n
      induction n with
      | zero => exact fun c => rfl
      | succ n ih =>
          intro c
          rw [Function.iterate_succ_apply, ih, depth_close]
          omega
    rw [turnTo, depth_iterate_openGroup, hclose]
    omega
  · rw [turnTo_open hle, depth_iterate_openGroup]
    omega

theorem turnTo_self {level : Level} {b : Bench} (h : b.depth = level.rank) :
    b.turnTo level = b := by
  rw [turnTo_open (Nat.le_of_eq h), h, Nat.sub_self]
  rfl

/-! ## All terms -/

/-- All terms on the bench, from left to right. -/
def terms (b : Bench) : List ExprTerm := b.outer.reverse.flatten ++ b.inner

theorem terms_add (T : ExprTerm) (b : Bench) : (b.add T).terms = b.terms ++ [T] :=
  (List.append_assoc _ _ _).symm

/-- A group that is opened only takes over the last term. -/
theorem terms_openGroup (b : Bench) : b.openGroup.terms = b.terms := by
  have hinner : b.inner.dropLast ++ b.inner.getLast?.toList = b.inner := by
    rcases List.eq_nil_or_concat b.inner with hnil | ⟨front, T, hconcat⟩
    · rw [hnil]
      rfl
    · rw [hconcat, List.concat_eq_append, List.dropLast_concat, List.getLast?_concat]
      rfl
  calc b.openGroup.terms
      = (b.inner.dropLast :: b.outer).reverse.flatten ++ b.inner.getLast?.toList := rfl
    _ = b.outer.reverse.flatten ++ (b.inner.dropLast ++ b.inner.getLast?.toList) := by simp
    _ = b.terms := by rw [hinner, terms]

/-- A group that is closed stands for its members. -/
theorem terms_close {b : Bench} (h : b.outer ≠ []) : ∃ front, b.terms = front ++ b.inner ∧
    b.close.terms = front ++ [.branch (groupLabel b.depth b.inner) b.inner] := by
  rcases b with ⟨inner, _ | ⟨around, outer⟩, name⟩
  · exact absurd rfl h
  · exact ⟨outer.reverse.flatten ++ around, by simp [terms], (List.append_assoc _ _ _).symm⟩

/-- What closing and opening a group keeps is kept on every level. -/
theorem turnTo_induction {P : Bench → Prop} (level : Level) {b : Bench} (h : P b)
    (hclose : ∀ c : Bench, P c → P c.close) (hopen : ∀ c : Bench, P c → P c.openGroup) :
    P (b.turnTo level) :=
  Function.Iterate.rec P (Function.Iterate.rec P h hclose _) hopen _

theorem name_close (b : Bench) : b.close.name = b.name := by
  rcases b with ⟨inner, _ | ⟨around, outer⟩, name⟩ <;> rfl

theorem name_turnTo (level : Level) (b : Bench) : (b.turnTo level).name = b.name :=
  turnTo_induction (P := fun c => c.name = b.name) level rfl
    (fun c hc => c.name_close.trans hc) fun _ hc => hc

/-- The terms are finished when the bench has turned to the weakest level. -/
theorem terms_turnTo_additive (b : Bench) : (b.flush.turnTo .additive).terms = b.finish := by
  have hfinish : b.finish = (b.flush.turnTo .additive).inner := by
    change b.finish = (openGroup^[0 - b.flush.depth] (close^[b.flush.depth - 0] b.flush)).inner
    rw [Nat.zero_sub, Nat.sub_zero, depth_flush]
    rfl
  have houter : (b.flush.turnTo .additive).outer = [] :=
    List.length_eq_zero_iff.1 (depth_turnTo .additive b.flush)
  rw [terms, houter, hfinish]
  rfl

/-! ## One node -/

variable (limit base : Nat)

/-- There is room for one more frame above the frames of the open groups. -/
def seat (b : Bench) : Except Rebuilding.Error Bench :=
  if limit ≤ base + b.depth then .error (.violation (.depthExceeded limit)) else .ok b

/-- There is room for a bracket, which a waiting name has got already. -/
def seatBracket (b : Bench) : Except Rebuilding.Error Bench :=
  match b.name with
  | none => b.seat limit base
  | some _ => .ok b

/-- A node without children to visit: its id, its place among its siblings, and its label. -/
def takeLeaf (index : Nat) (b : Bench) (id : NodeId) (label : Label SyntaxKind Literal) :
    Except Rebuilding.Error Bench :=
  match label.kind with
  | .number =>
      (b.flush.seat limit base).map (add (.leaf ⟨.number, label.value, label.position⟩))
  | .name => (b.flush.seat limit base).map fun b => { b with name := some label }
  | .operator =>
      match label.value.bind Literal.operator? with
      | none => .error (.unclaimed id index)
      | some op =>
          ((b.flush.turnTo op.level).seat limit base).map
            (add (.leaf ⟨.operator, label.value, label.position⟩))
  | .bracket =>
      (b.seatBracket limit base).bind fun _ =>
        .error (.violation (.invalidRedirect (.leafInput id)))
  | .calculator => .error (.unclaimed id index)

section Leaves

variable {limit base} {index : Nat} {id : NodeId} {op : Operator}
variable (b : Bench) (label : Label SyntaxKind Literal)

theorem takeLeaf_number (h : label.kind = .number) : b.takeLeaf limit base index id label =
    (b.flush.seat limit base).map (add (.leaf ⟨.number, label.value, label.position⟩)) := by
  rw [takeLeaf, h]

theorem takeLeaf_name (h : label.kind = .name) : b.takeLeaf limit base index id label =
    (b.flush.seat limit base).map fun b => { b with name := some label } := by
  rw [takeLeaf, h]

theorem takeLeaf_operator (h : label.kind = .operator)
    (hvalue : label.value.bind Literal.operator? = some op) :
    b.takeLeaf limit base index id label = ((b.flush.turnTo op.level).seat limit base).map
      (add (.leaf ⟨.operator, label.value, label.position⟩)) := by
  simp only [takeLeaf, h, hvalue]

/-- A node of the kind of operators needs an operator. -/
theorem takeLeaf_unmarked (h : label.kind = .operator)
    (hvalue : label.value.bind Literal.operator? = none) :
    b.takeLeaf limit base index id label = .error (.unclaimed id index) := by
  simp only [takeLeaf, h, hvalue]

end Leaves

mutual

/-- One node; a bracket with all nodes inside. -/
def take (base index : Nat) (b : Bench) :
    Term (NodeId × Label SyntaxKind Literal) → Except Rebuilding.Error Bench
  | .leaf (id, label) => b.takeLeaf limit base index id label
  | .branch (id, label) items =>
      if label.kind = .bracket then
        (b.seatBracket limit base).bind fun b =>
          (b.seat limit (base + 1)).bind fun b =>
            (takeAll (base + b.depth + 2) 0 clear items).map fun content =>
              b.enclose label content.finish
      else b.takeLeaf limit base index id label

/-- Several nodes, one after the other. -/
def takeAll (base index : Nat) (b : Bench) :
    List (Term (NodeId × Label SyntaxKind Literal)) → Except Rebuilding.Error Bench
  | [] => .ok b
  | T :: rest => (take base index b T).bind fun b => takeAll base (index + 1) b rest

end

/-! ## Nodes that are taken -/

section Taken

variable {limit base} {index : Nat} {b b' : Bench}

theorem bind_eq_ok {ε α β : Type} {x : Except ε α} {f : α → Except ε β} {z : β}
    (h : x.bind f = .ok z) : ∃ a, x = .ok a ∧ f a = .ok z := by
  cases x with
  | error e => cases h
  | ok a => exact ⟨a, rfl, h⟩

theorem map_eq_ok {ε α β : Type} {x : Except ε α} {f : α → β} {z : β} (h : x.map f = .ok z) :
    ∃ a, x = .ok a ∧ f a = z := by
  cases x with
  | error e => cases h
  | ok a => exact ⟨a, rfl, Except.ok.inj h⟩

theorem eq_of_seat {c c' : Bench} (h : c.seat limit base = .ok c') : c' = c := by
  unfold seat at h
  split at h
  · cases h
  · exact (Except.ok.inj h).symm

theorem eq_of_seatBracket {c c' : Bench} (h : c.seatBracket limit base = .ok c') : c' = c := by
  unfold seatBracket at h
  split at h
  · exact eq_of_seat h
  · exact (Except.ok.inj h).symm

/-- What becomes of the bench when it takes a node without children to visit. -/
inductive TakesLeaf (label : Label SyntaxKind Literal) (b b' : Bench) : Prop where
  | number (kind : label.kind = .number)
      (eq : b' = b.flush.add (.leaf ⟨.number, label.value, label.position⟩))
  | name (kind : label.kind = .name) (eq : b' = { b.flush with name := some label })
  | operator (op : Operator) (kind : label.kind = .operator)
      (value : label.value.bind Literal.operator? = some op)
      (eq : b' = (b.flush.turnTo op.level).add (.leaf ⟨.operator, label.value, label.position⟩))

theorem takeLeaf_eq_ok {id : NodeId} {label : Label SyntaxKind Literal}
    (h : b.takeLeaf limit base index id label = .ok b') : TakesLeaf label b b' := by
  have hseat : ∀ {c c' : Bench} {f : Bench → Bench},
      (c.seat limit base).map f = .ok c' → c' = f c := by
    intro c c' f h
    rcases map_eq_ok h with ⟨c₁, hc, rfl⟩
    rw [eq_of_seat hc]
  cases hkind : label.kind with
  | number =>
      rw [b.takeLeaf_number label hkind] at h
      exact .number hkind (hseat h)
  | name =>
      rw [b.takeLeaf_name label hkind] at h
      exact .name hkind (hseat h)
  | operator =>
      cases hvalue : label.value.bind Literal.operator? with
      | none =>
          rw [b.takeLeaf_unmarked label hkind hvalue] at h
          cases h
      | some op =>
          rw [b.takeLeaf_operator label hkind hvalue] at h
          exact .operator op hkind hvalue (hseat h)
  | bracket =>
      simp only [takeLeaf, hkind] at h
      unfold seatBracket seat at h
      split at h
      · split at h <;> cases h
      · cases h
  | calculator =>
      simp only [takeLeaf, hkind] at h
      cases h

/-- A bracket is laid with what a clear bench makes of the nodes inside. -/
theorem takeBracket_eq_ok {a : NodeId × Label SyntaxKind Literal}
    {inner : List (Term (NodeId × Label SyntaxKind Literal))} (hkind : a.2.kind = .bracket)
    (h : take limit base index b (.branch a inner) = .ok b') :
    ∃ content, takeAll limit (base + b.depth + 2) 0 clear inner = .ok content ∧
      b' = b.enclose a.2 content.finish := by
  rw [take, if_pos hkind] at h
  rcases bind_eq_ok h with ⟨b₁, hseat, hregion⟩
  rcases bind_eq_ok hregion with ⟨b₂, hseat', hmap⟩
  have hb : b₂ = b := (eq_of_seat hseat').trans (eq_of_seatBracket hseat)
  rw [hb] at hmap
  rcases map_eq_ok hmap with ⟨content, hcontent, hlaid⟩
  exact ⟨content, hcontent, hlaid.symm⟩

end Taken

end Bench
end Calculator
end FeatureTree
