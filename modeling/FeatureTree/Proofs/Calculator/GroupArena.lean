import FeatureTree.Proofs.Calculator.ReadArena
import FeatureTree.Proofs.Calculator.Traversing
import FeatureTree.Proofs.Rebuilding.Upholding
import FeatureTree.Proofs.Tree.Rooted

/-!
# GroupArena — the arena of the tree that grouping builds

Grouping moves operands: a group takes the last child of the node that it is built under.  Still no node
is ever lost or listed twice, whatever the input tree is and wherever the run stops, because a node is
taken out of a list and put into another one within one call of a feature.

`arenas_are_trees` puts this beside what holds of the tree that reading builds.
-/

namespace FeatureTree
namespace Calculator

open Rebuilding

/-! ## Rooted trees -/

section Trees

variable {t : ExprTree} {output group : NodeId}

theorem size_opened (t : ExprTree) (output : NodeId) (level : Level) :
    (Site.opened t output level).size = t.size + 1 := by
  unfold Site.opened Tree.popChild
  split <;> simp

theorem rooted_opened (h : t.Rooted) (houtput : output < t.size) (level : Level) :
    (Site.opened t output level).Rooted := by
  unfold Site.opened
  cases hlast : t.lastChild? output with
  | some operand => exact h.enclose houtput rfl hlast
  | none =>
      have hsize : (t.popChild output).size = t.size := Tree.size_update t output _
      exact (h.popChild_none houtput hlast).append (hsize ▸ houtput) rfl

theorem size_spanned (t : ExprTree) (group : NodeId) : (Site.spanned t group).size = t.size := by
  unfold Site.spanned
  dsimp only
  split
  · exact Tree.size_update t group _
  · rfl

theorem rooted_spanned (h : t.Rooted) (group : NodeId) : (Site.spanned t group).Rooted := by
  unfold Site.spanned
  dsimp only
  split
  · next position _ =>
      have hf : ∀ n : Node ExprKind Literal,
          ({ n with position := some position } : Node ExprKind Literal).childList = n.childList :=
        fun _ => rfl
      exact h.update hf group
  · exact h

end Trees

/-! ## What the features leave behind -/

namespace Piece

/-- The features change the output in three ways: they add a node without children that is no group, they
open a group one level tighter than the node around it, and they span a group. -/
structure Maintained (P : ExprTree → Prop) : Prop where
  append : ∀ {t : ExprTree} {parent : NodeId} {node : Node ExprKind Literal}, P t → parent < t.size →
    node.childList = [] → node.kind ≠ .group → P (t.append parent node)
  opened : ∀ {t : ExprTree} {output : NodeId} {level : Level}, P t → output < t.size →
    (outputLevel t output).tighter? = some level → P (Site.opened t output level)
  spanned : ∀ {t : ExprTree} (group : NodeId), P t → P (Site.spanned t group)

theorem maintained_rooted : Maintained Tree.Rooted where
  append h hparent hnode _ := h.append hparent hnode
  opened h houtput _ := rooted_opened h houtput _
  spanned group h := rooted_spanned h group

variable {P : ExprTree → Prop} {s : Desk} {cx : Place} {node : NodeId} {α β : Type} {size : Nat}

/-- What a call leaves behind: a property of the tree, and no rejection. -/
abbrev LeavesTree (P : ExprTree → Prop) (size : Nat) (Q : α → Nat → Prop) :
    EStateM.Result Rebuilding.Error Desk α → Prop :=
  Leaves P (fun e => e.isRejection = false) size Q

/-- The group that a feature feeds is in the arena. -/
def Valid (size : Nat) : Piece → Prop
  | grouping group _ => group < size
  | settled group => group < size
  | _ => True

theorem Valid.grow {size' : Nat} {f : Piece} (hsize : size ≤ size') (h : Valid size f) :
    Valid size' f := by
  cases f with
  | grouping group level => exact Nat.lt_of_lt_of_le h hsize
  | settled group => exact Nat.lt_of_lt_of_le h hsize
  | _ => trivial

theorem valid_of_mem_candidates {f : Piece} {kind : SyntaxKind} (h : f ∈ candidates kind)
    (size : Nat) : Valid size f := by
  cases kind with
  | calculator => cases h
  | _ =>
      obtain rfl := List.mem_singleton.1 h
      trivial

/-- An answer that leaves the tree as it is. -/
theorem leaves_pure {a : α} {Q : α → Nat → Prop} (h : P s.tree) (hQ : Q a s.tree.size) :
    LeavesTree P s.tree.size Q (.ok a s) :=
  ⟨h, Nat.le_refl _, hQ⟩

section Calls

variable (hP : Maintained P)
include hP

/-- An answer after a node has been added. -/
theorem leaves_append {a : α} {Q : α → Nat → Prop} {parent : NodeId}
    {added : Node ExprKind Literal} (h : P s.tree) (hparent : parent < s.tree.size)
    (hadded : added.childList = []) (hkind : added.kind ≠ .group) (hQ : Q a (s.tree.size + 1)) :
    LeavesTree P s.tree.size Q (.ok a { s with tree := s.tree.append parent added }) := by
  refine ⟨hP.append h hparent hadded hkind, ?_, ?_⟩
  · rw [Tree.size_append]
    exact Nat.le_succ _
  · rw [Tree.size_append]
    exact hQ

theorem leaves_placeOperator {op : Operator} (h : P s.tree) (hcx : cx.output < s.tree.size) :
    LeavesTree P s.tree.size (fun answer size => Valid size answer.1)
      (placeOperator cx node op s) := by
  simp only [placeOperator, bind, EStateM.bind, Scene.run_get]
  cases compare (outputLevel s.tree cx.output) op.level with
  | eq => exact leaves_append hP h hcx rfl (show ExprKind.operator ≠ .group by decide) trivial
  | gt => exact leaves_pure h trivial
  | lt =>
      cases htighter : (outputLevel s.tree cx.output).tighter? with
      | none => exact leaves_pure h trivial
      | some level =>
          refine ⟨hP.opened h hcx htighter, ?_, ?_⟩
          · exact Nat.le_trans (Nat.le_succ _) (Nat.le_of_eq (size_opened s.tree cx.output level).symm)
          · exact Nat.lt_of_lt_of_eq (Nat.lt_succ_self _) (size_opened s.tree cx.output level).symm

theorem leaves_feedOperator {op : Operator} {group : NodeId} {level : Level} (h : P s.tree)
    (hgroup : group < s.tree.size) (hcx : cx.output < s.tree.size) :
    LeavesTree P s.tree.size (fun answer size => Valid size answer.1)
      (feedOperator cx node op group level s) := by
  have hkind : ExprKind.operator ≠ .group := by decide
  simp only [feedOperator, bind, EStateM.bind, Scene.run_get]
  cases compare (outputLevel s.tree cx.output) op.level with
  | eq => exact leaves_append hP h hcx rfl hkind (Nat.lt_succ_of_lt hgroup)
  | gt => exact leaves_pure h hgroup
  | lt =>
      split
      · exact leaves_append hP h hgroup rfl hkind (Nat.lt_succ_of_lt hgroup)
      · exact leaves_pure h hgroup

theorem leaves_handle (feature : Piece) (h : P s.tree) (hvalid : Valid s.tree.size feature)
    (hcx : cx.output < s.tree.size) :
    LeavesTree P s.tree.size (fun answer size => Valid size answer.1)
      (handle feature cx node s) := by
  cases feature with
  | number =>
      unfold handle
      dsimp only
      split
      · exact leaves_append hP h hcx rfl (show ExprKind.number ≠ .group by decide) trivial
      · exact leaves_pure h trivial
  | bracket =>
      unfold handle
      dsimp only
      split
      · exact leaves_append hP h hcx rfl (show ExprKind.bracket ≠ .group by decide) trivial
      · exact leaves_pure h trivial
  | operator =>
      rw [Site.handle_operator]
      split
      · exact leaves_pure h trivial
      · exact leaves_placeOperator hP h hcx
  | placed => exact leaves_pure h trivial
  | grouping group level =>
      rw [Site.handle_grouping]
      split
      · exact leaves_pure h hvalid
      · exact leaves_feedOperator hP h hvalid hcx
  | settled group => exact leaves_pure h hvalid
  | name =>
      unfold handle
      dsimp only
      split
      · exact leaves_pure h trivial
      · exact leaves_pure h trivial
  | named first =>
      unfold handle
      dsimp only
      split
      · exact leaves_append hP h hcx rfl (show ExprKind.function ≠ .group by decide) trivial
      · exact leaves_pure h trivial
  | applied => exact leaves_pure h trivial

theorem leaves_exit (feature : Piece) (h : P s.tree) (hcx : cx.output < s.tree.size) :
    LeavesTree P s.tree.size (fun _ _ => True) (exit feature cx s) := by
  have hspan : ∀ group, LeavesTree P s.tree.size (fun _ _ => True) (spanGroup group s) :=
    fun group => ⟨hP.spanned group h, Nat.le_of_eq (size_spanned s.tree group).symm, trivial⟩
  cases feature with
  | grouping group level => exact hspan group
  | settled group => exact hspan group
  | named first =>
      exact leaves_append hP h hcx rfl (show ExprKind.bareName ≠ .group by decide) trivial
  | _ => exact leaves_pure h trivial

/-- The grouping grammar keeps what its three kinds of changes keep, and rejects nothing. -/
theorem upholds : grammar.Upholds P Valid (fun e => e.isRejection = false) where
  grow := Valid.grow
  dispatch _ cx node s feature hfeature := by
    change feature ∈ ((kind? cx node).map candidates).getD [] at hfeature
    cases hkind : kind? cx node with
    | none =>
        rw [hkind] at hfeature
        cases hfeature
    | some kind =>
        rw [hkind] at hfeature
        exact valid_of_mem_candidates hfeature _
  handle feature _ _ _ h hvalid hcx := leaves_handle hP feature h hvalid hcx
  exit feature _ _ h _ hcx := leaves_exit hP feature h hcx
  violation _ := rfl
  unclaimed _ _ := rfl

end Calls

/-- The grouping grammar keeps its output rooted. -/
theorem upholds_rooted :
    grammar.Upholds Tree.Rooted Valid (fun e => e.isRejection = false) :=
  upholds maintained_rooted

end Piece

/-! ## The tree of a run -/

/-- The output tree after at most the given number of rounds of grouping. -/
def groupTree (t : SyntaxTree) (limits : Limits) (rounds : Nat) : ExprTree :=
  let rebuilder := (Grouper.new t limits).updateRoot fun n =>
    { n with position := t.rootNode.position }
  { rebuilder with rounds := rounds }.rebuild.2.tree

theorem groupTree_eq (t : SyntaxTree) (limits : Limits) (rounds : Nat) :
    groupTree t limits rounds =
      (Machine.run Piece.grammar t .expression rounds (firstState t limits)).2.tree := by
  unfold groupTree Rebuilder.rebuild firstState
  simp only [Grouper.new, Rebuilder.new, Rebuilder.updateRoot]
  generalize Machine.run _ _ _ _ _ = r
  rcases r with ⟨outcome, m⟩
  cases outcome <;> rfl

theorem groupTree_of_group {t : SyntaxTree} {limits : Limits} {out : ExprTree}
    (h : group t limits = .success out) : groupTree t limits (roundsFor t) = out := by
  rw [group_eq_run] at h
  rw [groupTree_eq]
  split at h
  · next last hrun =>
      obtain rfl := Outcome.success.inj h
      rw [hrun]
  · cases h
  · cases h

theorem upheld_firstState (t : SyntaxTree) (limits : Limits) :
    Machine.Upheld Tree.Rooted Piece.Valid (firstState t limits) := by
  rw [firstState_eq_initial]
  exact Machine.upheld_initial (Tree.Rooted.singleton rfl)

/-- Grouping rejects no tree. -/
theorem group_not_isRejection {t : SyntaxTree} {limits : Limits} {e : Rebuilding.Error}
    (h : group t limits = .failure e) : e.isRejection = false := by
  have hrun := ((upheld_firstState t limits).run Piece.upholds_rooted t .expression (roundsFor t)).2
  rw [group_eq_run] at h
  split at h
  · cases h
  · next e' m hresult =>
      obtain rfl := Outcome.failure.inj h
      exact hrun e' (by rw [hresult])
  · cases h

/-- The arenas of the calculator are trees.  What reading leaves behind, after a success and after a
failure, has one detached minus for each number with a sign and is a tree otherwise.  What grouping
leaves behind, wherever it stops, has no detached node: every node but the root is listed exactly once,
and the walk from the root meets all of them. -/
theorem arenas_are_trees :
    (∀ (text : SourceText) (limits : Limits), FlatArena text (readTree text limits)) ∧
      ∀ (t : SyntaxTree) (limits : Limits) (rounds : Nat),
        (groupTree t limits rounds).Rooted ∧
          (∀ id, ¬ (groupTree t limits rounds).Below id id) ∧
          (groupTree t limits rounds).size =
            (Tree.root :: (groupTree t limits rounds).descendants Tree.root).length := by
  refine ⟨readTree_flatArena, fun t limits rounds => ?_⟩
  have hrooted : (groupTree t limits rounds).Rooted := by
    rw [groupTree_eq]
    exact ((upheld_firstState t limits).run Piece.upholds_rooted t .expression rounds).1
  exact ⟨hrooted, hrooted.acyclic, hrooted.size_eq⟩

end Calculator
end FeatureTree
