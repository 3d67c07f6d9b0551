import FeatureTree.Proofs.Calculator.Grouped
import FeatureTree.Proofs.Rebuilding.Descending
import FeatureTree.Proofs.Rebuilding.Traversals

/-!
# Traversing — grouping goes through every list once

The features of the calculator redirect into the bracket that they are asked about, and into no other
node.  So grouping enters no node of a flat tree twice, and what `Rebuilding` says of such runs holds:
the children of the root and of each bracket that is entered are finished once, and in order.
-/

namespace FeatureTree
namespace Calculator

open Rebuilding

namespace Piece

variable {cx : Place} {node : NodeId} {s s' : Desk} {next : Piece} {target : Redirect Rule}

theorem input_of_placeOperator {op : Operator}
    (h : placeOperator cx node op s = .ok (next, .redirect target) s') : target.input = none := by
  simp only [placeOperator, bind, EStateM.bind, Scene.run_get] at h
  cases hcompare : compare (outputLevel s.tree cx.output) op.level with
  | eq =>
      rw [hcompare] at h
      cases h
  | gt =>
      rw [hcompare] at h
      cases h
  | lt =>
      rw [hcompare] at h
      cases htighter : (outputLevel s.tree cx.output).tighter? with
      | none =>
          simp only [htighter] at h
          cases h
      | some level =>
          simp only [htighter] at h
          cases h
          rfl

theorem input_of_feedOperator {op : Operator} {group : NodeId} {level : Level}
    (h : feedOperator cx node op group level s = .ok (next, .redirect target) s') :
    target.input = none := by
  simp only [feedOperator, bind, EStateM.bind, Scene.run_get] at h
  cases hcompare : compare (outputLevel s.tree cx.output) op.level with
  | eq =>
      rw [hcompare] at h
      cases h
  | gt =>
      rw [hcompare] at h
      cases h
  | lt =>
      rw [hcompare] at h
      -- An operator of the group is copied there, and only a tighter one is handed on.
      by_cases hlevel : level = op.level
      · simp only [if_pos hlevel] at h
        cases h
      · simp only [if_neg hlevel] at h
        cases h
        rfl

/-- An answer redirects to another output node only, or into the child itself. -/
theorem input_of_redirect {feature : Piece}
    (h : handle feature cx node s = .ok (next, .redirect target) s') :
    target.input = none ∨ target.input = some node := by
  cases feature with
  | number =>
      rw [handle] at h
      split at h <;> cases h
  | bracket =>
      rw [handle] at h
      split at h <;> cases h
      exact .inr rfl
  | operator =>
      rw [Site.handle_operator] at h
      cases hop : operator? cx node with
      | none =>
          rw [hop] at h
          cases h
      | some op =>
          rw [hop] at h
          exact .inl (input_of_placeOperator h)
  | placed => cases h
  | grouping group level =>
      rw [Site.handle_grouping] at h
      cases hop : operator? cx node with
      | none =>
          rw [hop] at h
          cases h
          exact .inl rfl
      | some op =>
          rw [hop] at h
          exact .inl (input_of_feedOperator h)
  | settled group => cases h
  | name =>
      rw [handle] at h
      split at h <;> cases h
  | named first =>
      rw [handle] at h
      split at h <;> cases h
      exact .inr rfl
  | applied => cases h

theorem descends : Machine.Descends grammar := by
  intro feature cx node s next target s' hhandle nested hnested
  rcases input_of_redirect hhandle with hnone | hnode
  · rw [hnone] at hnested
    cases hnested
  · exact Option.some.inj (hnested.symm.trans hnode)

end Piece

section Group

variable {t : SyntaxTree} {T : SourceTerm} {limits : Limits} {out : ExprTree}

theorem firstState_eq_initial (t : SyntaxTree) (limits : Limits) :
    firstState t limits =
      Machine.initial { Node.parent .calculator with position := t.rootNode.position } () limits :=
  rfl

/-- Grouping a tree without sharing enters no node twice. -/
theorem group_neverReenters (hT : t.idTerm? Tree.root = some T) (limits : Limits) :
    Machine.NeverReenters Piece.grammar t .expression (firstState t limits) := by
  rw [firstState_eq_initial]
  exact Piece.descends.neverReenters hT _ () limits

/-- A tree that is grouped has been gone through once: all children of the root are finished in order,
and so are those of each bracket that is entered. -/
theorem group_finishesAll (hT : t.idTerm? Tree.root = some T) (h : group t limits = .success out) :
    ∃ n ≤ roundsFor t, Machine.FinishesAll Piece.grammar t .expression
      (Machine.stateAfter Piece.grammar t .expression (firstState t limits)) n := by
  rw [group_eq_run] at h
  split at h
  · next last hrun =>
      rcases Machine.exists_runs_of_success hrun with ⟨n, hn, hruns, hlast, hfinished⟩
      have hnever := group_neverReenters hT limits
      rw [firstState_eq_initial] at hnever hruns
      refine ⟨n, hn, (Machine.orderlyRun_of_runs hnever hruns).finishesAll rfl ?_⟩
      rw [← firstState_eq_initial, hlast]
      exact hfinished
  · cases h
  · cases h

end Group

end Calculator
end FeatureTree
