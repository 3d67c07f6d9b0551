import FeatureTree.Proofs.Calculator.Bench
import FeatureTree.Proofs.Calculator.Parse

/-!
# Precedence — grouping by cutting at operators

The reference for operator precedence, without any machine or bench.  A list of operands and operators
is cut at its additive operators, each segment of several terms is cut at its multiplicative operators
and becomes one group, and in there each segment with an exponent operator becomes one group.

`finish_lay_alternating` says that a bench on which such a list is laid from left to right shows these
groups.
-/

namespace FeatureTree
namespace Calculator

/-! ## Cutting -/

/-- The level of an operator; other terms have none. -/
def levelOf? (T : ExprTerm) : Option Level :=
  if T.label.kind = .operator then (T.label.value.bind Literal.operator?).map Operator.level else none

/-- The terms up to the first operator of a level, and each such operator with the terms behind it. -/
def cut (level : Level) : List ExprTerm → List ExprTerm × List (ExprTerm × List ExprTerm)
  | [] => ([], [])
  | T :: rest =>
      if levelOf? T = some level then ([], (T, (cut level rest).1) :: (cut level rest).2)
      else (T :: (cut level rest).1, (cut level rest).2)

/-- The operators of a list that was cut, each with what becomes of the segment behind it. -/
def rejoin (part : List ExprTerm → List ExprTerm) (segments : List (ExprTerm × List ExprTerm)) :
    List ExprTerm :=
  segments.flatMap fun s => s.1 :: part s.2

/-- A list that was cut, with what becomes of each segment. -/
def join (part : List ExprTerm → List ExprTerm)
    (segments : List ExprTerm × List (ExprTerm × List ExprTerm)) : List ExprTerm :=
  part segments.1 ++ rejoin part segments.2

/-- The group of the members. -/
def groupOf (depth : Nat) (members : List ExprTerm) : ExprTerm :=
  .branch (groupLabel depth members) members

/-- A segment between multiplicative operators: one group, if it has an exponent operator. -/
def exponentPart (segment : List ExprTerm) : List ExprTerm :=
  if segment.any fun T => levelOf? T == some .exponent then [groupOf 2 segment] else segment

/-- A segment between additive operators: one group, if it is more than one operand. -/
def multiplicativePart (segment : List ExprTerm) : List ExprTerm :=
  if segment.length ≤ 1 then segment
  else [groupOf 1 (join exponentPart (cut .multiplicative segment))]

/-- The terms with their operators grouped by level. -/
def grouped (items : List ExprTerm) : List ExprTerm :=
  join multiplicativePart (cut .additive items)

/-! ### Lists that alternate -/

/-- An operand, and operators each with the operand behind it. -/
def alternating (operand : ExprTerm) (more : List (ExprTerm × ExprTerm)) : List ExprTerm :=
  operand :: more.flatMap fun p => [p.1, p.2]

variable {level : Level} {T u : ExprTerm} {rest seg : List ExprTerm}
variable {more : List (ExprTerm × ExprTerm)}

@[simp] theorem cut_nil (level : Level) : cut level [] = ([], []) := rfl

theorem cut_operator (h : levelOf? T = some level) :
    cut level (T :: rest) = ([], (T, (cut level rest).1) :: (cut level rest).2) := by
  rw [cut, if_pos h]

theorem cut_other (h : levelOf? T ≠ some level) :
    cut level (T :: rest) = (T :: (cut level rest).1, (cut level rest).2) := by
  rw [cut, if_neg h]

theorem cut_operand (h : levelOf? T = none) :
    cut level (T :: rest) = (T :: (cut level rest).1, (cut level rest).2) :=
  cut_other (h ▸ fun heq => nomatch heq)

theorem exponentPart_operand (h : levelOf? u = none) : exponentPart [u] = [u] := by
  simp [exponentPart, h]

theorem exponentPart_power (h : levelOf? T = some .exponent) :
    exponentPart (u :: T :: rest) = [groupOf 2 (u :: T :: rest)] := by
  simp [exponentPart, h]

theorem multiplicativePart_product :
    multiplicativePart (u :: T :: rest) =
      [groupOf 1 (join exponentPart (cut .multiplicative (u :: T :: rest)))] := by
  simp [multiplicativePart]

/-! ## The bench -/

/-- Lays a term on the bench; an operator turns to its level first. -/
def Bench.lay (b : Bench) (T : ExprTerm) : Bench :=
  match levelOf? T with
  | some level => (b.turnTo level).add T
  | none => b.add T

/-- The lists under construction in front of an operand, by the groups that are open there. -/
inductive Stage where
  | flat (done : List ExprTerm)
  | product (done members : List ExprTerm)
  | power (done members factors : List ExprTerm)

namespace Stage

/-- The bench with an operand at the end of the innermost list. -/
def bench (operand : ExprTerm) : Stage → Bench
  | flat done => ⟨done ++ [operand], [], none⟩
  | product done members => ⟨members ++ [operand], [done], none⟩
  | power done members factors => ⟨factors ++ [operand], [members, done], none⟩

/-- The stage in front of the next operand, when an operator of a level follows an operand. -/
def next (operand operator : ExprTerm) : Level → Stage → Stage
  | .additive, flat done => flat (done ++ [operand, operator])
  | .additive, product done members =>
      flat (done ++ [groupOf 1 (members ++ [operand]), operator])
  | .additive, power done members factors =>
      flat (done ++ [groupOf 1 (members ++ [groupOf 2 (factors ++ [operand])]), operator])
  | .multiplicative, flat done => product done [operand, operator]
  | .multiplicative, product done members => product done (members ++ [operand, operator])
  | .multiplicative, power done members factors =>
      product done (members ++ [groupOf 2 (factors ++ [operand]), operator])
  | .exponent, flat done => power done [] [operand, operator]
  | .exponent, product done members => power done members [operand, operator]
  | .exponent, power done members factors => power done members (factors ++ [operand, operator])

/-- What cutting makes of the rest of the list, behind what is under construction. -/
def result (items : List ExprTerm) : Stage → List ExprTerm
  | flat done => done ++ grouped items
  | product done members =>
      let segments := cut .additive items
      done ++ groupOf 1 (members ++ join exponentPart (cut .multiplicative segments.1)) ::
        rejoin multiplicativePart segments.2
  | power done members factors =>
      let segments := cut .additive items
      let parts := cut .multiplicative segments.1
      done ++ groupOf 1 (members ++ groupOf 2 (factors ++ parts.1) :: rejoin exponentPart parts.2) ::
        rejoin multiplicativePart segments.2

variable {o : ExprTerm} {items : List ExprTerm} (stage : Stage)

theorem result_operand (hu : levelOf? u = none) :
    stage.result [u] = (stage.bench u).finish := by
  cases stage with
  | flat done =>
      simp [result, grouped, cut_operand hu, join, rejoin, multiplicativePart]
      rfl
  | product done members =>
      simp [result, cut_operand hu, join, rejoin, exponentPart_operand hu]
      rfl
  | power done members factors =>
      simp [result, cut_operand hu, rejoin]
      rfl

/-- Cutting goes on behind an operator as it does in front of it. -/
theorem result_next (hu : levelOf? u = none) (ho : levelOf? o = some level) :
    stage.result (u :: o :: items) = (stage.next u o level).result items := by
  -- An operator is a cut on its own level, and no cut on the levels around it.
  have hother : ∀ l, l ≠ level → levelOf? o ≠ some l := by
    intro l hl heq
    rw [ho] at heq
    exact hl (Option.some.inj heq).symm
  cases level with
  | additive =>
      cases stage <;>
        simp [next, result, grouped, cut_operand hu, cut_operator ho, join, rejoin,
          multiplicativePart, exponentPart_operand hu]
  | multiplicative =>
      have hadditive := hother .additive (by decide)
      cases stage <;>
        simp [next, result, grouped, cut_operand hu, cut_operator ho, cut_other hadditive, join,
          rejoin, multiplicativePart_product, exponentPart_operand hu]
  | exponent =>
      have hadditive := hother .additive (by decide)
      have hmultiplicative := hother .multiplicative (by decide)
      cases stage <;>
        simp [next, result, grouped, cut_operand hu, cut_other hadditive,
          cut_other hmultiplicative, join, rejoin, multiplicativePart_product,
          exponentPart_power ho]

/-- An operator and an operand, laid on the bench. -/
theorem lay_next {u' : ExprTerm} (ho : levelOf? o = some level) (hu' : levelOf? u' = none) :
    ((stage.bench u).lay o).lay u' = (stage.next u o level).bench u' := by
  rw [Bench.lay, Bench.lay, hu', ho]
  cases stage <;> cases level <;>
    simp [bench, next, Bench.turnTo, Bench.close, Bench.openGroup, Bench.add, Bench.depth,
      Level.rank, groupOf]

/-- A list that alternates, laid on the bench from left to right, is grouped as by cutting. -/
theorem finish_lay (hmore : ∀ q ∈ more, (levelOf? q.1).isSome ∧ levelOf? q.2 = none)
    (hu : levelOf? u = none) :
    ((more.flatMap fun q => [q.1, q.2]).foldl Bench.lay (stage.bench u)).finish =
      stage.result (alternating u more) := by
  -- Each operator moves the stage on, and the bench and the result move with it.
  induction more generalizing stage u with
  | nil => exact (stage.result_operand hu).symm
  | cons q more ih =>
      rcases q with ⟨o, u'⟩
      rcases hmore (o, u') List.mem_cons_self with ⟨hsome, hu'⟩
      rcases Option.isSome_iff_exists.1 hsome with ⟨level, ho⟩
      have hrest := ih (stage.next u o level) (fun q hq => hmore q (List.mem_cons_of_mem _ hq)) hu'
      have hlay := stage.lay_next (u := u) ho hu'
      calc ((((o, u') :: more).flatMap fun q => [q.1, q.2]).foldl Bench.lay (stage.bench u)).finish
          = ((more.flatMap fun q => [q.1, q.2]).foldl Bench.lay
              (((stage.bench u).lay o).lay u')).finish := rfl
        _ = ((more.flatMap fun q => [q.1, q.2]).foldl Bench.lay
              ((stage.next u o level).bench u')).finish := by rw [hlay]
        _ = (stage.next u o level).result (alternating u' more) := hrest
        _ = stage.result (u :: o :: alternating u' more) := (stage.result_next hu ho).symm

end Stage

/-- Laid on a clear bench, a list that alternates is grouped as by cutting. -/
theorem finish_lay_alternating (hmore : ∀ q ∈ more, (levelOf? q.1).isSome ∧ levelOf? q.2 = none)
    (hu : levelOf? u = none) :
    ((alternating u more).foldl Bench.lay .clear).finish = grouped (alternating u more) := by
  have hlay : Bench.lay .clear u = (Stage.flat []).bench u := by
    rw [Bench.lay, hu]
    rfl
  have hfinish := (Stage.flat []).finish_lay hmore hu
  rw [← hlay] at hfinish
  exact hfinish

end Calculator
end FeatureTree
