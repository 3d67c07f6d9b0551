import FeatureTree.Decimal.Binary64

/-!
# Shortest — the fewest decimal digits that read back

Every finite magnitude is the nearest one for an interval of reals; the ends belong to it exactly when
the significand is even.  `shortest` looks for a decimal in this interval: on the grid of one digit
first, then of two, and so on.  On each grid only the two neighbours of the magnitude need a look.
Of two neighbours in the interval the nearer is taken, and `Tie` settles a draw.

All comparisons are made on whole numbers, in quarters of the unit.
-/

namespace FeatureTree

/-- Which of two equally near neighbours is taken. -/
inductive Tie where
  | up
  | even
  deriving DecidableEq, Repr

/-- The decimal `0.d₁d₂… * 10 ^ point`. -/
structure Decimal where
  digits : List Char
  point : Int
  deriving DecidableEq, Repr

namespace Binary64

/-- A magnitude between the ends of the interval that rounds to it, in quarters of the unit. -/
structure Interval where
  low : Nat
  value : Nat
  high : Nat
  closed : Bool

/-- The interval of a finite ordinal.  Below a power of two the magnitudes lie twice as dense. -/
def interval (ordinal : Nat) : Interval :=
  let m := significand ordinal
  let scale := Nat.pow 2 (shift ordinal)
  let below := if m = Nat.pow 2 fractionBits ∧ 0 < shift ordinal then 1 else 2
  ⟨(4 * m - below) * scale, 4 * m * scale, (4 * m + 2) * scale, m % 2 == 0⟩

/-- Four times the number of units in one. -/
def quarters : Nat := Nat.pow 2 (unitBits + 2)

/-- The number `k` with `10 ^ (k - 1) ≤ num / den < 10 ^ k`. -/
def pointOf (num den : Nat) : Int :=
  if den ≤ num then digitCount (num / den)
  else 1 - digitCount ((den - 1) / num)

/-- The decimal `c * 10 ^ exponent` lies in the interval. -/
def Interval.accepts (i : Interval) (c : Nat) (exponent : Int) : Bool :=
  let candidate := c * Nat.pow 10 exponent.toNat * quarters
  let scale := Nat.pow 10 (-exponent).toNat
  if i.closed then i.low * scale ≤ candidate && candidate ≤ i.high * scale
  else i.low * scale < candidate && candidate < i.high * scale

/-- The lower one of the two neighbours `c * 10 ^ exponent` of the magnitude. -/
def Interval.floor (i : Interval) (exponent : Int) : Nat :=
  i.value * Nat.pow 10 (-exponent).toNat / (Nat.pow 10 exponent.toNat * quarters)

/-- The nearer one of the two neighbours, the lower of which is `c`. -/
def Interval.nearer (i : Interval) (tie : Tie) (c : Nat) (exponent : Int) : Nat :=
  let twice := 2 * (i.value * Nat.pow 10 (-exponent).toNat)
  let middle := (2 * c + 1) * (Nat.pow 10 exponent.toNat * quarters)
  if twice < middle then c
  else if middle < twice then c + 1
  else match tie with
    | .up => c + 1
    | .even => c + c % 2

/-- The neighbour to take on one grid, if one of the two lies in the interval. -/
def Interval.onGrid? (i : Interval) (tie : Tie) (exponent : Int) : Option Nat :=
  let c := i.floor exponent
  match i.accepts c exponent, i.accepts (c + 1) exponent with
  | true, true => some (i.nearer tie c exponent)
  | true, false => some c
  | false, true => some (c + 1)
  | false, false => none

/-- The first hit on the grids of `digits`, `digits + 1`, … digits; on the last grid the lower
neighbour is taken in any case. -/
def Interval.search (i : Interval) (tie : Tie) (point : Int) : (grids digits : Nat) → Nat × Int
  | 0, digits => (i.floor (point - digits), point - digits)
  | grids + 1, digits =>
      match i.onGrid? tie (point - digits) with
      | some c => (c, point - digits)
      | none => i.search tie point grids (digits + 1)

/-- Digits without the zeros at their end. -/
def trimZeros (digits : List Char) : List Char := (digits.reverse.dropWhile (· == '0')).reverse

/-- The shortest decimal of a finite ordinal above zero.  Seventeen digits always suffice. -/
def shortest (tie : Tie) (ordinal : Nat) : Decimal :=
  let i := interval ordinal
  let (c, exponent) := i.search tie (pointOf i.value quarters) 17 1
  let digits := Nat.toDigits 10 c
  ⟨trimZeros digits, exponent + digits.length⟩

end Binary64

end FeatureTree
