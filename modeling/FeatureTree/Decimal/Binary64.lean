/-!
# Binary64 — binary floating point numbers of 64 bits

A number is a sign and an ordinal.  The ordinal counts the magnitudes in increasing order: zero first,
then the subnormal and the normal ones, then infinity; all greater ordinals stand for no number.  Read
as bits, a number is its sign bit followed by the 63 bits of its ordinal.

A finite magnitude is `significand * 2 ^ shift` units, where one unit is the least positive magnitude,
`2 ^ -1074`.  `roundRatio` gives the nearest magnitude to a fraction, and the even one of two that are
equally near.
-/

namespace FeatureTree

/-- A binary floating point number. -/
structure Binary64 where
  negative : Bool
  ordinal : Nat
  deriving DecidableEq, Repr

namespace Binary64

/-! ## Magnitudes -/

/-- Number of bits of the fraction. -/
def fractionBits : Nat := 52

def infinityOrdinal : Nat := 2047 * Nat.pow 2 fractionBits

/-- Exponent of the unit, with its sign reversed. -/
def unitBits : Nat := 1074

/-- How far the significand of a finite ordinal is shifted. -/
def shift (ordinal : Nat) : Nat := ordinal / Nat.pow 2 fractionBits - 1

def significand (ordinal : Nat) : Nat :=
  if ordinal < Nat.pow 2 fractionBits then ordinal
  else ordinal % Nat.pow 2 fractionBits + Nat.pow 2 fractionBits

def zero (negative : Bool) : Binary64 := ⟨negative, 0⟩

def infinity (negative : Bool) : Binary64 := ⟨negative, infinityOrdinal⟩

/-- The usual representative of what is no number. -/
def nan (negative : Bool) : Binary64 := ⟨negative, infinityOrdinal + Nat.pow 2 (fractionBits - 1)⟩

/-- The ordinal stands for no number. -/
def isNaN (x : Binary64) : Bool := infinityOrdinal < x.ordinal

/-- The ordinal stands for a finite number. -/
def isFinite (x : Binary64) : Bool := x.ordinal < infinityOrdinal

def neg (x : Binary64) : Binary64 := { x with negative := !x.negative }

/-- Equality of numbers: the two zeros are equal, and what is no number equals nothing. -/
def equal (x y : Binary64) : Bool :=
  !x.isNaN && !y.isNaN && (x == y || (x.ordinal == 0 && y.ordinal == 0))

def bits (x : Binary64) : Nat := (if x.negative then Nat.pow 2 63 else 0) + x.ordinal

/-! ## Rounding -/

/-- The whole number nearest to a fraction, and the even one of two that are equally near. -/
def roundHalfEven (num den : Nat) : Nat :=
  let q := num / den
  let r := num % den
  if 2 * r < den then q
  else if den < 2 * r then q + 1
  else q + q % 2

def bitLength (n : Nat) : Nat := if n = 0 then 0 else n.log2 + 1

/-- The ordinal of the magnitude nearest to a fraction; a fraction beyond the finite magnitudes goes
to infinity.  A significand that is rounded up to a power of two carries into the next ordinal. -/
def roundRatio (num den : Nat) : Nat :=
  let units := num * Nat.pow 2 unitBits
  let shift := bitLength (units / den) - (fractionBits + 1)
  min infinityOrdinal (shift * Nat.pow 2 fractionBits + roundHalfEven units (den * Nat.pow 2 shift))

/-- Number of decimal digits; zero has one. -/
def digitCount (n : Nat) : Nat := (Nat.toDigits 10 n).length

/-- The ordinal nearest to `digits * 10 ^ exponent`.  Values of more than 310 places are beyond the
finite magnitudes, and values that start after 330 zeros are nearer to zero than to any other. -/
def roundDecimal (digits : Nat) (exponent : Int) : Nat :=
  if digits = 0 then 0
  else
    let places := digitCount digits + exponent
    if 310 < places then infinityOrdinal
    else if places < -330 then 0
    else if 0 ≤ exponent then roundRatio (digits * Nat.pow 10 exponent.toNat) 1
    else roundRatio digits (Nat.pow 10 (-exponent).toNat)

end Binary64

end FeatureTree
