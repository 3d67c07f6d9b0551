import FeatureTree.Decimal.Shortest

/-!
# Layout — where the point and the exponent go

A `Layout` decides how the digits of a decimal are set: within a range of point positions all places
are written out, beyond it one digit stands before the point and an exponent follows.
-/

namespace FeatureTree

/-- Decisions of a number format. -/
structure Layout where
  /-- Places are written out for points above the first and up to the second bound; always, if there
  are no bounds. -/
  plain : Option (Int × Int)
  /-- What follows a whole number that is written out. -/
  wholeEnd : String
  /-- Which of two equally short and equally near decimals is taken. -/
  tie : Tie

namespace Layout

/-- All places, and nothing behind a whole number. -/
def places : Layout := ⟨none, "", .up⟩

/-- The form of numbers in JSON: it always shows a point or an exponent. -/
def json : Layout := ⟨some (-5, 16), ".0", .even⟩

def zeros (n : Nat) : String := "".pushn '0' n

def plainText (layout : Layout) (d : Decimal) : String :=
  if d.point ≤ 0 then "0." ++ zeros (-d.point).toNat ++ String.ofList d.digits
  else
    let before := d.point.toNat
    if d.digits.length ≤ before then
      String.ofList d.digits ++ zeros (before - d.digits.length) ++ layout.wholeEnd
    else String.ofList (d.digits.take before) ++ "." ++ String.ofList (d.digits.drop before)

/-- The decimal with an exponent, whose sign is always written. -/
def exponentText (d : Decimal) : String :=
  let exponent := d.point - 1
  let sign := if 0 ≤ exponent then "e+" else "e-"
  match d.digits with
  | [] => "0"
  | [digit] => digit.toString ++ sign ++ toString exponent.natAbs
  | digit :: rest => digit.toString ++ "." ++ String.ofList rest ++ sign ++ toString exponent.natAbs

def decimalText (layout : Layout) (d : Decimal) : String :=
  match layout.plain with
  | none => layout.plainText d
  | some (low, high) =>
      if low < d.point ∧ d.point ≤ high then layout.plainText d else exponentText d

def text (layout : Layout) (x : Binary64) : String :=
  (if x.negative then "-" else "") ++
    if x.ordinal = 0 then "0" ++ layout.wholeEnd
    else layout.decimalText (Binary64.shortest layout.tie x.ordinal)

end Layout

namespace Binary64

/-- The number with all its places; words for what is not finite. -/
def display (x : Binary64) : String :=
  if x.isNaN then "NaN"
  else if x.isFinite then Layout.places.text x
  else if x.negative then "-inf"
  else "inf"

end Binary64

end FeatureTree
