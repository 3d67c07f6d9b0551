import FeatureTree.Decimal.Binary64

/-!
# Reading — numbers from decimal text

A number is an optional sign followed by digits with at most one point among, before or behind them,
and an optional exponent; or by one of the words `inf`, `infinity` and `nan` in any case.  The text is
read exactly and rounded once.
-/

namespace FeatureTree
namespace Binary64

/-- Value of decimal digits, the highest first. -/
def natOfDigits (digits : List Char) : Nat :=
  digits.foldl (fun n c => n * 10 + (c.toNat - '0'.toNat)) 0

/-- One or more digits and nothing else. -/
def digits? (text : List Char) : Option Nat :=
  if text.isEmpty || !text.all Char.isDigit then none else some (natOfDigits text)

/-- The number behind the letter of an exponent. -/
def exponentValue? : List Char → Option Int
  | '+' :: text => (digits? text).map Int.ofNat
  | '-' :: text => (digits? text).map fun n => -Int.ofNat n
  | text => (digits? text).map Int.ofNat

/-- An exponent with its letter, or nothing at all. -/
def exponent? : List Char → Option Int
  | [] => some 0
  | c :: text => if c = 'e' ∨ c = 'E' then exponentValue? text else none

/-- Digits behind a point, if there is a point, and what follows them. -/
def fraction : List Char → List Char × List Char
  | '.' :: text => text.span Char.isDigit
  | text => ([], text)

/-- The ordinal of a number without sign. -/
def ordinal? (text : List Char) : Option Nat :=
  let (whole, rest) := text.span Char.isDigit
  let (fraction, rest) := fraction rest
  if whole.isEmpty && fraction.isEmpty then none
  else (exponent? rest).map fun exponent =>
    roundDecimal (natOfDigits (whole ++ fraction)) (exponent - fraction.length)

/-- A word or a number without sign. -/
def unsigned? (negative : Bool) (text : List Char) : Option Binary64 :=
  let word := String.ofList (text.map Char.toLower)
  if word = "inf" ∨ word = "infinity" then some (infinity negative)
  else if word = "nan" then some (nan negative)
  else (ordinal? text).map fun ordinal => ⟨negative, ordinal⟩

def parse? : List Char → Option Binary64
  | '+' :: text => unsigned? false text
  | '-' :: text => unsigned? true text
  | text => unsigned? false text

end Binary64
end FeatureTree
