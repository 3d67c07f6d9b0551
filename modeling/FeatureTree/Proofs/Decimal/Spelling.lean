import FeatureTree.Decimal.Reading
import Mathlib.Data.List.TakeDrop

/-!
# Spelling — digits with a point are numbers

A text of one or more digits, perhaps followed by a point and further digits, spells a number: all its
digits, divided by a power of ten for the digits behind the point.
-/

namespace FeatureTree
namespace Binary64

theorem span_digits {digits : List Char} (rest : List Char)
    (hdigits : ∀ c ∈ digits, c.isDigit = true)
    (hrest : ∀ c ∈ rest.head?, c.isDigit = false) :
    (digits ++ rest).span Char.isDigit = (digits, rest) := by
  rw [List.span_eq_takeWhile_dropWhile, List.takeWhile_append_of_pos hdigits,
    List.dropWhile_append_of_pos hdigits]
  cases rest with
  | nil => simp
  | cons c tail => simp [hrest c rfl]

theorem toLower_of_isDigit {c : Char} (hc : c.isDigit = true) : c.toLower = c := by
  have hle : c.val.toNat ≤ 57 := by
    simp only [Char.isDigit, Bool.and_eq_true, decide_eq_true_eq] at hc
    exact UInt32.le_iff_toNat_le.1 hc.2
  unfold Char.toLower
  rw [dif_neg]
  intro hupper
  have hge : 65 ≤ c.val.toNat := UInt32.le_iff_toNat_le.1 hupper.1
  omega

/-- A word that starts with a digit is none of the words for infinity and for what is no number. -/
theorem unsigned?_of_digit {c : Char} {text : List Char} (hc : c.isDigit = true)
    (negative : Bool) :
    unsigned? negative (c :: text) =
      (ordinal? (c :: text)).map fun ordinal => ⟨negative, ordinal⟩ := by
  have hword : ∀ d tail, d.isDigit = false →
      String.ofList ((c :: text).map Char.toLower) ≠ String.ofList (d :: tail) := by
    intro d tail hd heq
    rw [List.map_cons, toLower_of_isDigit hc, String.ofList_inj] at heq
    rw [(List.cons.inj heq).1, hd] at hc
    cases hc
  have hinf : String.ofList ((c :: text).map Char.toLower) ≠ "inf" :=
    hword 'i' ['n', 'f'] rfl
  have hinfinity : String.ofList ((c :: text).map Char.toLower) ≠ "infinity" :=
    hword 'i' ['n', 'f', 'i', 'n', 'i', 't', 'y'] rfl
  have hnan : String.ofList ((c :: text).map Char.toLower) ≠ "nan" :=
    hword 'n' ['a', 'n'] rfl
  unfold unsigned?
  simp only [hinf, hinfinity, hnan, or_self, if_false]

theorem parse?_of_digit {c : Char} {text : List Char} (hc : c.isDigit = true) :
    parse? (c :: text) = (ordinal? (c :: text)).map fun ordinal => ⟨false, ordinal⟩ := by
  unfold parse?
  split
  · next heq =>
      rcases List.cons.inj heq with ⟨rfl, -⟩
      exact absurd hc (by decide)
  · next heq =>
      rcases List.cons.inj heq with ⟨rfl, -⟩
      exact absurd hc (by decide)
  · exact unsigned?_of_digit hc false

/-- Digits spell a number. -/
theorem parse?_digits {whole : List Char} (hne : whole ≠ [])
    (hwhole : ∀ c ∈ whole, c.isDigit = true) :
    parse? whole = some ⟨false, roundDecimal (natOfDigits whole) 0⟩ := by
  cases whole with
  | nil => exact absurd rfl hne
  | cons c tail =>
      rw [parse?_of_digit (hwhole c List.mem_cons_self)]
      have hspan := span_digits [] hwhole (by simp)
      rw [List.append_nil] at hspan
      simp [ordinal?, hspan, fraction, exponent?, -List.span_eq_takeWhile_dropWhile]

/-- Digits, a point and digits spell a number. -/
theorem parse?_point {whole behind : List Char} (hne : whole ≠ [])
    (hwhole : ∀ c ∈ whole, c.isDigit = true) (hbehind : ∀ c ∈ behind, c.isDigit = true) :
    parse? (whole ++ '.' :: behind) =
      some ⟨false, roundDecimal (natOfDigits (whole ++ behind)) (-behind.length)⟩ := by
  have hspan := span_digits ('.' :: behind) hwhole (by simp)
  have hspan' := span_digits [] hbehind (by simp)
  rw [List.append_nil] at hspan'
  have hordinal : ordinal? (whole ++ '.' :: behind) =
      some (roundDecimal (natOfDigits (whole ++ behind)) (-behind.length)) := by
    simp [ordinal?, hspan, hspan', fraction, exponent?, hne, -List.span_eq_takeWhile_dropWhile]
  cases whole with
  | nil => exact absurd rfl hne
  | cons c tail =>
      rw [List.cons_append, parse?_of_digit (hwhole c List.mem_cons_self), ← List.cons_append,
        hordinal]
      rfl

end Binary64
end FeatureTree
