import FeatureTree.Proofs.Decimal.Spelling
import Mathlib.Data.Nat.Digits.Defs
import Mathlib.Tactic.Ring

/-!
# Rounding — which decimals go to infinity

The largest finite magnitude is `2 ^ 1024 - 2 ^ 971`, and the next power of two is `2 ^ 1024`.  A fraction
in the middle between the two goes up, because the significand of the largest magnitude is odd.  So the
fractions from `2 ^ 1024 - 2 ^ 970` on go to infinity, and all smaller ones to a finite magnitude
(`roundRatio_lt_iff`).  The shortcuts for decimals of very many places do not change this
(`roundDecimal_lt_iff`).
-/

namespace FeatureTree
namespace Binary64

variable {den m n : Nat} (num : Nat)

/-! ## The nearest whole number -/

theorem le_roundHalfEven (den : Nat) : num / den ≤ roundHalfEven num den := by
  unfold roundHalfEven
  dsimp only
  split
  · exact Nat.le_refl _
  · split
    · exact Nat.le_succ _
    · exact Nat.le_add_right _ _

theorem roundHalfEven_le (den : Nat) : roundHalfEven num den ≤ num / den + 1 := by
  unfold roundHalfEven
  dsimp only
  split
  · exact Nat.le_succ _
  · split
    · exact Nat.le_refl _
    · have hparity : num / den % 2 < 2 := Nat.mod_lt _ (by decide)
      omega

/-- A fraction is rounded to an odd number or a smaller one exactly if it lies below the middle
between that number and the next. -/
theorem roundHalfEven_le_iff (hden : 0 < den) (hodd : m % 2 = 1) :
    roundHalfEven num den ≤ m ↔ 2 * num < (2 * m + 1) * den := by
  have hnum : den * (num / den) + num % den = num := Nat.div_add_mod num den
  have hrest : num % den < den := Nat.mod_lt _ hden
  have hmiddle : (2 * m + 1) * den = 2 * (den * m) + den := by ring
  rw [hmiddle]
  rcases Nat.lt_trichotomy (num / den) m with hlt | heq | hgt
  · have hle := roundHalfEven_le num den
    have hproduct : den * (num / den + 1) ≤ den * m := Nat.mul_le_mul_left den hlt
    rw [Nat.mul_add, Nat.mul_one] at hproduct
    omega
  · rw [roundHalfEven, heq]
    rw [heq] at hnum
    split
    · omega
    · split <;> omega
  · have hle := le_roundHalfEven num den
    have hproduct : den * (m + 1) ≤ den * (num / den) := Nat.mul_le_mul_left den hgt
    rw [Nat.mul_add, Nat.mul_one] at hproduct
    omega

/-! ## Significands -/

theorem lt_two_pow_bitLength (n : Nat) : n < 2 ^ bitLength n := by
  unfold bitLength
  split
  · next h => simp [h]
  · exact Nat.lt_log2_self

theorem two_pow_le_of_bitLength {k : Nat} (h : bitLength n = k + 1) : 2 ^ k ≤ n := by
  unfold bitLength at h
  split at h
  · cases h
  · next hne =>
      obtain rfl := Nat.succ.inj h
      exact Nat.log2_self_le hne

/-- How far the significand of a fraction is shifted. -/
def shiftOf (den : Nat) : Nat := bitLength (num * 2 ^ unitBits / den) - (fractionBits + 1)

theorem roundRatio_eq (den : Nat) : roundRatio num den = min infinityOrdinal
    (shiftOf num den * 2 ^ fractionBits +
      roundHalfEven (num * 2 ^ unitBits) (den * 2 ^ shiftOf num den)) := by
  unfold roundRatio shiftOf
  simp only [Nat.pow_eq]

/-- The fraction in units lies below the power of two above its significand. -/
theorem units_lt (hden : 0 < den) :
    num * 2 ^ unitBits < 2 ^ (shiftOf num den + 53) * den := by
  have hbits : bitLength (num * 2 ^ unitBits / den) ≤ shiftOf num den + 53 := by
    unfold shiftOf fractionBits
    omega
  have hlt : num * 2 ^ unitBits / den < 2 ^ (shiftOf num den + 53) :=
    Nat.lt_of_lt_of_le (lt_two_pow_bitLength _) (Nat.pow_le_pow_right (by decide) hbits)
  exact (Nat.div_lt_iff_lt_mul hden).1 hlt

/-- A fraction whose significand is shifted fills it. -/
theorem le_units (hden : 0 < den) (hshift : 0 < shiftOf num den) :
    2 ^ (shiftOf num den + 52) * den ≤ num * 2 ^ unitBits := by
  have hbits : bitLength (num * 2 ^ unitBits / den) = shiftOf num den + 52 + 1 := by
    unfold shiftOf fractionBits at hshift ⊢
    omega
  exact (Nat.le_div_iff_mul_le hden).1 (two_pow_le_of_bitLength hbits)

/-- The rounded significand is at most the power of two above it. -/
theorem significand_le (hden : 0 < den) :
    roundHalfEven (num * 2 ^ unitBits) (den * 2 ^ shiftOf num den) ≤ 2 ^ 53 := by
  have hpos : 0 < den * 2 ^ shiftOf num den := Nat.mul_pos hden (pow_pos (by decide) _)
  have hlt : num * 2 ^ unitBits / (den * 2 ^ shiftOf num den) < 2 ^ 53 := by
    rw [Nat.div_lt_iff_lt_mul hpos]
    calc num * 2 ^ unitBits
        < 2 ^ (shiftOf num den + 53) * den := units_lt num hden
      _ = 2 ^ 53 * (den * 2 ^ shiftOf num den) := by rw [Nat.pow_add]; ring
  exact Nat.le_trans (roundHalfEven_le _ _) hlt

theorem le_significand (hden : 0 < den) (hshift : 0 < shiftOf num den) :
    2 ^ 52 ≤ roundHalfEven (num * 2 ^ unitBits) (den * 2 ^ shiftOf num den) := by
  have hpos : 0 < den * 2 ^ shiftOf num den := Nat.mul_pos hden (pow_pos (by decide) _)
  refine Nat.le_trans ?_ (le_roundHalfEven _ _)
  rw [Nat.le_div_iff_mul_le hpos]
  calc 2 ^ 52 * (den * 2 ^ shiftOf num den)
      = 2 ^ (shiftOf num den + 52) * den := by rw [Nat.pow_add]; ring
    _ ≤ num * 2 ^ unitBits := le_units num hden hshift

/-! ## The threshold of infinity -/

/-- The middle between the largest finite magnitude and the next power of two. -/
def overflow : Nat := 2 ^ 1024 - 2 ^ 970

/-- The threshold in units, twice. -/
theorem lt_overflow_iff :
    num < overflow * den ↔ 2 * (num * 2 ^ unitBits) < (2 * (2 ^ 53 - 1) + 1) * (den * 2 ^ 2045) := by
  have hthreshold : 2 ^ 1075 * overflow = (2 * (2 ^ 53 - 1) + 1) * 2 ^ 2045 := by
    have hhigh : (2 : Nat) ^ 1024 = 2 ^ 54 * 2 ^ 970 := by rw [← Nat.pow_add]
    have hlow : (2 : Nat) ^ 2045 = 2 ^ 1075 * 2 ^ 970 := by rw [← Nat.pow_add]
    rw [overflow, hhigh, hlow]
    generalize (2 : Nat) ^ 970 = unit
    have hdifference : 2 ^ 54 * unit - unit = (2 * (2 ^ 53 - 1) + 1) * unit := by omega
    rw [hdifference, Nat.mul_left_comm]
  have hleft : 2 * (num * 2 ^ unitBits) = 2 ^ 1075 * num := by
    have hbits : 1075 = unitBits + 1 := rfl
    rw [hbits, Nat.pow_succ]
    generalize 2 ^ unitBits = units
    ring
  have hright : (2 * (2 ^ 53 - 1) + 1) * (den * 2 ^ 2045) = 2 ^ 1075 * (overflow * den) := by
    rw [Nat.mul_comm den, ← Nat.mul_assoc, ← hthreshold, Nat.mul_assoc]
  rw [hleft, hright]
  exact (Nat.mul_lt_mul_left (pow_pos (by decide) 1075)).symm

/-- A fraction goes to a finite magnitude exactly if it lies below the threshold. -/
theorem roundRatio_lt_iff (hden : 0 < den) :
    roundRatio num den < infinityOrdinal ↔ num < overflow * den := by
  have hinfinity : infinityOrdinal = 2047 * 2 ^ 52 := rfl
  have hsmall := units_lt num hden
  have hle := significand_le num hden
  rw [roundRatio_eq, lt_overflow_iff, min_lt_iff, or_iff_right (Nat.lt_irrefl _), hinfinity]
  -- The shift decides, but for fractions that are shifted as far as the largest magnitude.
  rcases Nat.lt_trichotomy (shiftOf num den) 2045 with hlt | heq | hgt
  · have hbelow : num * 2 ^ unitBits < 2 ^ 52 * (den * 2 ^ 2045) := by
      calc num * 2 ^ unitBits
          < 2 ^ (shiftOf num den + 53) * den := hsmall
        _ ≤ 2 ^ (52 + 2045) * den :=
            Nat.mul_le_mul_right den (pow_le_pow_right₀ (by decide) (by omega))
        _ = 2 ^ 52 * (den * 2 ^ 2045) := by
            rw [pow_add, Nat.mul_assoc, Nat.mul_comm (2 ^ 2045)]
    generalize den * 2 ^ 2045 = top at hbelow
    unfold fractionBits
    omega
  · have htop : 0 < den * 2 ^ 2045 := Nat.mul_pos hden (pow_pos (by decide) _)
    have hodd : (2 ^ 53 - 1) % 2 = 1 := rfl
    have hfinite := roundHalfEven_le_iff (num * 2 ^ unitBits) htop hodd
    rw [← hfinite, heq]
    unfold fractionBits
    omega
  · have hpos : 0 < shiftOf num den := by omega
    have hbeyond : 2 ^ 53 * (den * 2 ^ 2045) ≤ num * 2 ^ unitBits := by
      calc 2 ^ 53 * (den * 2 ^ 2045)
          = 2 ^ (53 + 2045) * den := by rw [pow_add, Nat.mul_assoc, Nat.mul_comm (2 ^ 2045)]
        _ ≤ 2 ^ (shiftOf num den + 52) * den :=
            Nat.mul_le_mul_right den (pow_le_pow_right₀ (by decide) (by omega))
        _ ≤ num * 2 ^ unitBits := le_units num hden hpos
    have hfull := le_significand num hden hpos
    generalize den * 2 ^ 2045 = top at hbeyond
    unfold fractionBits
    omega

/-! ## Decimals -/

theorem lt_ten_pow_digitCount (n : Nat) : n < 10 ^ digitCount n :=
  (Nat.length_toDigits_le_iff (by decide) Nat.length_toDigits_pos).1 (Nat.le_refl _)

theorem ten_pow_le_of_digitCount {k : Nat} (hn : n ≠ 0) (h : k < digitCount n) : 10 ^ k ≤ n := by
  rcases Nat.eq_zero_or_pos k with rfl | hk
  · exact Nat.pos_of_ne_zero hn
  · refine Nat.le_of_not_lt fun hlt => ?_
    have hle := (Nat.length_toDigits_le_iff (by decide) hk).2 hlt
    exact absurd (Nat.lt_of_lt_of_le h hle) (Nat.lt_irrefl _)

theorem overflow_pos : 0 < overflow :=
  Nat.sub_pos_of_lt (pow_lt_pow_right₀ (by decide) (by decide))

theorem overflow_le : overflow ≤ 10 ^ 310 := by
  have hpow : (2 : Nat) ^ 1024 ≤ 10 ^ 310 := by
    calc (2 : Nat) ^ 1024
        = 2 * (2 ^ 93) ^ 11 := by rw [← pow_mul, ← pow_succ']
      _ ≤ 10 * (10 ^ 28) ^ 11 := Nat.mul_le_mul (by decide) (Nat.pow_le_pow_left (by decide) 11)
      _ = 10 ^ 309 := by rw [← pow_mul, ← pow_succ']
      _ ≤ 10 ^ 310 := pow_le_pow_right₀ (by decide) (by decide)
  exact Nat.le_trans (Nat.sub_le _ _) hpow

/-- A decimal with some places behind its point goes to a finite magnitude exactly if it lies below
the threshold. -/
theorem roundDecimal_lt_iff (n places : Nat) :
    roundDecimal n (-places) < infinityOrdinal ↔ n < overflow * 10 ^ places := by
  have hinfinity : 0 < infinityOrdinal := by decide
  have hpower : 0 < overflow * 10 ^ places := Nat.mul_pos overflow_pos (Nat.pow_pos (by decide))
  unfold roundDecimal
  split
  · next hzero => simp [hzero, hinfinity, hpower]
  · next hne =>
      dsimp only
      split
      · -- More than 310 digits in front of the point.
        next hmany =>
          have hle : 10 ^ (places + 310) ≤ n := ten_pow_le_of_digitCount hne (by omega)
          have hbeyond : overflow * 10 ^ places ≤ n := by
            calc overflow * 10 ^ places
                ≤ 10 ^ 310 * 10 ^ places := Nat.mul_le_mul_right _ overflow_le
              _ = 10 ^ (places + 310) := by rw [← Nat.pow_add, Nat.add_comm]
              _ ≤ n := hle
          simp [Nat.not_lt.2 hbeyond]
      · split
        · -- More than 330 zeros behind the point.
          next hfew =>
            have hlt : n < overflow * 10 ^ places := by
              calc n < 10 ^ digitCount n := lt_ten_pow_digitCount n
                _ ≤ 10 ^ places := Nat.pow_le_pow_right (by decide) (by omega)
                _ ≤ overflow * 10 ^ places := Nat.le_mul_of_pos_left _ overflow_pos
            simp [hinfinity, hlt]
        · split
          · next hwhole =>
              obtain rfl : places = 0 := by omega
              have hratio := roundRatio_lt_iff n Nat.one_pos
              simpa using hratio
          · have hplaces : (-(-(places : Int))).toNat = places := by omega
            rw [hplaces]
            exact roundRatio_lt_iff n (Nat.pow_pos (by decide))

/-- No decimal goes beyond infinity. -/
theorem roundDecimal_le (n : Nat) (exponent : Int) : roundDecimal n exponent ≤ infinityOrdinal := by
  have hratio : ∀ num den, roundRatio num den ≤ infinityOrdinal := fun _ _ => Nat.min_le_left _ _
  unfold roundDecimal
  split
  · exact Nat.zero_le _
  · dsimp only
    split
    · exact Nat.le_refl _
    · split
      · exact Nat.zero_le _
      · split <;> exact hratio _ _

end Binary64
end FeatureTree
