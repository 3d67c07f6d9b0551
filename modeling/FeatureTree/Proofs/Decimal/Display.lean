import FeatureTree.Decimal.Layout
import Mathlib.Data.List.TakeDrop

/-!
# Display — the characters of a number with all its places

A finite number is shown by digits, a point and a minus, and by at least one character.
-/

namespace FeatureTree

/-! ## Digits -/

namespace Binary64

theorem mem_trimZeros {c : Char} {digits : List Char} (h : c ∈ trimZeros digits) : c ∈ digits := by
  rw [trimZeros, List.mem_reverse] at h
  exact List.mem_reverse.1 ((List.dropWhile_suffix _).mem h)

/-- A shortest decimal has digits only. -/
theorem isDigit_shortest (tie : Tie) (ordinal : Nat) :
    ∀ c ∈ (shortest tie ordinal).digits, c.isDigit = true := by
  intro c hc
  exact Nat.isDigit_of_mem_toDigits (by decide) (by decide) (mem_trimZeros hc)

end Binary64

/-! ## Places -/

namespace Layout

/-- The character may stand in a finite number. -/
def isFigure (c : Char) : Bool := c.isDigit || c == '.' || c == '-'

theorem toList_zeros (n : Nat) : (zeros n).toList = List.replicate n '0' := by
  have hpush : ∀ k, (Nat.repeat (fun s => s.push '0') k "").toList = List.replicate k '0' := by
    intro k
    induction k with
    | zero => rfl
    | succ k ih => rw [Nat.repeat, String.toList_push, ih, ← List.replicate_succ']
  exact hpush n

/-- All characters of the text are figures. -/
def Figures (text : String) : Prop := ∀ c ∈ text.toList, isFigure c = true

instance (text : String) : Decidable (Figures text) :=
  decidable_of_iff (text.toList.all isFigure = true) List.all_eq_true

theorem Figures.append {s s' : String} (h : Figures s) (h' : Figures s') : Figures (s ++ s') := by
  intro c hc
  rw [String.toList_append] at hc
  exact (List.mem_append.1 hc).elim (h c) (h' c)

theorem figures_ofList {digits : List Char} (h : ∀ c ∈ digits, c.isDigit = true) :
    Figures (String.ofList digits) := by
  intro c hc
  rw [String.toList_ofList] at hc
  simp [isFigure, h c hc]

theorem figures_zeros (n : Nat) : Figures (zeros n) := by
  intro c hc
  rw [toList_zeros] at hc
  rw [List.eq_of_mem_replicate hc]
  decide

/-- A decimal that is written out has figures only, if nothing follows whole numbers. -/
theorem figures_plainText {d : Decimal} (h : ∀ c ∈ d.digits, c.isDigit = true) :
    Figures (places.plainText d) := by
  have hzero : Figures "0." := by decide
  have hpoint : Figures "." := by decide
  have hnothing : Figures "" := fun _ hc => nomatch hc
  unfold plainText
  split
  · exact (hzero.append (figures_zeros _)).append (figures_ofList h)
  · dsimp only
    split
    · exact ((figures_ofList h).append (figures_zeros _)).append hnothing
    · exact ((figures_ofList fun c hc => h c (List.mem_of_mem_take hc)).append hpoint).append
        (figures_ofList fun c hc => h c (List.mem_of_mem_drop hc))

/-- A decimal that is written out is not empty, even without digits. -/
theorem plainText_ne_nil (d : Decimal) : (places.plainText d).toList ≠ [] := by
  unfold plainText
  split
  · simp
  · dsimp only
    split
    · intro hnil
      have hlength := congrArg List.length hnil
      simp only [String.toList_append, String.toList_ofList, toList_zeros, List.length_append,
        List.length_replicate, List.length_nil] at hlength
      omega
    · simp

/-- A number is written with one figure or more. -/
theorem figures_text (x : Binary64) : (places.text x).toList ≠ [] ∧ Figures (places.text x) := by
  have hsign : Figures (if x.negative then "-" else "") := by
    cases x.negative <;> decide
  have hzero : Figures ("0" ++ places.wholeEnd) := by decide
  unfold text
  rw [String.toList_append]
  by_cases hordinal : x.ordinal = 0
  · rw [if_pos hordinal]
    exact ⟨by simp, hsign.append hzero⟩
  · rw [if_neg hordinal]
    refine ⟨fun hnil => plainText_ne_nil _ (List.append_eq_nil_iff.1 hnil).2, ?_⟩
    exact hsign.append (figures_plainText (Binary64.isDigit_shortest _ _))

end Layout

namespace Binary64

/-- A finite number is shown by one figure or more. -/
theorem figures_display {x : Binary64} (h : x.isFinite = true) :
    x.display.toList ≠ [] ∧ Layout.Figures x.display := by
  have hnumber : x.isNaN = false := by
    simp only [isFinite, isNaN, decide_eq_true_eq, decide_eq_false_iff_not] at h ⊢
    omega
  have hdisplay : x.display = Layout.places.text x := by
    rw [display, hnumber, h]
    rfl
  rw [hdisplay]
  exact Layout.figures_text x

/-- Any other number is shown by a word. -/
theorem display_of_not_finite {x : Binary64} (h : x.isFinite = false) :
    x.display = "NaN" ∨ x.display = "-inf" ∨ x.display = "inf" := by
  unfold display
  rw [h]
  cases x.isNaN <;> cases x.negative <;> simp

end Binary64
end FeatureTree
