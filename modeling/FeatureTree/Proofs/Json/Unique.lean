import FeatureTree.Proofs.Decimal.Spelling
import FeatureTree.Proofs.Json.Grammar

/-!
# Unique — a compact text comes from one value only

A written string is read back to its last character, whatever follows its quote, and a whole number ends
where its digits end.  So the characters of a value can be cut off from what follows them in one way only
(`Value.Integral.cutsOff`), and two values with the same compact text are equal (`compact_inj`).
-/

namespace FeatureTree
namespace Json

open Grammar

/-! ## Strings -/

namespace Raw

/-- The piece stands for the character. -/
inductive Piece.Means : Piece → Char → Prop where
  | char (c : Char) : Means (.char c) c
  | unit {c : Char} (hcontrol : c.toNat < 32) : Means (.unit c.toNat) c

theorem hexUnit?_control {c : Char} (h : c.toNat < 32) :
    hexUnit? '0' '0' (hexDigit (c.toNat / 16)) (hexDigit (c.toNat % 16)) = some c.toNat := by
  have hvalue : ∀ n < 32, hexUnit? '0' '0' (hexDigit (n / 16)) (hexDigit (n % 16)) = some n := by
    decide
  exact hvalue c.toNat h

/-- A written character is read as one piece. -/
theorem pieces?_escapes {c : Char} {text : List Char} (h : Escapes c text) :
    ∃ p : Piece, p.Means c ∧ ∀ rest, pieces? (text ++ rest) =
      (pieces? rest).map fun found => (p :: found.1, found.2) := by
  cases h with
  | @letter l hl =>
      refine ⟨.char c, .char c, fun rest => ?_⟩
      have hnot : l ≠ 'u' := by
        rintro rfl
        cases hl
      change pieces? ('\\' :: l :: rest) = _
      rw [pieces?]
      · rw [hl]
        cases pieces? rest <;> rfl
      · exact fun _ _ _ _ _ heq => absurd heq hnot
  | unit hcontrol =>
      refine ⟨.unit c.toNat, .unit hcontrol, fun rest => ?_⟩
      simp only [List.cons_append, List.nil_append, pieces?, hexUnit?_control hcontrol]
      cases pieces? rest <;> rfl
  | plain hquote hslash hcontrol =>
      refine ⟨.char c, .char c, fun rest => ?_⟩
      change pieces? (c :: rest) = _
      rw [pieces?, if_neg (Nat.not_lt.2 hcontrol)]
      · cases pieces? rest <;> rfl
      all_goals grind

theorem pieces?_quotedChars (s : String) (rest : List Char) :
    ∃ ps, List.Forall₂ Piece.Means ps s.toList ∧
      pieces? (quotedChars s ++ '"' :: rest) = some (ps, rest) := by
  unfold quotedChars
  induction s.toList with
  | nil => exact ⟨[], .nil, by rw [List.flatMap_nil, List.nil_append, pieces?]⟩
  | cons c cs ih =>
      rcases ih with ⟨ps, hps, hread⟩
      rcases pieces?_escapes (escapes_escape c) with ⟨p, hp, hone⟩
      refine ⟨p :: ps, .cons hp hps, ?_⟩
      rw [List.flatMap_cons, List.append_assoc, hone, hread]
      rfl

theorem spell?_means {ps : List Piece} {cs : List Char} (h : List.Forall₂ Piece.Means ps cs) :
    spell? ps = some cs := by
  induction h with
  | nil => rfl
  | @cons p c ps cs hp hps ih =>
      cases hp with
      | char c => rw [spell?, ih]; rfl
      | unit hcontrol =>
          have hhigh : isHighHalf c.toNat = false := by
            simp [isHighHalf]; omega
          have hlow : isLowHalf c.toNat = false := by
            simp [isLowHalf]; omega
          cases hps with
          | nil => simp [spell?, hhigh, hlow, Char.ofNat_toNat]
          | @cons q d ps cs hq hps =>
              cases hq with
              | char d =>
                  rw [spell?] at ih
                  simp [spell?, hhigh, hlow, ih, Char.ofNat_toNat]
              | unit hcontrol' => simp [spell?, hhigh, hlow, ih, Char.ofNat_toNat]

/-- The reader reads back a written string. -/
theorem string?_quotedChars (s : String) (rest : List Char) :
    string? (quotedChars s ++ '"' :: rest) = some (some s, rest) := by
  rcases pieces?_quotedChars s rest with ⟨ps, hps, hread⟩
  rw [string?, hread, Option.map_some]
  simp only [spell?_means hps, Option.map_some, String.ofList_toList]

end Raw

/-- Where a written string ends, and what it is, can be seen. -/
theorem quotedChars_inj {s s' : String} {rest rest' : List Char}
    (h : quotedChars s ++ '"' :: rest = quotedChars s' ++ '"' :: rest') : s = s' ∧ rest = rest' := by
  have hread := Raw.string?_quotedChars s rest
  rw [h, Raw.string?_quotedChars s' rest'] at hread
  have hpair := Prod.mk.inj (Option.some.inj hread)
  exact ⟨(Option.some.inj hpair.1).symm, hpair.2.symm⟩

/-! ## Numbers -/

/-- No digit comes first. -/
def Stops (text : List Char) : Prop := ∀ c ∈ text.head?, c.isDigit = false

theorem stops_nil : Stops [] := fun _ hc => nomatch hc

theorem stops_cons {c : Char} (hc : c.isDigit = false) (text : List Char) : Stops (c :: text) := by
  intro d hd
  obtain rfl := Option.some.inj hd
  exact hc

/-- A natural number ends where its digits end. -/
theorem toDigits_inj {n m : Nat} {rest rest' : List Char} (hrest : Stops rest)
    (hrest' : Stops rest') (h : Nat.toDigits 10 n ++ rest = Nat.toDigits 10 m ++ rest') :
    n = m ∧ rest = rest' := by
  have hdigits : ∀ k : Nat, ∀ c ∈ Nat.toDigits 10 k, c.isDigit = true := fun k c hc =>
    Nat.isDigit_of_mem_toDigits (by decide) (by decide) hc
  have hspan := Binary64.span_digits rest (hdigits n) hrest
  rw [h, Binary64.span_digits rest' (hdigits m) hrest'] at hspan
  have hpair := Prod.mk.inj hspan
  have hvalue := congrArg (Nat.ofDigitChars 10 · 0) hpair.1
  simp only [Nat.ofDigitChars_ten_toDigits] at hvalue
  exact ⟨hvalue.symm, hpair.2.symm⟩

/-- The digits of a number do not start with its sign. -/
theorem toDigits_ne_minus {n : Nat} {rest text : List Char} :
    Nat.toDigits 10 n ++ rest ≠ '-' :: text := by
  intro h
  cases hdigits : Nat.toDigits 10 n with
  | nil => exact Nat.toDigits_ne_nil hdigits
  | cons d ds =>
      rw [hdigits] at h
      obtain rfl : d = '-' := (List.cons.inj h).1
      have hd : ('-').isDigit = true :=
        Nat.isDigit_of_mem_toDigits (b := 10) (n := n) (by decide) (by decide)
          (hdigits ▸ List.mem_cons_self)
      exact absurd hd (by decide)

theorem toString_int_inj {n m : Int} {rest rest' : List Char} (hrest : Stops rest)
    (hrest' : Stops rest') (h : (toString n).toList ++ rest = (toString m).toList ++ rest') :
    n = m ∧ rest = rest' := by
  -- Only a negative number starts with a minus, so both have the same sign.
  rcases toList_toString_int n with ⟨hn, htext⟩ | ⟨hn, htext⟩ <;>
    rcases toList_toString_int m with ⟨hm, htext'⟩ | ⟨hm, htext'⟩ <;> rw [htext, htext'] at h
  · rcases toDigits_inj hrest hrest' h with ⟨heq, hback⟩
    exact ⟨by omega, hback⟩
  · exact absurd h toDigits_ne_minus
  · exact absurd h.symm toDigits_ne_minus
  · rcases toDigits_inj hrest hrest' (List.cons.inj h).2 with ⟨heq, hback⟩
    exact ⟨by omega, hback⟩

/-! ## Values -/

namespace Value

/-- Numbers the kinds of values. -/
def sort : Value → Nat
  | .null => 0
  | .number _ => 1
  | .string _ => 2
  | .array _ => 3
  | .object _ => 4

/-- The kind of value that starts with a character; none starts with a closing bracket. -/
def sortOf (c : Char) : Nat :=
  if c = 'n' then 0
  else if c = '"' then 2
  else if c = '[' then 3
  else if c = '\x7b' then 4
  else if c = ']' then 5
  else if c = '\x7d' then 5
  else 1

theorem sortOf_digit {c : Char} (h : c.isDigit = true) : sortOf c = 1 := by
  have hne : ∀ d : Char, d.isDigit = false → c ≠ d := by
    rintro d hd rfl
    rw [h] at hd
    cases hd
  simp [sortOf, hne 'n' rfl, hne '"' rfl, hne '[' rfl, hne '\x7b' rfl, hne ']' rfl, hne '\x7d' rfl]

/-- The first character tells which kind of value follows. -/
theorem Integral.lead {v : Value} (h : v.Integral) :
    ∃ c text, v.chars = c :: text ∧ sortOf c = v.sort := by
  cases h with
  | null => exact ⟨_, _, rfl, rfl⟩
  | number n =>
      -- A number starts with its first digit, or with its sign.
      rcases toList_toString_int n with ⟨-, htext⟩ | ⟨-, htext⟩
      · cases hdigits : Nat.toDigits 10 n.toNat with
        | nil => exact absurd hdigits Nat.toDigits_ne_nil
        | cons d ds =>
            refine ⟨d, ds, htext.trans hdigits, sortOf_digit ?_⟩
            apply Nat.isDigit_of_mem_toDigits (b := 10) (n := n.toNat) (by decide) (by decide)
            rw [hdigits]
            exact List.mem_cons_self
      · exact ⟨'-', _, htext, rfl⟩
  | string text => exact ⟨_, _, rfl, rfl⟩
  | @array items _ => rcases items with _ | ⟨item, items⟩ <;> exact ⟨_, _, rfl, rfl⟩
  | @object members _ => rcases members with _ | ⟨⟨key, value⟩, members⟩ <;> exact ⟨_, _, rfl, rfl⟩

theorem Integral.sort_eq {v w : Value} (hv : v.Integral) (hw : w.Integral) {rest rest' : List Char}
    (h : v.chars ++ rest = w.chars ++ rest') : v.sort = w.sort := by
  rcases hv.lead with ⟨c, text, hchars, hsort⟩
  rcases hw.lead with ⟨c', text', hchars', hsort'⟩
  rw [hchars, hchars', List.cons_append, List.cons_append] at h
  rw [← hsort, ← hsort', (List.cons.inj h).1]

/-- No value starts with what closes an array. -/
theorem Integral.chars_ne_close {v : Value} (h : v.Integral) {rest text : List Char} :
    v.chars ++ rest ≠ ']' :: text := by
  intro heq
  rcases h.lead with ⟨c, text', hchars, hsort⟩
  rw [hchars, List.cons_append] at heq
  rw [(List.cons.inj heq).1] at hsort
  cases v <;> cases hsort

/-- What follows the characters of a value can be cut off in one way only. -/
def CutsOff (v : Value) : Prop :=
  ∀ w : Value, w.Integral → ∀ rest rest', Stops rest → Stops rest' →
    v.chars ++ rest = w.chars ++ rest' → v = w ∧ rest = rest'

theorem stops_charsItems (items : List Value) (rest : List Char) :
    Stops (charsItems items ++ ']' :: rest) := by
  cases items <;> exact stops_cons (by decide) _

theorem stops_charsMembers (members : List (String × Value)) (rest : List Char) :
    Stops (charsMembers members ++ '\x7d' :: rest) := by
  cases members <;> exact stops_cons (by decide) _

theorem charsItems_inj {items items' : List Value} {rest rest' : List Char}
    (hitems : ∀ v ∈ items, v.CutsOff) (hitems' : ∀ w ∈ items', w.Integral)
    (h : charsItems items ++ ']' :: rest = charsItems items' ++ ']' :: rest') :
    items = items' ∧ rest = rest' := by
  induction items generalizing items' with
  | nil =>
      cases items' with
      | nil => exact ⟨rfl, (List.cons.inj h).2⟩
      | cons w items' => exact absurd (List.cons.inj h).1 (by decide)
  | cons v items ih =>
      cases items' with
      | nil => exact absurd (List.cons.inj h).1 (by decide)
      | cons w items' =>
          rw [charsItems, charsItems, List.cons_append, List.cons_append, List.append_assoc,
            List.append_assoc] at h
          rcases hitems v List.mem_cons_self w (hitems' w List.mem_cons_self) _ _
            (stops_charsItems _ _) (stops_charsItems _ _) (List.cons.inj h).2 with ⟨rfl, hrest⟩
          rcases ih (fun u hu => hitems u (List.mem_cons_of_mem _ hu))
            (fun u hu => hitems' u (List.mem_cons_of_mem _ hu)) hrest with ⟨rfl, hback⟩
          exact ⟨rfl, hback⟩

/-- A name with its value, and what follows. -/
theorem member_inj {key key' : String} {v w : Value} {rest rest' : List Char} (hv : v.CutsOff)
    (hw : w.Integral) (hrest : Stops rest) (hrest' : Stops rest')
    (h : quotedChars key ++ '"' :: ':' :: (v.chars ++ rest) =
      quotedChars key' ++ '"' :: ':' :: (w.chars ++ rest')) :
    (key, v) = (key', w) ∧ rest = rest' := by
  rcases quotedChars_inj h with ⟨rfl, hvalue⟩
  rcases hv w hw _ _ hrest hrest' (List.cons.inj hvalue).2 with ⟨rfl, hback⟩
  exact ⟨rfl, hback⟩

theorem charsMembers_inj {members members' : List (String × Value)} {rest rest' : List Char}
    (hmembers : ∀ m ∈ members, m.2.CutsOff) (hmembers' : ∀ m ∈ members', m.2.Integral)
    (h : charsMembers members ++ '\x7d' :: rest = charsMembers members' ++ '\x7d' :: rest') :
    members = members' ∧ rest = rest' := by
  induction members generalizing members' with
  | nil =>
      cases members' with
      | nil => exact ⟨rfl, (List.cons.inj h).2⟩
      | cons m members' => exact absurd (List.cons.inj h).1 (by decide)
  | cons m members ih =>
      rcases m with ⟨key, v⟩
      cases members' with
      | nil => exact absurd (List.cons.inj h).1 (by decide)
      | cons m' members' =>
          rcases m' with ⟨key', w⟩
          simp only [charsMembers, List.cons_append, List.append_assoc] at h
          rcases member_inj (hmembers _ List.mem_cons_self) (hmembers' _ List.mem_cons_self)
            (stops_charsMembers _ _) (stops_charsMembers _ _)
            (List.cons.inj (List.cons.inj h).2).2 with ⟨heq, hrest⟩
          rcases ih (fun m hm => hmembers m (List.mem_cons_of_mem _ hm))
            (fun m hm => hmembers' m (List.mem_cons_of_mem _ hm)) hrest with ⟨rfl, hback⟩
          exact ⟨by rw [heq], hback⟩

/-- Two arrays, by their items. -/
theorem array_inj {items items' : List Value} {rest rest' : List Char}
    (hcuts : ∀ v ∈ items, v.CutsOff) (hitems : ∀ v ∈ items, v.Integral)
    (hitems' : ∀ w ∈ items', w.Integral)
    (h : (Value.array items).chars ++ rest = (Value.array items').chars ++ rest') :
    items = items' ∧ rest = rest' := by
  cases items with
  | nil =>
      cases items' with
      | nil => exact ⟨rfl, (List.cons.inj (List.cons.inj h).2).2⟩
      | cons w items' =>
          simp only [chars, List.cons_append, List.append_assoc] at h
          exact absurd (List.cons.inj h).2.symm (hitems' w List.mem_cons_self).chars_ne_close
  | cons v items =>
      cases items' with
      | nil =>
          simp only [chars, List.cons_append, List.append_assoc] at h
          exact absurd (List.cons.inj h).2 (hitems v List.mem_cons_self).chars_ne_close
      | cons w items' =>
          -- With a comma in front of the first item, all items look alike.
          have hall : charsItems (v :: items) ++ ']' :: rest =
              charsItems (w :: items') ++ ']' :: rest' := by
            simp only [chars, charsItems, List.cons_append, List.append_assoc, List.nil_append] at h ⊢
            rw [(List.cons.inj h).2]
          exact charsItems_inj hcuts hitems' hall

/-- Two objects, by their members. -/
theorem object_inj {members members' : List (String × Value)} {rest rest' : List Char}
    (hcuts : ∀ m ∈ members, m.2.CutsOff) (hmembers' : ∀ m ∈ members', m.2.Integral)
    (h : (Value.object members).chars ++ rest = (Value.object members').chars ++ rest') :
    members = members' ∧ rest = rest' := by
  cases members with
  | nil =>
      cases members' with
      | nil => exact ⟨rfl, (List.cons.inj (List.cons.inj h).2).2⟩
      | cons m members' => exact absurd (List.cons.inj (List.cons.inj h).2).1 (by decide)
  | cons m members =>
      cases members' with
      | nil => exact absurd (List.cons.inj (List.cons.inj h).2).1 (by decide)
      | cons m' members' =>
          have hall : charsMembers (m :: members) ++ '\x7d' :: rest =
              charsMembers (m' :: members') ++ '\x7d' :: rest' := by
            simp only [chars, charsMembers, List.cons_append, List.append_assoc,
              List.nil_append] at h ⊢
            rw [(List.cons.inj h).2]
          exact charsMembers_inj hcuts hmembers' hall

/-- The characters of a value whose numbers are whole can be cut off from what follows. -/
theorem Integral.cutsOff {v : Value} (h : v.Integral) : v.CutsOff := by
  -- The first character says that the other value is of the same kind.
  induction h with
  | null =>
      intro w hw rest rest' _ _ heq
      have hsort := Integral.null.sort_eq hw heq
      cases hw with
      | null => exact ⟨rfl, List.append_cancel_left heq⟩
      | _ => cases hsort
  | number n =>
      intro w hw rest rest' hrest hrest' heq
      have hsort := (Integral.number n).sort_eq hw heq
      cases hw with
      | number m =>
          rcases toString_int_inj hrest hrest' heq with ⟨rfl, hback⟩
          exact ⟨rfl, hback⟩
      | _ => cases hsort
  | string text =>
      intro w hw rest rest' _ _ heq
      have hsort := (Integral.string text).sort_eq hw heq
      cases hw with
      | string text' =>
          simp only [chars, List.cons_append, List.append_assoc, List.nil_append] at heq
          rcases quotedChars_inj (List.cons.inj heq).2 with ⟨rfl, hback⟩
          exact ⟨rfl, hback⟩
      | _ => cases hsort
  | array hitems ih =>
      intro w hw rest rest' _ _ heq
      have hsort := (Integral.array hitems).sort_eq hw heq
      cases hw with
      | array hitems' =>
          rcases array_inj ih hitems hitems' heq with ⟨rfl, hback⟩
          exact ⟨rfl, hback⟩
      | _ => cases hsort
  | object hmembers ih =>
      intro w hw rest rest' _ _ heq
      have hsort := (Integral.object hmembers).sort_eq hw heq
      cases hw with
      | object hmembers' =>
          rcases object_inj ih hmembers' heq with ⟨rfl, hback⟩
          exact ⟨rfl, hback⟩
      | _ => cases hsort

end Value

/-- Values with the same compact text are equal. -/
theorem compact_inj {v w : Value} (hv : v.Integral) (hw : w.Integral) (h : v.compact = w.compact) :
    v = w := by
  have hchars : v.chars ++ [] = w.chars ++ [] := by
    rw [← Value.toList_compact, ← Value.toList_compact, h]
  exact (hv.cutsOff w hw [] [] stops_nil stops_nil hchars).1

end Json
end FeatureTree
