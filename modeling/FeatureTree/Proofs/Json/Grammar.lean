import FeatureTree.Json.Reader
import FeatureTree.Json.Value
import Mathlib.Data.List.Basic

/-!
# Grammar — the compact form is JSON text

`Grammar.IsText` says that a list of characters is one JSON text: a value with blanks around it, where
blanks may also stand around everything inside of an array or an object.  It is stated over characters
and knows nothing of `Value`.

`isText_compact` says that the compact form of a value belongs to the grammar if the numbers of the value
are whole numbers in decimal.  Its characters, without the accumulators of the printer, are
`Value.chars`.
-/

namespace FeatureTree
namespace Json

/-! ## JSON text -/

namespace Grammar

/-- Blanks between the parts of a text. -/
def Blank (text : List Char) : Prop := ∀ c ∈ text, c ∈ [' ', '\t', '\n', '\r']

def IsDigit (c : Char) : Prop := '0' ≤ c ∧ c ≤ '9'

def IsHexDigit (c : Char) : Prop := IsDigit c ∨ ('a' ≤ c ∧ c ≤ 'f') ∨ ('A' ≤ c ∧ c ≤ 'F')

instance (c : Char) : Decidable (IsDigit c) := inferInstanceAs (Decidable (_ ∧ _))

instance (c : Char) : Decidable (IsHexDigit c) := inferInstanceAs (Decidable (_ ∨ _))

/-- The digits in front of a point; no zero comes first, unless it is the only digit. -/
inductive Whole : List Char → Prop where
  | zero : Whole ['0']
  | run {d : Char} {ds : List Char} (hd : IsDigit d) (hzero : d ≠ '0') (hds : ∀ c ∈ ds, IsDigit c) :
      Whole (d :: ds)

inductive Fraction : List Char → Prop where
  | none : Fraction []
  | digits {ds : List Char} (hne : ds ≠ []) (hds : ∀ c ∈ ds, IsDigit c) : Fraction ('.' :: ds)

inductive Exponent : List Char → Prop where
  | none : Exponent []
  | digits {e : Char} {sign ds : List Char} (he : e = 'e' ∨ e = 'E')
      (hsign : sign = [] ∨ sign = ['+'] ∨ sign = ['-']) (hne : ds ≠ [])
      (hds : ∀ c ∈ ds, IsDigit c) : Exponent (e :: (sign ++ ds))

inductive Number : List Char → Prop where
  | positive {whole fraction exponent : List Char} (hwhole : Whole whole)
      (hfraction : Fraction fraction) (hexponent : Exponent exponent) :
      Number (whole ++ fraction ++ exponent)
  | negative {whole fraction exponent : List Char} (hwhole : Whole whole)
      (hfraction : Fraction fraction) (hexponent : Exponent exponent) :
      Number ('-' :: (whole ++ fraction ++ exponent))

/-- What may stand between quotes. -/
inductive Quotable : List Char → Prop where
  | nil : Quotable []
  | plain {c : Char} {rest : List Char} (hquote : c ≠ '"') (hslash : c ≠ '\\')
      (hcontrol : 32 ≤ c.toNat) (hrest : Quotable rest) : Quotable (c :: rest)
  | short {c : Char} {rest : List Char} (hc : c ∈ ['"', '\\', '/', 'b', 'f', 'n', 'r', 't'])
      (hrest : Quotable rest) : Quotable ('\\' :: c :: rest)
  | unit {a b c d : Char} {rest : List Char} (ha : IsHexDigit a) (hb : IsHexDigit b)
      (hc : IsHexDigit c) (hd : IsHexDigit d) (hrest : Quotable rest) :
      Quotable ('\\' :: 'u' :: a :: b :: c :: d :: rest)

mutual

/-- A value without blanks around it. -/
inductive IsValue : List Char → Prop where
  | word {text : List Char}
      (h : text ∈ [['n', 'u', 'l', 'l'], ['t', 'r', 'u', 'e'], ['f', 'a', 'l', 's', 'e']]) :
      IsValue text
  | number {text : List Char} (h : Number text) : IsValue text
  | string {text : List Char} (h : Quotable text) : IsValue ('"' :: (text ++ ['"']))
  | emptyArray {blank : List Char} (h : Blank blank) : IsValue ('[' :: (blank ++ [']']))
  | array {items : List Char} (h : Items items) : IsValue ('[' :: (items ++ [']']))
  | emptyObject {blank : List Char} (h : Blank blank) : IsValue ('\x7b' :: (blank ++ ['\x7d']))
  | object {members : List Char} (h : Members members) :
      IsValue ('\x7b' :: (members ++ ['\x7d']))

/-- A value with blanks around it. -/
inductive Element : List Char → Prop where
  | pad {before value after : List Char} (hbefore : Blank before) (hvalue : IsValue value)
      (hafter : Blank after) : Element (before ++ (value ++ after))

/-- One or more values with commas between them. -/
inductive Items : List Char → Prop where
  | last {item : List Char} (h : Element item) : Items item
  | more {item rest : List Char} (h : Element item) (hrest : Items rest) : Items (item ++ ',' :: rest)

/-- A name with its value. -/
inductive Member : List Char → Prop where
  | pair {before name after value : List Char} (hbefore : Blank before) (hname : Quotable name)
      (hafter : Blank after) (hvalue : Element value) :
      Member (before ++ '"' :: (name ++ '"' :: (after ++ ':' :: value)))

/-- One or more names with values, and commas between them. -/
inductive Members : List Char → Prop where
  | last {member : List Char} (h : Member member) : Members member
  | more {member rest : List Char} (h : Member member) (hrest : Members rest) :
      Members (member ++ ',' :: rest)

end

/-- One JSON text. -/
def IsText (text : List Char) : Prop := Element text

theorem blank_nil : Blank [] := fun _ hc => nomatch hc

theorem IsValue.element {text : List Char} (h : IsValue text) : Element text := by
  have hpad := Element.pad blank_nil h blank_nil
  rwa [List.nil_append, List.append_nil] at hpad

theorem Quotable.member {name value : List Char} (hname : Quotable name) (hvalue : Element value) :
    Member ('"' :: (name ++ '"' :: ':' :: value)) :=
  .pair blank_nil hname blank_nil hvalue

end Grammar

/-! ## The characters of the compact form -/

/-- The characters of a string without its quotes. -/
def quotedChars (s : String) : List Char := s.toList.flatMap fun c => (escape c).toList

theorem toList_quote (s : String) : (quote s).toList = '"' :: (quotedChars s ++ ['"']) := by
  have hfold : ∀ (cs : List Char) (text : String),
      (cs.foldl (fun text c => text ++ escape c) text).toList =
        text.toList ++ cs.flatMap fun c => (escape c).toList := by
    intro cs
    induction cs with
    | nil => exact fun text => (List.append_nil _).symm
    | cons c cs ih =>
        intro text
        rw [List.foldl_cons, ih, String.toList_append, List.flatMap_cons, List.append_assoc]
  rw [quote, String.toList_append, hfold]
  rfl

namespace Value

mutual

/-- The characters of the compact form. -/
def chars : Value → List Char
  | .null => ['n', 'u', 'l', 'l']
  | .number text => text.toList
  | .string text => '"' :: (quotedChars text ++ ['"'])
  | .array [] => ['[', ']']
  | .array (item :: items) => '[' :: (chars item ++ (charsItems items ++ [']']))
  | .object [] => ['\x7b', '\x7d']
  | .object ((key, value) :: members) =>
      '\x7b' :: '"' :: (quotedChars key ++ '"' :: ':' :: (chars value ++
        (charsMembers members ++ ['\x7d'])))

/-- The characters of further items. -/
def charsItems : List Value → List Char
  | [] => []
  | item :: items => ',' :: (chars item ++ charsItems items)

/-- The characters of further members. -/
def charsMembers : List (String × Value) → List Char
  | [] => []
  | (key, value) :: members =>
      ',' :: '"' :: (quotedChars key ++ '"' :: ':' :: (chars value ++ charsMembers members))

end

mutual

theorem toList_compact : ∀ v : Value, v.compact.toList = v.chars
  | .null => rfl
  | .number _ => rfl
  | .string text => toList_quote text
  | .array [] => rfl
  | .array (item :: items) => by
      rw [compact, String.toList_append, toList_compactItems, String.toList_append,
        toList_compact item, chars]
      simp
  | .object [] => rfl
  | .object ((key, value) :: members) => by
      rw [compact, String.toList_append, toList_compactMembers, String.toList_append,
        String.toList_append, String.toList_append, toList_compact value, toList_quote, chars]
      simp

theorem toList_compactItems : ∀ (items : List Value) (text : String),
    (compactItems text items).toList = text.toList ++ charsItems items
  | [], _ => (List.append_nil _).symm
  | item :: items, text => by
      rw [compactItems, toList_compactItems, String.toList_append, String.toList_append,
        toList_compact item, charsItems]
      simp

theorem toList_compactMembers : ∀ (members : List (String × Value)) (text : String),
    (compactMembers text members).toList = text.toList ++ charsMembers members
  | [], _ => (List.append_nil _).symm
  | (key, value) :: members, text => by
      rw [compactMembers, toList_compactMembers, String.toList_append, String.toList_append,
        String.toList_append, String.toList_append, toList_compact value, toList_quote, charsMembers]
      simp

end

/-- Every number in the value is a whole number in decimal. -/
inductive Integral : Value → Prop where
  | null : Integral .null
  | number (n : Int) : Integral (.ofInt n)
  | string (text : String) : Integral (.string text)
  | array {items : List Value} (h : ∀ v ∈ items, Integral v) : Integral (.array items)
  | object {members : List (String × Value)} (h : ∀ m ∈ members, Integral m.2) :
      Integral (.object members)

end Value

/-! ## Numbers -/

open Grammar

theorem isDigit_iff {c : Char} : IsDigit c ↔ c.isDigit = true := by
  simp [IsDigit, Char.isDigit, Char.le_def]

/-- The digits of a positive number do not start with a zero. -/
theorem toDigits_of_pos {n : Nat} (h : 0 < n) :
    ∃ d ds, Nat.toDigits 10 n = d :: ds ∧ d ≠ '0' := by
  -- By induction on the number: its leading digit is the one of its tenth.
  induction n using Nat.strongRecOn with
  | ind n ih =>
      rcases Nat.lt_or_ge n 10 with hlt | hge
      · refine ⟨n.digitChar, [], Nat.toDigits_of_lt_base hlt, fun hzero => ?_⟩
        exact Nat.ne_of_gt h (Nat.digitChar_eq_zero.1 hzero)
      · rcases ih (n / 10) (by omega) (by omega) with ⟨d, ds, hds, hd⟩
        refine ⟨d, ds ++ [(n % 10).digitChar], ?_, hd⟩
        rw [Nat.toDigits_of_base_le (by decide) hge, hds]
        rfl

theorem isDigit_of_mem_toDigits {n : Nat} {c : Char} (hc : c ∈ Nat.toDigits 10 n) : IsDigit c :=
  isDigit_iff.2 (Nat.isDigit_of_mem_toDigits (by decide) (by decide) hc)

theorem whole_toDigits (n : Nat) : Whole (Nat.toDigits 10 n) := by
  rcases Nat.eq_zero_or_pos n with rfl | hpos
  · rw [Nat.toDigits_zero]
    exact .zero
  · have hdigits := fun c => isDigit_of_mem_toDigits (n := n) (c := c)
    rcases toDigits_of_pos hpos with ⟨d, ds, hds, hd⟩
    rw [hds] at hdigits ⊢
    exact .run (hdigits d List.mem_cons_self) hd fun c hc => hdigits c (List.mem_cons_of_mem _ hc)

/-- A whole number is written as digits, perhaps with a minus in front. -/
theorem toList_toString_int (n : Int) :
    (0 ≤ n ∧ (toString n).toList = Nat.toDigits 10 n.toNat) ∨
      (n < 0 ∧ (toString n).toList = '-' :: Nat.toDigits 10 (-n).toNat) := by
  rw [Int.toString_eq_repr, Int.repr_eq_if]
  split
  · next hn => exact .inl ⟨hn, Nat.toList_repr⟩
  · next hn =>
      refine .inr ⟨Int.not_le.1 hn, ?_⟩
      rw [String.toList_append, Nat.toList_repr]
      rfl

theorem number_toString (n : Int) : Number (toString n).toList := by
  have hdigits : ∀ m : Nat, Nat.toDigits 10 m = Nat.toDigits 10 m ++ [] ++ [] := by simp
  rcases toList_toString_int n with ⟨-, heq⟩ | ⟨-, heq⟩
  · rw [heq, hdigits]
    exact .positive (whole_toDigits _) .none .none
  · rw [heq, hdigits]
    exact .negative (whole_toDigits _) .none .none

/-! ## Strings -/

theorem isHexDigit_hexDigit : ∀ n < 16, IsHexDigit (hexDigit n) := by decide

/-- How a character is written between quotes: by a letter behind a backslash, by its number, or as it
is. -/
inductive Escapes (c : Char) : List Char → Prop where
  | letter {l : Char} (h : Raw.escaped? l = some c) : Escapes c ['\\', l]
  | unit (hcontrol : c.toNat < 32) :
      Escapes c ['\\', 'u', '0', '0', hexDigit (c.toNat / 16), hexDigit (c.toNat % 16)]
  | plain (hquote : c ≠ '"') (hslash : c ≠ '\\') (hcontrol : 32 ≤ c.toNat) : Escapes c [c]

theorem escapes_escape (c : Char) : Escapes c (escape c).toList := by
  have hnumber : ∀ n, c.toNat = n → Char.ofNat n = c := by
    rintro n rfl
    exact Char.ofNat_toNat c
  -- First the characters that have a letter, then the other control characters, then the rest.
  unfold escape
  split
  · next h => exact .letter (h ▸ rfl)
  split
  · next h => exact .letter (h ▸ rfl)
  split
  · next h => exact .letter (h ▸ rfl)
  split
  · next h => exact .letter (h ▸ rfl)
  split
  · next h => exact .letter (h ▸ rfl)
  split
  · next h => exact .letter (congrArg some (hnumber 8 h))
  split
  · next h => exact .letter (congrArg some (hnumber 12 h))
  split
  · next h =>
      rw [String.toList_append]
      simp only [String.toList_ofList]
      exact .unit h
  · next hquote hslash _ _ _ _ _ hcontrol =>
      have hself : c.toString.toList = [c] := by simp
      rw [hself]
      exact .plain hquote hslash (Nat.not_lt.1 hcontrol)

theorem mem_of_escaped? {l c : Char} (h : Raw.escaped? l = some c) :
    l ∈ ['"', '\\', '/', 'b', 'f', 'n', 'r', 't'] := by
  unfold Raw.escaped? at h
  split at h
  · next hself => rcases hself with rfl | rfl | rfl <;> decide
  repeat'
    split at h
    · next heq =>
        subst heq
        decide
  cases h

/-- How a character is escaped belongs to the grammar. -/
theorem Escapes.quotable {c : Char} {text rest : List Char} (h : Escapes c text)
    (hrest : Quotable rest) : Quotable (text ++ rest) := by
  have hzero : IsHexDigit '0' := by decide
  cases h with
  | letter hl => exact .short (mem_of_escaped? hl) hrest
  | unit hcontrol =>
      have hhigh := isHexDigit_hexDigit (c.toNat / 16) (by omega)
      have hlow := isHexDigit_hexDigit (c.toNat % 16) (Nat.mod_lt _ (by decide))
      exact .unit hzero hzero hhigh hlow hrest
  | plain hquote hslash hcontrol => exact .plain hquote hslash hcontrol hrest

theorem quotable_quotedChars (s : String) : Quotable (quotedChars s) := by
  unfold quotedChars
  induction s.toList with
  | nil => exact .nil
  | cons c cs ih =>
      rw [List.flatMap_cons]
      exact (escapes_escape c).quotable ih

/-! ## Values -/

theorem items_chars {first : List Char} {items : List Value} (hfirst : Element first)
    (hitems : ∀ v ∈ items, IsValue v.chars) : Items (first ++ Value.charsItems items) := by
  induction items generalizing first with
  | nil =>
      rw [Value.charsItems, List.append_nil]
      exact .last hfirst
  | cons item items ih =>
      rw [Value.charsItems]
      refine .more hfirst (ih (hitems item List.mem_cons_self).element ?_)
      exact fun v hv => hitems v (List.mem_cons_of_mem _ hv)

theorem members_chars {first : List Char} {members : List (String × Value)} (hfirst : Member first)
    (hmembers : ∀ m ∈ members, IsValue m.2.chars) :
    Members (first ++ Value.charsMembers members) := by
  induction members generalizing first with
  | nil =>
      rw [Value.charsMembers, List.append_nil]
      exact .last hfirst
  | cons m members ih =>
      rcases m with ⟨key, value⟩
      have hmember := (quotable_quotedChars key).member (hmembers _ List.mem_cons_self).element
      have hrest := ih hmember fun m hm => hmembers m (List.mem_cons_of_mem _ hm)
      rw [Value.charsMembers]
      refine .more hfirst ?_
      simpa using hrest

theorem isValue_chars {v : Value} (h : v.Integral) : IsValue v.chars := by
  induction h with
  | null => exact .word (by simp [Value.chars])
  | number n => exact .number (number_toString n)
  | string text => exact .string (quotable_quotedChars text)
  | @array items _ ih =>
      cases items with
      | nil => exact .emptyArray blank_nil
      | cons item items =>
          have hitems := items_chars (ih item List.mem_cons_self).element
            fun v hv => ih v (List.mem_cons_of_mem _ hv)
          rw [Value.chars]
          simpa using IsValue.array hitems
  | @object members _ ih =>
      cases members with
      | nil => exact .emptyObject blank_nil
      | cons m members =>
          rcases m with ⟨key, value⟩
          have hmember := (quotable_quotedChars key).member (ih _ List.mem_cons_self).element
          have hmembers := members_chars hmember fun m hm => ih m (List.mem_cons_of_mem _ hm)
          rw [Value.chars]
          simpa using IsValue.object hmembers

/-- The compact form is one JSON text. -/
theorem isText_compact {v : Value} (h : v.Integral) : IsText v.compact.toList := by
  rw [Value.toList_compact]
  exact (isValue_chars h).element

end Json
end FeatureTree
