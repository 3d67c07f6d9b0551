/-!
# Reader — strict JSON text

`Raw.parse?` accepts one JSON value with blanks around it and nothing else.  The result keeps what a
later reading may need and no more: the text of a number, the characters of a string, and the items or
members in order, repeated names included.

An escaped half of a surrogate pair is well-formed JSON, but spells no character.  A string that holds
one is kept as `none`; it may stand where nobody asks for its characters.
-/

namespace FeatureTree
namespace Json

/-- A value as it was written. -/
inductive Raw where
  | null
  | bool (b : Bool)
  | number (text : List Char)
  | string (text : Option String)
  | array (items : List Raw)
  | object (members : List (Option String × Raw))

namespace Raw

/-! ## Blanks and words -/

/-- The four characters that JSON counts as blank. -/
def isBlank (c : Char) : Bool := c == ' ' || c == '\n' || c == '\r' || c == '\t'

/-- The text after its leading blanks. -/
def skipBlanks (text : List Char) : List Char := text.dropWhile isBlank

/-- The text after a word that it must start with. -/
def after? : (word text : List Char) → Option (List Char)
  | [], text => some text
  | _ :: _, [] => none
  | w :: word, c :: text => if w == c then after? word text else none

/-! ## Numbers -/

def digits (text : List Char) : List Char × List Char := text.span Char.isDigit

/-- One or more digits, and what follows them. -/
def someDigits? (text : List Char) : Option (List Char × List Char) :=
  match digits text with
  | ([], _) => none
  | found => some found

/-- A point with its digits, if there is a point. -/
def fraction? : List Char → Option (List Char × List Char)
  | '.' :: text => (someDigits? text).map fun (ds, rest) => ('.' :: ds, rest)
  | text => some ([], text)

/-- The sign and the digits of an exponent whose letter was read. -/
def exponentDigits? : List Char → Option (List Char × List Char)
  | '+' :: text => (someDigits? text).map fun (ds, rest) => ('+' :: ds, rest)
  | '-' :: text => (someDigits? text).map fun (ds, rest) => ('-' :: ds, rest)
  | text => someDigits? text

def exponent? : List Char → Option (List Char × List Char)
  | 'e' :: text => (exponentDigits? text).map fun (ds, rest) => ('e' :: ds, rest)
  | 'E' :: text => (exponentDigits? text).map fun (ds, rest) => ('E' :: ds, rest)
  | text => some ([], text)

/-- The digits before the point; a leading zero stands alone. -/
def whole? (text : List Char) : Option (List Char × List Char) :=
  match digits text with
  | ([], _) => none
  | ('0' :: _ :: _, _) => none
  | found => some found

def unsigned? (text : List Char) : Option (List Char × List Char) := do
  let (whole, text) ← whole? text
  let (fraction, text) ← fraction? text
  let (exponent, text) ← exponent? text
  return (whole ++ fraction ++ exponent, text)

def number? : List Char → Option (List Char × List Char)
  | '-' :: text => (unsigned? text).map fun (ds, rest) => ('-' :: ds, rest)
  | text => unsigned? text

/-! ## Strings -/

/-- Value of a digit of base sixteen. -/
def hexValue? (c : Char) : Option Nat :=
  if '0' ≤ c ∧ c ≤ '9' then some (c.toNat - 48)
  else if 'a' ≤ c ∧ c ≤ 'f' then some (c.toNat - 87)
  else if 'A' ≤ c ∧ c ≤ 'F' then some (c.toNat - 55)
  else none

/-- Value of four digits of base sixteen. -/
def hexUnit? (a b c d : Char) : Option Nat := do
  let a ← hexValue? a
  let b ← hexValue? b
  let c ← hexValue? c
  let d ← hexValue? d
  return ((a * 16 + b) * 16 + c) * 16 + d

/-- The character that a letter after a backslash stands for. -/
def escaped? (c : Char) : Option Char :=
  if c = '"' ∨ c = '\\' ∨ c = '/' then some c
  else if c = 'b' then some (Char.ofNat 8)
  else if c = 'f' then some (Char.ofNat 12)
  else if c = 'n' then some '\n'
  else if c = 'r' then some '\r'
  else if c = 't' then some '\t'
  else none

/-- What stands between quotes, in order: characters, and code units given by number. -/
inductive Piece where
  | char (c : Char)
  | unit (u : Nat)

/-- The pieces of a string up to its closing quote, and what follows the quote. -/
def pieces? : List Char → Option (List Piece × List Char)
  | [] => none
  | '"' :: rest => some ([], rest)
  | '\\' :: 'u' :: a :: b :: c :: d :: rest => do
      let u ← hexUnit? a b c d
      let (ps, rest) ← pieces? rest
      return (.unit u :: ps, rest)
  | '\\' :: c :: rest => do
      let c ← escaped? c
      let (ps, rest) ← pieces? rest
      return (.char c :: ps, rest)
  | c :: rest =>
      if c.toNat < 32 then none
      else do
        let (ps, rest) ← pieces? rest
        return (.char c :: ps, rest)

/-- The unit is the first half of a pair. -/
def isHighHalf (u : Nat) : Bool := 0xD800 ≤ u && u < 0xDC00

/-- The unit is the second half of a pair. -/
def isLowHalf (u : Nat) : Bool := 0xDC00 ≤ u && u < 0xE000

/-- The characters that pieces spell; none if a half of a pair stands alone. -/
def spell? : List Piece → Option (List Char)
  | [] => some []
  | .char c :: rest => (spell? rest).map (c :: ·)
  | .unit u :: .unit v :: rest =>
      if isHighHalf u then
        if isLowHalf v then
          (spell? rest).map (Char.ofNat (0x10000 + (u - 0xD800) * 0x400 + (v - 0xDC00)) :: ·)
        else none
      else if isLowHalf u then none
      else (spell? (.unit v :: rest)).map (Char.ofNat u :: ·)
  | .unit u :: rest =>
      if isHighHalf u || isLowHalf u then none
      else (spell? rest).map (Char.ofNat u :: ·)

/-- A string whose opening quote was read. -/
def string? (text : List Char) : Option (Option String × List Char) :=
  (pieces? text).map fun (ps, rest) => ((spell? ps).map String.ofList, rest)

/-! ## Values -/

mutual

/-- One value that nests at most `depth` levels, and what follows it. -/
def value? : Nat → List Char → Option (Raw × List Char)
  | 0, _ => none
  | depth + 1, text =>
      match skipBlanks text with
      | '"' :: rest => (string? rest).map fun (s, rest) => (.string s, rest)
      | '[' :: rest =>
          match skipBlanks rest with
          | ']' :: rest => some (.array [], rest)
          | _ => (items? depth rest.length rest).map fun (items, rest) => (.array items, rest)
      | '\x7b' :: rest =>
          match skipBlanks rest with
          | '\x7d' :: rest => some (.object [], rest)
          | _ => (members? depth rest.length rest).map fun (ms, rest) => (.object ms, rest)
      | 'n' :: rest => (after? ['u', 'l', 'l'] rest).map fun rest => (.null, rest)
      | 't' :: rest => (after? ['r', 'u', 'e'] rest).map fun rest => (.bool true, rest)
      | 'f' :: rest => (after? ['a', 'l', 's', 'e'] rest).map fun rest => (.bool false, rest)
      | text => (number? text).map fun (ds, rest) => (.number ds, rest)
termination_by depth _ => (depth, 0)

/-- One or more items up to the closing bracket; `count` bounds their number. -/
def items? (depth : Nat) : Nat → List Char → Option (List Raw × List Char)
  | 0, _ => none
  | count + 1, text => do
      let (item, text) ← value? depth text
      match skipBlanks text with
      | ']' :: rest => return ([item], rest)
      | ',' :: rest =>
          let (items, rest) ← items? depth count rest
          return (item :: items, rest)
      | _ => none
termination_by count _ => (depth, count + 1)

/-- One or more members up to the closing brace; `count` bounds their number. -/
def members? (depth : Nat) : Nat → List Char → Option (List (Option String × Raw) × List Char)
  | 0, _ => none
  | count + 1, text => do
      let '"' :: text := skipBlanks text | none
      let (key, text) ← string? text
      let ':' :: text := skipBlanks text | none
      let (value, text) ← value? depth text
      match skipBlanks text with
      | '\x7d' :: rest => return ([(key, value)], rest)
      | ',' :: rest =>
          let (members, rest) ← members? depth count rest
          return ((key, value) :: members, rest)
      | _ => none
termination_by count _ => (depth, count + 1)

end

/-- The value that a text spells, if the text is nothing but that value and blanks. -/
def parse? (text : String) : Option Raw := do
  let text := text.toList
  let (value, rest) ← value? (text.length + 1) text
  if (skipBlanks rest).isEmpty then some value else none

/-! ## Reading records -/

/-- A whole number below two to the sixty-fourth, written with digits only. -/
def nat? : Raw → Option Nat
  | .number text =>
      if text.all Char.isDigit then
        let n := text.foldl (fun n c => n * 10 + (c.toNat - 48)) 0
        if n < Nat.pow 2 64 then some n else none
      else none
  | _ => none

/-- What a record may be written as: its fields by name, or in order. -/
inductive Record where
  | named (members : List (String × Raw))
  | listed (items : List Raw)

/-- The name of a member, if it spells characters, with its value. -/
def named? (member : Option String × Raw) : Option (String × Raw) :=
  member.1.map fun name => (name, member.2)

/-- Reads a value as a record.  Every name must spell characters. -/
def record? : Raw → Option Record
  | .array items => some (.listed items)
  | .object members => (members.mapM named?).map .named
  | _ => none

/-- The value of a field, which may be absent but must not be repeated. -/
def optional? (members : List (String × Raw)) (name : String) : Option (Option Raw) :=
  match members.filter fun m => m.1 == name with
  | [] => some none
  | [(_, value)] => some (some value)
  | _ => none

/-- The value of a field that occurs exactly once. -/
def required? (members : List (String × Raw)) (name : String) : Option Raw :=
  (optional? members name).join

end Raw

end Json
end FeatureTree
