/-!
# Value — JSON values and their two written forms

A number is kept as the text it is written with, so that the printers never choose digits.  Members of
an object keep their order.

`compact` writes no blanks.  `pretty` gives every item and member a line of its own, indented by two
more blanks than the line that opens the array or object; an empty array or object stays on one line.
-/

namespace FeatureTree
namespace Json

/-- A JSON value. -/
inductive Value where
  | null
  | number (text : String)
  | string (text : String)
  | array (items : List Value)
  | object (members : List (String × Value))

namespace Value

def ofNat (n : Nat) : Value := .number (toString n)

def ofInt (n : Int) : Value := .number (toString n)

end Value

/-! ## Strings -/

/-- A digit of base sixteen, in lower case. -/
def hexDigit (n : Nat) : Char :=
  if n < 10 then Char.ofNat (48 + n) else Char.ofNat (87 + n)

/-- What stands for a character between quotes.  Only the quote, the backslash and the control
characters below the blank are escaped. -/
def escape (c : Char) : String :=
  if c = '"' then "\\\""
  else if c = '\\' then "\\\\"
  else if c = '\n' then "\\n"
  else if c = '\r' then "\\r"
  else if c = '\t' then "\\t"
  else if c.toNat = 8 then "\\b"
  else if c.toNat = 12 then "\\f"
  else if c.toNat < 32 then "\\u00" ++ String.ofList [hexDigit (c.toNat / 16), hexDigit (c.toNat % 16)]
  else c.toString

def quote (s : String) : String :=
  s.toList.foldl (fun text c => text ++ escape c) "\"" ++ "\""

namespace Value

/-! ## Compact form -/

mutual

def compact : Value → String
  | .null => "null"
  | .number text => text
  | .string text => quote text
  | .array [] => "[]"
  | .array (item :: items) => compactItems ("[" ++ compact item) items ++ "]"
  | .object [] => "\x7b\x7d"
  | .object ((key, value) :: members) =>
      compactMembers ("\x7b" ++ quote key ++ ":" ++ compact value) members ++ "\x7d"

/-- The text so far, then further items of an array, each after its comma. -/
def compactItems (text : String) : List Value → String
  | [] => text
  | item :: items => compactItems (text ++ "," ++ compact item) items

/-- The text so far, then further members of an object, each after its comma. -/
def compactMembers (text : String) : List (String × Value) → String
  | [] => text
  | (key, value) :: members =>
      compactMembers (text ++ "," ++ quote key ++ ":" ++ compact value) members

end

/-! ## Indented form -/

/-- A new line that starts with `depth` times two blanks. -/
def newLine (depth : Nat) : String := "\n".pushn ' ' (2 * depth)

mutual

/-- The value on lines of its own, at the given depth. -/
def prettyAt (depth : Nat) : Value → String
  | .null => "null"
  | .number text => text
  | .string text => quote text
  | .array [] => "[]"
  | .array (item :: items) =>
      prettyItems (depth + 1) ("[" ++ newLine (depth + 1) ++ prettyAt (depth + 1) item) items
        ++ newLine depth ++ "]"
  | .object [] => "\x7b\x7d"
  | .object ((key, value) :: members) =>
      prettyMembers (depth + 1)
        ("\x7b" ++ newLine (depth + 1) ++ quote key ++ ": " ++ prettyAt (depth + 1) value) members
        ++ newLine depth ++ "\x7d"

/-- The text so far, then further items of an array at the given depth. -/
def prettyItems (depth : Nat) (text : String) : List Value → String
  | [] => text
  | item :: items =>
      prettyItems depth (text ++ "," ++ newLine depth ++ prettyAt depth item) items

/-- The text so far, then further members of an object at the given depth. -/
def prettyMembers (depth : Nat) (text : String) : List (String × Value) → String
  | [] => text
  | (key, value) :: members =>
      prettyMembers depth
        (text ++ "," ++ newLine depth ++ quote key ++ ": " ++ prettyAt depth value) members

end

/-- The value on lines of its own. -/
def pretty (v : Value) : String := prettyAt 0 v

end Value

end Json
end FeatureTree
