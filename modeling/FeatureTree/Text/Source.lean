import FeatureTree.Text.Position

/-!
# Source — a text with its line table

A `SourceText` holds the characters of a text and the offsets at which its lines start.  A line ends
after a line feed, and after a carriage return that no line feed follows; so the pair of both ends
one line only.  Offsets count characters (code points), one each.

`SourceText.point` finds the line of an offset by halving the line table, unless it is the first line or
the last one.  Offsets past the end of the text lie on its last line.
-/

namespace FeatureTree

/-! ## Line starts -/

/-- A line ends after `c` when `rest` follows it. -/
def endsLine (c : Char) (rest : List Char) : Bool :=
  c == '\n' || (c == '\r' && rest.head? != some '\n')

/-- Offsets right after the line ends of a text whose first character has offset `offset`. -/
def lineStartsFrom (offset : Nat) : List Char → List Nat
  | [] => []
  | c :: rest =>
      if endsLine c rest then (offset + 1) :: lineStartsFrom (offset + 1) rest
      else lineStartsFrom (offset + 1) rest

/-- Offsets at which the lines of a text start; the first line starts at zero. -/
def lineStarts (text : List Char) : List Nat := 0 :: lineStartsFrom 0 text

/-- Number of entries up to `offset`, for a sorted table whose entries below `lo` are not past it
and whose entries from `hi` on are. -/
def countUpTo (starts : Array Nat) (offset lo hi : Nat) : Nat :=
  if lo < hi then
    let mid := (lo + hi) / 2
    if starts.getD mid 0 ≤ offset then countUpTo starts offset (mid + 1) hi
    else countUpTo starts offset lo mid
  else lo
termination_by hi - lo

/-! ## Texts -/

/-- The characters of a text and the offsets at which its lines start. -/
structure SourceText where
  chars : Array Char
  starts : Array Nat

namespace SourceText

/-- The text made of the given characters. -/
def ofList (text : List Char) : SourceText where
  chars := text.toArray
  starts := (lineStarts text).toArray

def ofString (text : String) : SourceText := ofList text.toList

def length (text : SourceText) : Nat := text.chars.size

def isEmpty (text : SourceText) : Bool := text.chars.isEmpty

/-- The character at an offset, if the text reaches that far. -/
def char? (text : SourceText) (offset : Nat) : Option Char := text.chars[offset]?

/-- Number of lines; an empty text has one. -/
def lineCount (text : SourceText) : Nat := text.starts.size

/-- The offset at which a line starts; lines count from one. -/
def lineStart? (text : SourceText) : Nat → Option Nat
  | 0 => none
  | line + 1 => text.starts[line]?

/-- The line on which an offset lies.  Only lines between the first and the last are searched for. -/
def lineOf (text : SourceText) (offset : Nat) : Nat :=
  let count := text.starts.size
  if count = 1 ∨ offset < text.starts.getD 1 0 then 1
  else if text.starts.getD (count - 1) 0 ≤ offset then count
  else countUpTo text.starts offset 0 count

/-- The offset at which the line of an offset starts. -/
def startOf (text : SourceText) (offset : Nat) : Nat := text.starts.getD (text.lineOf offset - 1) 0

/-- The point of an offset, for every offset that is a machine word. -/
def point (text : SourceText) (offset : Nat) : Point :=
  ⟨text.lineOf offset, addWords (offset - text.startOf offset) 1, offset⟩

def position (text : SourceText) (start stop : Nat) : Position :=
  ⟨text.point start, text.point stop⟩

end SourceText

end FeatureTree
