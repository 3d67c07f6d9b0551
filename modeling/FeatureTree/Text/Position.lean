/-!
# Position — points of a text and the spans between them

A `Point` is a place in a text: line and column count from one, the offset counts characters from
zero.  A `Position` is the span from a start point up to, but not including, an end point.

Every question about spans (`contains`, `encloses`, `cover`) looks at offsets alone.  The order of
points and of positions, in contrast, is the lexicographic one of their fields.

Lines, columns and offsets are machine words.  The definitions follow a build that does not look for
overflow, so a sum or a difference that is no word starts again at the other end; a build that does look
for it stops there.
-/

namespace FeatureTree

/-! ## Machine words -/

/-- The number of machine words, which are the numbers below. -/
def wordSize : Nat := UInt64.size

def addWords (a b : Nat) : Nat := (a + b) % wordSize

def subWords (a b : Nat) : Nat := (a + (wordSize - b)) % wordSize

theorem addWords_eq_iff {a b : Nat} : addWords a b = a + b ↔ a + b < wordSize :=
  Nat.mod_eq_iff_lt (by decide)

/-! ## Points -/

/-- A place in a text. -/
structure Point where
  line : Nat
  column : Nat
  offset : Nat
  deriving DecidableEq, Repr

namespace Point

/-- Lines are compared first, then columns, then offsets. -/
def order (a b : Point) : Ordering :=
  (compare a.line b.line).then ((compare a.column b.column).then (compare a.offset b.offset))

instance : Ord Point := ⟨order⟩

instance : LT Point := ⟨fun a b => order a b = .lt⟩

instance (a b : Point) : Decidable (a < b) :=
  inferInstanceAs (Decidable (order a b = .lt))

end Point

/-! ## Spans -/

/-- The span from `start` up to, but not including, `stop`. -/
structure Position where
  start : Point
  stop : Point
  deriving DecidableEq, Repr

namespace Position

def emptyAt (p : Point) : Position := ⟨p, p⟩

/-- Number of characters of a span; it is what it seems if the span does not end before it starts. -/
def length (p : Position) : Nat := subWords p.stop.offset p.start.offset

/-- A span is empty if it ends where it starts. -/
def isEmpty (p : Position) : Bool := p.start.offset == p.stop.offset

def contains (p : Position) (offset : Nat) : Bool :=
  p.start.offset ≤ offset && offset < p.stop.offset

/-- The other span lies in this one, borders included. -/
def encloses (p q : Position) : Bool :=
  p.start.offset ≤ q.start.offset && q.stop.offset ≤ p.stop.offset

/-- The least span around both; where both agree on a border's offset, `p`'s point is kept. -/
def cover (p q : Position) : Position where
  start := if p.start.offset ≤ q.start.offset then p.start else q.start
  stop := if q.stop.offset ≤ p.stop.offset then p.stop else q.stop

/-- Start points are compared first, then end points. -/
def order (p q : Position) : Ordering :=
  (compare p.start q.start).then (compare p.stop q.stop)

instance : Ord Position := ⟨order⟩

end Position

end FeatureTree
