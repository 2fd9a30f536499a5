import WordSync.Field.Fault

/-!
# Rows

A row is a sequence of equally wide elements that follow each other in a word. Its operations
are those of a member, at an index. An index outside the row is a broken contract; where the
value is at fault as well, storing complains about the value first, and adding and subtracting
complain about the index first, because they have to read the element.
-/

namespace WordSync.Field

/-- `count` elements of `bits` bits each, the first of which starts at bit `base`. -/
structure Row where
  /-- The position of the lowest bit of the first element. -/
  base : Nat
  /-- The number of bits in each element. -/
  bits : Nat
  /-- The number of elements. -/
  count : Nat
  deriving DecidableEq

namespace Row

variable {w : Nat}

/-- Whether the row has no element. -/
def isEmpty (r : Row) : Bool := r.count == 0

/-- The largest value that an element can hold. -/
def maximum (r : Row) : Except Fault (BitVec w) := Word.lowMask w r.bits

/-- The position of the lowest bit of element `i`. -/
def offset (r : Row) (i : Nat) : Except Fault Nat :=
  if i < r.count then do
    let distance ← Word.mulPosition r.bits i
    Word.addPosition r.base distance
  else .error (.contract (.index i r.count))

/-- The bits of the word that belong to element `i`. -/
def mask (r : Row) (i : Nat) : Except Fault (BitVec w) := do
  let top ← r.maximum
  let offset ← r.offset i
  Word.shiftLeft top offset

/-- The word in which element `i` is one and everything else is zero. -/
def one (r : Row) (i : Nat) : Except Fault (BitVec w) := do
  let offset ← r.offset i
  Word.shiftLeft 1#w offset

/-- The value of element `i` in a word. -/
def get (r : Row) (i : Nat) (word : BitVec w) : Except Fault (BitVec w) := do
  let offset ← r.offset i
  let shifted ← Word.shiftRight word offset
  let top ← r.maximum
  return shifted &&& top

/-- Store a value that fits in element `i`. -/
def set (r : Row) (i : Nat) (v : BitVec w) : Edit w Unit := do
  let top ← r.maximum
  Edit.require (v ≤ top) (.tooWide .element v.toNat r.bits)
  let offset ← r.offset i
  let mask ← Word.shiftLeft top offset
  let word ← Edit.word
  let placed ← Word.shiftLeft v offset
  Edit.replace (word &&& ~~~mask ||| placed &&& mask)

/-- Store the low bits of a value in element `i`. -/
def setWrapped (r : Row) (i : Nat) (v : BitVec w) : Edit w Unit := do
  let offset ← r.offset i
  let word ← Edit.word
  let top ← r.maximum
  let mask ← Word.shiftLeft top offset
  let placed ← Word.shiftLeft (v &&& top) offset
  Edit.replace (word &&& ~~~mask ||| placed)

/-- Add a value to element `i`, provided that the sum fits. -/
def add (r : Row) (i : Nat) (v : BitVec w) : Edit w Unit := do
  let top ← r.maximum
  let word ← Edit.word
  let current ← r.get i word
  Edit.require (v ≤ top - current) (.aboveMaximum .element v.toNat r.bits)
  let offset ← r.offset i
  let placed ← Word.shiftLeft v offset
  Edit.replace (word + placed)

/-- Add a value to element `i` modulo the size of the element. -/
def addWrapped (r : Row) (i : Nat) (v : BitVec w) : Edit w Unit := do
  let offset ← r.offset i
  let top ← r.maximum
  let mask ← Word.shiftLeft top offset
  let word ← Edit.word
  let placed ← Word.shiftLeft v offset
  Edit.replace (word &&& ~~~mask ||| (word + placed) &&& mask)

/-- Subtract a value that is no larger than element `i`. -/
def sub (r : Row) (i : Nat) (v : BitVec w) : Edit w Unit := do
  let word ← Edit.word
  let current ← r.get i word
  Edit.require (v ≤ current) (.belowZero .element v.toNat r.bits)
  let offset ← r.offset i
  let placed ← Word.shiftLeft v offset
  Edit.replace (word - placed)

/-- Subtract a value from element `i` modulo the size of the element. -/
def subWrapped (r : Row) (i : Nat) (v : BitVec w) : Edit w Unit := do
  let offset ← r.offset i
  let top ← r.maximum
  let mask ← Word.shiftLeft top offset
  let word ← Edit.word
  let placed ← Word.shiftLeft v offset
  Edit.replace (word &&& ~~~mask ||| (word - placed) &&& mask)

/-- The text of a row: its layout. -/
def text (r : Row) : String :=
  Text.record "Array"
    [("base", toString r.base), ("bits", toString r.bits), ("count", toString r.count)]

end Row

end WordSync.Field
