import WordSync.Field.Fault

/-!
# Members

A member is a run of bits inside a word, given by its first bit and its number of bits. The
operations read, store, add and subtract inside that run. Storing and the two checked
arithmetic operations refuse a value that would not fit; the wrapping ones keep the value
modulo the size of the member. Every operation computes the new word first and replaces the
old one last, so a refusal leaves the word alone.
-/

namespace WordSync.Field

/-- A run of `bits` bits that starts at bit `offset`. -/
structure Member where
  /-- The position of the lowest bit. -/
  offset : Nat
  /-- The number of bits. -/
  bits : Nat
  deriving DecidableEq

namespace Member

variable {w : Nat}

/-- The largest value that the member can hold. -/
def maximum (m : Member) : Except Fault (BitVec w) := Word.lowMask w m.bits

/-- The bits of the word that belong to the member. -/
def mask (m : Member) : Except Fault (BitVec w) := do
  let top ← m.maximum
  Word.shiftLeft top m.offset

/-- The word in which the member is one and everything else is zero. -/
def one (m : Member) : Except Fault (BitVec w) := Word.shiftLeft 1#w m.offset

/-- The value of the member in a word. -/
def get (m : Member) (word : BitVec w) : Except Fault (BitVec w) := do
  let shifted ← Word.shiftRight word m.offset
  let top ← m.maximum
  return shifted &&& top

/-- Store a value that fits. -/
def set (m : Member) (v : BitVec w) : Edit w Unit := do
  let top ← m.maximum
  Edit.require (v ≤ top) (.tooWide .member v.toNat m.bits)
  let mask ← m.mask
  let word ← Edit.word
  let placed ← Word.shiftLeft v m.offset
  Edit.replace (word &&& ~~~mask ||| placed &&& mask)

/-- Store the low bits of a value. -/
def setWrapped (m : Member) (v : BitVec w) : Edit w Unit := do
  let word ← Edit.word
  let mask ← m.mask
  let top ← m.maximum
  let placed ← Word.shiftLeft (v &&& top) m.offset
  Edit.replace (word &&& ~~~mask ||| placed)

/-- Add a value, provided that the sum fits. -/
def add (m : Member) (v : BitVec w) : Edit w Unit := do
  let top ← m.maximum
  let word ← Edit.word
  let current ← m.get word
  Edit.require (v ≤ top - current) (.aboveMaximum .member v.toNat m.bits)
  let placed ← Word.shiftLeft v m.offset
  Edit.replace (word + placed)

/-- Add a value modulo the size of the member. -/
def addWrapped (m : Member) (v : BitVec w) : Edit w Unit := do
  let mask ← m.mask
  let word ← Edit.word
  let placed ← Word.shiftLeft v m.offset
  Edit.replace (word &&& ~~~mask ||| (word + placed) &&& mask)

/-- Subtract a value that is no larger than the member. -/
def sub (m : Member) (v : BitVec w) : Edit w Unit := do
  let word ← Edit.word
  let current ← m.get word
  Edit.require (v ≤ current) (.belowZero .member v.toNat m.bits)
  let placed ← Word.shiftLeft v m.offset
  Edit.replace (word - placed)

/-- Subtract a value modulo the size of the member. -/
def subWrapped (m : Member) (v : BitVec w) : Edit w Unit := do
  let mask ← m.mask
  let word ← Edit.word
  let placed ← Word.shiftLeft v m.offset
  Edit.replace (word &&& ~~~mask ||| (word - placed) &&& mask)

/-- The text of a member: its layout. -/
def text (m : Member) : String :=
  Text.record "Member" [("offset", toString m.offset), ("bits", toString m.bits)]

end Member

end WordSync.Field
