/-!
# Machine words

A packed value lives in one unsigned machine word, a `BitVec` of one of five widths. The
operations here are those that can fail: a mask needs a bit of the word left over, a shift
must stay below the width, and positions inside a word are themselves 32-bit numbers.
Everything else that packed fields need (conjunction, disjunction, complement, addition and
subtraction modulo the word) is total and taken from `BitVec` as it is.
-/

namespace WordSync

/-- The kinds of machine word that hold packed values. -/
inductive Width where
  /-- A word of 8 bits. -/
  | w8
  /-- A word of 16 bits. -/
  | w16
  /-- A word of 32 bits. -/
  | w32
  /-- A word of 64 bits. -/
  | w64
  /-- A word as wide as an address. -/
  | address
  deriving DecidableEq

/-- The number of bits in a word. Addresses have 64. -/
def Width.bits : Width → Nat
  | .w8 => 8
  | .w16 => 16
  | .w32 => 32
  | .w64 => 64
  | .address => 64

/-- The number of bytes that a word occupies. -/
def Width.bytes (k : Width) : Nat := k.bits / 8

/-- No word is wider than 64 bits. -/
theorem Width.bits_le (k : Width) : k.bits ≤ 64 := by
  cases k <;> decide

namespace Word

/-- The ways in which a word operation fails. -/
inductive Fault where
  /-- A mask was asked for that would leave no bit of the word outside it. -/
  | assertion
  /-- A shift by the whole width or more, or a position that is no 32-bit number. -/
  | overflow
  deriving DecidableEq

/-- `v` moved up by `n` bits; the bits that leave the word are lost. -/
def shiftLeft {w : Nat} (v : BitVec w) (n : Nat) : Except Fault (BitVec w) :=
  if n < w then .ok (v <<< n) else .error .overflow

/-- `v` moved down by `n` bits, filling with zeros. -/
def shiftRight {w : Nat} (v : BitVec w) (n : Nat) : Except Fault (BitVec w) :=
  if n < w then .ok (v >>> n) else .error .overflow

/-- The word whose low `n` bits are set, for `n` below the width. -/
def lowMask (w n : Nat) : Except Fault (BitVec w) :=
  if n < w then do
    let bit ← shiftLeft 1#w n
    return bit - 1#w
  else .error .assertion

/-- Positions and widths inside a word are numbers below this limit. -/
def positionLimit : Nat := 0x100000000

/-- The sum of two positions. -/
def addPosition (a b : Nat) : Except Fault Nat :=
  if a + b < positionLimit then .ok (a + b) else .error .overflow

/-- The product of two positions. -/
def mulPosition (a b : Nat) : Except Fault Nat :=
  if a * b < positionLimit then .ok (a * b) else .error .overflow

/-- The low mask of a width below that of the word is one less than a power of two. -/
theorem lowMask_eq_ok {w n : Nat} (h : n < w) : lowMask w n = .ok (1#w <<< n - 1#w) := by
  simp [lowMask, shiftLeft, h, bind, Except.bind, pure, Except.pure]

end Word

end WordSync
