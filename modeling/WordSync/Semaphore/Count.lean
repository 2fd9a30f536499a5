import WordSync.Kernel.Basic

/-!
# The count of a semaphore

The whole state of a semaphore outside the kernel is one signed 64-bit count. When it is not
negative it is the number of tokens that can be taken at once; when it is negative its size is
the number of threads that have registered to wait. The count itself wraps around, but the
arithmetic on values read from it is checked.
-/

namespace WordSync.Semaphore

/-- Why an operation on a semaphore failed. -/
inductive Fault where
  /-- A semaphore was to be made with more tokens than the count can hold. -/
  | initialTooLarge (initial : Nat)
  /-- No token at all was signalled. -/
  | signalNotPositive
  /-- A number does not fit where it was to be put. -/
  | overflow
  /-- The kernel semaphore failed. -/
  | kernel (fault : Kernel.Fault)
  /-- The operation was given up before it was over. -/
  | unfinished
  deriving DecidableEq

/-- The message of a fault that has one. -/
def Fault.message? : Fault → Option String
  | .initialTooLarge initial => some ("initial count " ++ toString initial ++ " exceeds isize::MAX")
  | .signalNotPositive => some "signal count must be positive"
  | .kernel (.fatal call error) => some (Kernel.Fault.fatalMessage call error)
  | _ => none

namespace Count

/-- The largest count. -/
def limit : Nat := 0x7fffffffffffffff

/-- Amounts of tokens are numbers below this limit. -/
def amountLimit : Nat := 0x10000000000000000

/-- An amount of tokens as a count; what is larger than every count becomes the largest. -/
def clamp (n : Nat) : Int64 := if n ≤ limit then .ofNat n else .maxValue

/-- A number as a count, if it is one. -/
def checked (n : Int) : Except Fault Int64 :=
  if -limit - 1 ≤ n ∧ n ≤ limit then .ok (.ofInt n) else .error .overflow

/-- The sum of two counts. -/
def add (a b : Int64) : Except Fault Int64 := checked (a.toInt + b.toInt)

/-- The difference of two counts. -/
def sub (a b : Int64) : Except Fault Int64 := checked (a.toInt - b.toInt)

/-- The negative of a count. -/
def neg (a : Int64) : Except Fault Int64 := checked (-a.toInt)

/-- A count as an amount of tokens: the same 64 bits, read without a sign. -/
def amount (a : Int64) : Nat := a.toUInt64.toNat

/-- The sum of two amounts. -/
def addAmounts (a b : Nat) : Except Fault Nat :=
  if a + b < amountLimit then .ok (a + b) else .error .overflow

/-- The tokens that a count has on offer. -/
def available (a : Int64) : Nat := if 0 < a then amount a else 0

end Count

end WordSync.Semaphore
