import WordSync.Text
import WordSync.Word

/-!
# Faults of field operations

A field operation fails in one of two ways. It may break its contract with the caller: the
value does not fit, the sum or the difference leaves the field, or the index lies outside the
row. Or the arithmetic below it may fail, which no accepted layout allows.
-/

namespace WordSync.Field

/-- What kind of field an operation worked on, as its fault messages name it. -/
inductive Place where
  /-- A single member. -/
  | member
  /-- One element of a row. -/
  | element
  deriving DecidableEq

/-- The words for a place in a message. -/
def Place.text : Place → String
  | .member => "member"
  | .element => "array element"

/-- The contracts that a caller of a field operation can break. -/
inductive Violation where
  /-- The value to be stored needs more bits than the field has. -/
  | tooWide (place : Place) (value bits : Nat)
  /-- The sum of field and value needs more bits than the field has. -/
  | aboveMaximum (place : Place) (value bits : Nat)
  /-- The value to be taken away is larger than what the field holds. -/
  | belowZero (place : Place) (value bits : Nat)
  /-- The row has no element at the index. -/
  | index (i count : Nat)
  deriving DecidableEq

/-- The message of a broken contract: values in hexadecimal, widths and indices in decimal. -/
def Violation.message : Violation → String
  | .tooWide place value bits =>
    "value " ++ Text.hexadecimal value ++ " does not fit in " ++ toString bits ++ "-bit " ++
      place.text
  | .aboveMaximum place value bits =>
    "adding " ++ Text.hexadecimal value ++ " overflows " ++ toString bits ++ "-bit " ++ place.text
  | .belowZero place value bits =>
    "subtracting " ++ Text.hexadecimal value ++ " underflows " ++ toString bits ++ "-bit " ++
      place.text
  | .index i count =>
    "bitfield array index " ++ toString i ++ " out of range 0.." ++ toString count

/-- Why a field operation failed. -/
inductive Fault where
  /-- The word arithmetic under the operation failed. -/
  | word (fault : Word.Fault)
  /-- The caller broke the contract of the operation. -/
  | contract (violation : Violation)
  deriving DecidableEq

/-- A failure of the word arithmetic is a failure of the field operation above it. -/
instance : MonadLift (Except Word.Fault) (Except Fault) where
  monadLift := Except.mapError .word

/-- A change of the backing word. It sees the word, may replace it, and answers or fails; the
word that a failed change leaves behind is part of the outcome. -/
abbrev Edit (w : Nat) := EStateM Fault (BitVec w)

/-- A computation that does not touch the word is a change that leaves it alone. -/
instance {w : Nat} : MonadLift (Except Fault) (Edit w) where
  monadLift
    | .ok value => fun word => .ok value word
    | .error fault => fun word => .error fault word

namespace Edit

variable {w : Nat}

/-- The word as it stands. -/
def word : Edit w (BitVec w) := fun word => .ok word word

/-- Put another word in place of the old one. -/
def replace (word : BitVec w) : Edit w Unit := fun _ => .ok () word

/-- Fail with `violation` unless the condition holds. -/
def require (condition : Prop) [Decidable condition] (violation : Violation) : Edit w Unit :=
  fun word => if condition then .ok () word else .error (.contract violation) word

/-- The word after a change, whether the change succeeded or failed. -/
def wordAfter {α : Type} (edit : Edit w α) (word : BitVec w) : BitVec w :=
  match edit word with
  | .ok _ word' => word'
  | .error _ word' => word'

/-- The answer of a change, or its fault. -/
def answer {α : Type} (edit : Edit w α) (word : BitVec w) : Except Fault α :=
  match edit word with
  | .ok value _ => .ok value
  | .error fault _ => .error fault

end Edit

end WordSync.Field
