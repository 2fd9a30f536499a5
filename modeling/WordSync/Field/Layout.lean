import WordSync.Field.Member
import WordSync.Field.Row

/-!
# Layouts

A descriptor may be used with a word only if its layout is accepted. The checks run in a fixed
order and the first one that fails is reported: the width is positive, one field does not fill
the whole word, the end of the field can be computed at all, and the end lies inside the word.
-/

namespace WordSync.Field

/-- Why a layout is refused. -/
inductive LayoutFault where
  /-- The field has no bits. -/
  | empty (place : Place)
  /-- One field would take every bit of the word. -/
  | fills (place : Place)
  /-- The end of the field is no 32-bit number. -/
  | overflow
  /-- The field reaches past the end of the word. -/
  | exceeds (place : Place)
  deriving DecidableEq

/-- The reason given for refusing a layout. -/
def LayoutFault.reason : LayoutFault → String
  | .empty place => "bitfield " ++ place.text ++ " must be at least one bit wide"
  | .fills place => "can't fill entire bitfield with one " ++ place.text
  | .overflow => "overflow"
  | .exceeds .member => "member exceeds bitfield boundaries"
  | .exceeds .element => "array exceeds bitfield boundaries"

/-- The end of a field, where it can be computed. -/
def checkedEnd (computed : Except Word.Fault Nat) : Except LayoutFault Nat :=
  computed.mapError fun _ => .overflow

/-- Check the layout of a member in a word of `w` bits. -/
def Member.checkLayout (m : Member) (w : Nat) : Except LayoutFault Unit := do
  if m.bits = 0 then .error (.empty .member)
  if w ≤ m.bits then .error (.fills .member)
  let last ← checkedEnd (Word.addPosition m.offset m.bits)
  if w < last then .error (.exceeds .member)

/-- Check the layout of a row in a word of `w` bits. -/
def Row.checkLayout (r : Row) (w : Nat) : Except LayoutFault Unit := do
  if r.bits = 0 then .error (.empty .element)
  if w ≤ r.bits then .error (.fills .element)
  let extent ← checkedEnd (Word.mulPosition r.bits r.count)
  let last ← checkedEnd (Word.addPosition r.base extent)
  if w < last then .error (.exceeds .element)

/-- A member that has its place in a word of `w` bits: at least one bit, not all of them, and
none outside the word. -/
def Member.Fits (m : Member) (w : Nat) : Prop :=
  0 < m.bits ∧ m.bits < w ∧ m.offset + m.bits ≤ w

/-- A row whose elements all have their place in a word of `w` bits. -/
def Row.Fits (r : Row) (w : Nat) : Prop :=
  0 < r.bits ∧ r.bits < w ∧ r.base + r.bits * r.count ≤ w

instance (m : Member) (w : Nat) : Decidable (m.Fits w) :=
  inferInstanceAs (Decidable (_ ∧ _ ∧ _))

instance (r : Row) (w : Nat) : Decidable (r.Fits w) :=
  inferInstanceAs (Decidable (_ ∧ _ ∧ _))

end WordSync.Field
