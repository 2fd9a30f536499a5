import WordSync.Field.Elements
import WordSync.Field.Layout

/-!
# Descriptors and targets

A descriptor is the shape of a field as it is declared: a member or a row. A target is what one
operation works on: a member, or one element of a row.
-/

namespace WordSync.Field

/-- The shape of a declared field. -/
inductive Descriptor where
  /-- A single member. -/
  | member (m : Member)
  /-- A row of elements. -/
  | row (r : Row)
  deriving DecidableEq

/-- A single field: a member, or one element of a row. -/
inductive Target where
  /-- A member. -/
  | member (m : Member)
  /-- The element of a row at an index. -/
  | element (r : Row) (i : Nat)
  deriving DecidableEq

variable {w : Nat}

namespace Target

/-- The position of the lowest bit. -/
def offset : Target → Except Fault Nat
  | .member m => .ok m.offset
  | .element r i => r.offset i

/-- The bits of the word that belong to the field. -/
def mask : Target → Except Fault (BitVec w)
  | .member m => m.mask
  | .element r i => r.mask i

/-- The word in which the field is one and everything else is zero. -/
def one : Target → Except Fault (BitVec w)
  | .member m => m.one
  | .element r i => r.one i

/-- The value of the field. -/
def get (target : Target) (word : BitVec w) : Except Fault (BitVec w) :=
  match target with
  | .member m => m.get word
  | .element r i => r.get i word

end Target

namespace Descriptor

/-- Check the layout of a field in a word of `w` bits. -/
def checkLayout (descriptor : Descriptor) (w : Nat) : Except LayoutFault Unit :=
  match descriptor with
  | .member m => m.checkLayout w
  | .row r => r.checkLayout w

/-- The single fields of a descriptor: the member itself, or the elements of the row. -/
def targets : Descriptor → List Target
  | .member m => [.member m]
  | .row r => (List.range r.count).map (.element r)

/-- The number of bits in the member or in each element. -/
def bits : Descriptor → Nat
  | .member m => m.bits
  | .row r => r.bits

/-- The largest value that the member or an element can hold. -/
def maximum : Descriptor → Except Fault (BitVec w)
  | .member m => m.maximum
  | .row r => r.maximum

/-- The text of a descriptor: its layout. -/
def text : Descriptor → String
  | .member m => m.text
  | .row r => r.text

/-- The text of a field's value: a number, or the list of the elements. -/
def valueText (descriptor : Descriptor) (word : BitVec w) : Except Fault String :=
  match descriptor with
  | .member m => do
    let value ← m.get word
    return toString value.toNat
  | .row r => (r.elements word).text

end Descriptor

end WordSync.Field
