import WordSync.Field.Descriptor

/-!
# Queries

The questions that can be put about a packed word and its fields, as data. A query leaves the
word alone, but it may fail: there is no answer for an element that a row does not have.
-/

namespace WordSync.Field

/-- A question about a packed word. -/
inductive Query where
  /-- The word as one number. -/
  | whole
  /-- The value of a field. -/
  | value (target : Target)
  /-- The position of the lowest bit of a field. -/
  | offset (target : Target)
  /-- The bits of the word that belong to a field. -/
  | mask (target : Target)
  /-- The word in which a field is one and everything else is zero. -/
  | one (target : Target)
  /-- The number of bits of a field. -/
  | bits (descriptor : Descriptor)
  /-- The largest value that a field can hold. -/
  | maximum (descriptor : Descriptor)
  /-- The layout of a field, as a text. -/
  | layout (descriptor : Descriptor)
  /-- The number of elements of a row. -/
  | count (r : Row)
  /-- Whether a row has no element. -/
  | isEmpty (r : Row)
  /-- The values of all elements of a row. -/
  | values (r : Row)
  deriving DecidableEq

/-- What the operations on a packed word answer. -/
inductive Reply (w : Nat) where
  /-- The operation is over. -/
  | done
  /-- A word, or a value in it. -/
  | word (v : BitVec w)
  /-- The values of several elements. -/
  | words (vs : List (BitVec w))
  /-- A position or a number of bits. -/
  | position (n : Nat)
  /-- A number of elements. -/
  | amount (n : Nat)
  /-- Yes or no. -/
  | verdict (b : Bool)
  /-- A text. -/
  | text (s : String)
  deriving DecidableEq

/-- The answer to a query about a word. -/
def Query.answer {w : Nat} (query : Query) (word : BitVec w) : Except Fault (Reply w) :=
  match query with
  | .whole => .ok (.word word)
  | .value target => (target.get word).map .word
  | .offset target => target.offset.map .position
  | .mask target => target.mask.map .word
  | .one target => target.one.map .word
  | .bits descriptor => .ok (.position descriptor.bits)
  | .maximum descriptor => descriptor.maximum.map .word
  | .layout descriptor => .ok (.text descriptor.text)
  | .count r => .ok (.amount r.count)
  | .isEmpty r => .ok (.verdict r.isEmpty)
  | .values r => (r.values word).map .words

end WordSync.Field
