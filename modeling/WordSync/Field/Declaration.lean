import WordSync.Field.Descriptor

/-!
# Declarations

A declaration gives a packed type its name, its word and its named fields. It is accepted if
the layout of every field is. Fields may overlap: only their own extent is checked. The text of
a value names every field in the order of the declaration.
-/

namespace WordSync.Field

/-- A packed type: a word with named fields. -/
structure Declaration where
  /-- The name of the type. -/
  name : String
  /-- The word that holds its values. -/
  width : Width
  /-- The fields in the order in which they are declared. -/
  fields : List (String × Descriptor)

namespace Declaration

/-- A value of a declared type is its word. -/
abbrev Packed (d : Declaration) : Type := BitVec d.width.bits

/-- The value in which every bit is zero. -/
def zero (d : Declaration) : d.Packed := 0#d.width.bits

/-- The number of bytes of a value. -/
def bytes (d : Declaration) : Nat := d.width.bytes

/-- Check the layouts of all fields, in order. -/
def checkLayout (d : Declaration) : Except LayoutFault Unit :=
  d.fields.forM fun field => field.2.checkLayout d.width.bits

/-- The field of a given name. -/
def field? (d : Declaration) (name : String) : Option Descriptor := d.fields.lookup name

/-- The name and the value of every field, as texts. -/
def fieldTexts {w : Nat} (word : BitVec w) :
    List (String × Descriptor) → Except Fault (List (String × String))
  | [] => .ok []
  | (name, descriptor) :: rest => do
    let value ← descriptor.valueText word
    let others ← fieldTexts word rest
    return (name, value) :: others

/-- The text of a value: the name of the type and every field with its value. -/
def text (d : Declaration) (word : d.Packed) : Except Fault String := do
  let fields ← fieldTexts word d.fields
  return Text.record d.name fields

end Declaration

end WordSync.Field
