import WordSync.Proofs.Field.Record
import WordSync.Proofs.Text

/-!
# The text of a value says what its fields read

The text of a value names the fields of its declaration in order, each with the number that its
bits make up, or with the numbers of a row in the order of its elements. Nothing of that is lost
in the text: the numbers can be read back from it. So the values with the same text are those
that read the same in every field, and if the fields cover the word it is one value.
-/

namespace WordSync.Field

/-- What a field reads in a word. -/
inductive Reading where
  /-- The number of a member. -/
  | number (n : Nat)
  /-- The numbers of the elements of a row, in order. -/
  | numbers (ns : List Nat)
  deriving DecidableEq

/-- A reading in decimal. -/
def Reading.text : Reading → String
  | .number n => toString n
  | .numbers ns => Text.list (ns.map toString)

/-- The number that the bits of a member make up. -/
def Member.number {w : Nat} (m : Member) (word : BitVec w) : Nat :=
  word.toNat / 2 ^ m.offset % 2 ^ m.bits

/-- What a field of a given shape reads in a word. -/
def Descriptor.reading {w : Nat} (descriptor : Descriptor) (word : BitVec w) : Reading :=
  match descriptor with
  | .member m => .number (m.number word)
  | .row r => .numbers ((List.range r.count).map fun i => (r.element i).number word)

/-- An accepted field has the same value in two words just if its bits make up the same number. -/
theorem Target.get_eq_get_iff {k : Width} {target : Target} (haccepted : target.Accepted k.bits)
    (a b : BitVec k.bits) :
    target.get a = target.get b ↔ target.span.number a = target.span.number b := by
  rw [get_eq haccepted, get_eq haccepted, Except.ok.injEq, BitVec.toNat_inj.symm,
    Member.toNat_value haccepted.fits, Member.toNat_value haccepted.fits]
  rfl

namespace Descriptor

variable {k : Width} {descriptor : Descriptor}

/-- The text of a field's value is what the field reads. -/
theorem valueText_eq (haccepted : descriptor.checkLayout k.bits = .ok ()) (word : BitVec k.bits) :
    descriptor.valueText word = .ok (descriptor.reading word).text := by
  cases descriptor with
  | member m =>
    have hfits := (Member.checkLayout_iff_fits k.bits_lt_positionLimit).mp haccepted
    simp only [valueText, Member.get_eq hfits, Member.toNat_value hfits, bind, Except.bind, pure,
      Except.pure]
    rfl
  | row r =>
    have hfits := (Row.checkLayout_iff_fits k.bits_lt_positionLimit).mp haccepted
    have hvalues := Row.values_eq hfits k.bits_lt_positionLimit word
    rw [Row.values] at hvalues
    simp only [valueText, Elements.text, hvalues, bind, Except.bind, pure, Except.pure, reading,
      Reading.text, List.map_map]
    refine congrArg (fun texts => Except.ok (Text.list texts)) (List.map_congr_left fun i hi => ?_)
    have helement := hfits.element (List.mem_range.mp hi)
    exact congrArg toString (Member.toNat_value helement word)

/-- The readings of one field in two words are separable. -/
theorem separable_reading (descriptor : Descriptor) {w : Nat} (a b : BitVec w) :
    Text.Separable (descriptor.reading a).text (descriptor.reading b).text := by
  cases descriptor with
  | member m => exact Text.separable_numeral _ _
  | row r =>
    simp only [reading, Reading.text, List.map_map]
    exact Text.separable_list fun i _ => Text.separable_numeral _ _

/-- The text of a reading tells the reading, if the field is known. -/
theorem reading_eq_of_text_eq {w : Nat} {a b : BitVec w}
    (h : (descriptor.reading a).text = (descriptor.reading b).text) :
    descriptor.reading a = descriptor.reading b := by
  cases descriptor with
  | member m => exact congrArg Reading.number (Text.numeral_injective h)
  | row r =>
    simp only [reading, Reading.text, List.map_map] at h
    have htold := Text.eq_of_list_eq (fun i _ => Text.separable_numeral _ _) h
    exact congrArg Reading.numbers
      (List.map_congr_left fun i hi => Text.numeral_injective (htold i hi))

/-- A field reads the same in two words just if its single fields have the same values there. -/
theorem reading_eq_iff (haccepted : descriptor.checkLayout k.bits = .ok ()) (a b : BitVec k.bits) :
    descriptor.reading a = descriptor.reading b ↔
      ∀ target ∈ descriptor.targets, target.get a = target.get b := by
  cases descriptor with
  | member m =>
    have hmember : Target.Accepted (.member m) k.bits := haccepted
    simp only [reading, Reading.number.injEq, targets, List.forall_mem_singleton]
    exact (Target.get_eq_get_iff hmember a b).symm
  | row r =>
    simp only [reading, Reading.numbers.injEq, targets, List.forall_mem_map, List.map_inj_left]
    refine forall_congr' fun i => forall_congr' fun hi => ?_
    have helement : Target.Accepted (.element r i) k.bits := ⟨haccepted, List.mem_range.mp hi⟩
    exact (Target.get_eq_get_iff helement a b).symm

end Descriptor

namespace Declaration

variable {d : Declaration}

instance (d : Declaration) (j : Nat) : Decidable (d.Spares j) :=
  inferInstanceAs (Decidable (∀ target ∈ d.targets, ¬target.span.Covers j))

/-- What the fields of a word read, as texts with their names. -/
theorem fieldTexts_eq {k : Width} (word : BitVec k.bits) {fields : List (String × Descriptor)}
    (haccepted : ∀ field ∈ fields, field.2.checkLayout k.bits = .ok ()) :
    fieldTexts word fields =
      .ok (fields.map fun field => (field.1, (field.2.reading word).text)) := by
  induction fields with
  | nil => rfl
  | cons field rest ih =>
    obtain ⟨hfield, hrest⟩ := List.forall_mem_cons.mp haccepted
    simp only [fieldTexts, Descriptor.valueText_eq hfield, ih hrest, bind, Except.bind, pure,
      Except.pure, List.map_cons]

/-- The text of a value is a record of what its fields read. -/
theorem text_eq (haccepted : d.checkLayout = .ok ()) (word : d.Packed) :
    d.text word = .ok (Text.record d.name
      (d.fields.map fun field => (field.1, (field.2.reading word).text))) := by
  simp only [text, fieldTexts_eq word (checkLayout_eq_ok_iff.mp haccepted), bind, Except.bind,
    pure, Except.pure]

/-- Values have the same text just if their fields read the same. -/
theorem text_eq_text_iff (haccepted : d.checkLayout = .ok ()) (a b : d.Packed) :
    d.text a = d.text b ↔ ∀ field ∈ d.fields, field.2.reading a = field.2.reading b := by
  rw [text_eq haccepted, text_eq haccepted]
  constructor
  · intro h field hfield
    have htold := Text.eq_of_record_eq (fun descriptor : Descriptor => (descriptor.reading a).text)
      (fun descriptor => (descriptor.reading b).text)
      (fun field _ => field.2.separable_reading a b) (Except.ok.inj h)
    exact Descriptor.reading_eq_of_text_eq (htold field hfield)
  · intro hsame
    refine congrArg (fun fields => Except.ok (Text.record d.name fields)) ?_
    exact List.map_congr_left fun field hfield => by rw [hsame field hfield]

/-- The text of a value loses none of its fields. It names the fields in the order of the
declaration, each with the number that its bits make up or with the numbers of a row in the order
of its elements, in decimal. Two values have the same text just if every member and every element
reads the same in both; so where the fields cover the word, the text tells the value. -/
theorem text_tells_fields (haccepted : d.checkLayout = .ok ()) :
    (∀ word : d.Packed, d.text word = .ok (Text.record d.name
      (d.fields.map fun field => (field.1, (field.2.reading word).text)))) ∧
    (∀ a b : d.Packed, d.text a = d.text b ↔
      ∀ field ∈ d.fields, ∀ target ∈ field.2.targets, target.get a = target.get b) ∧
    ((∀ j < d.width.bits, ¬d.Spares j) → ∀ a b : d.Packed, d.text a = d.text b → a = b) := by
  have hfields (a b : d.Packed) : d.text a = d.text b ↔
      ∀ field ∈ d.fields, ∀ target ∈ field.2.targets, target.get a = target.get b := by
    rw [text_eq_text_iff haccepted]
    exact forall_congr' fun field => forall_congr' fun hfield =>
      Descriptor.reading_eq_iff (checkLayout_eq_ok_iff.mp haccepted field hfield) a b
  refine ⟨text_eq haccepted, hfields, fun hcover a b h => ?_⟩
  have htargets := accepted_of_mem_targets haccepted
  refine Target.eq_of_value_eq htargets (fun target htarget => ?_) fun j hj => ?_
  · obtain ⟨field, hfield, hmem⟩ := List.mem_flatMap.mp htarget
    have hget := (hfields a b).mp h field hfield target hmem
    rw [Target.get_eq (htargets target htarget), Target.get_eq (htargets target htarget)] at hget
    exact Except.ok.inj hget
  · have hbeyond : d.width.bits ≤ j := Nat.le_of_not_lt fun hinside => hcover j hinside hj
    rw [BitVec.getLsbD_of_ge a j hbeyond, BitVec.getLsbD_of_ge b j hbeyond]

/-- A byte with a row of two elements, a member and a row without elements. Two bits belong to the
row and to the member, and none is left over. -/
def ladder : Declaration where
  name := "Ladder"
  width := .w8
  fields := [("rungs", .row ⟨0, 2, 2⟩), ("rails", .member ⟨2, 6⟩), ("none", .row ⟨0, 3, 0⟩)]

theorem text_tells_fields_ladder :
    ladder.checkLayout = .ok () ∧
      ladder.text 0xD9#8 = .ok "Ladder \x7b rungs: [1, 2], rails: 54, none: [] \x7d" ∧
      ladder.text 0xD9#8 ≠ ladder.text 0xD8#8 := by
  have haccepted : ladder.checkLayout = .ok () := rfl
  obtain ⟨htext, hsame, hcover⟩ := text_tells_fields haccepted
  refine ⟨haccepted, htext _, fun h => ?_⟩
  have hword : 0xD9#8 = 0xD8#8 := hcover (by decide) _ _ h
  exact absurd hword (by decide)

end Declaration

end WordSync.Field
