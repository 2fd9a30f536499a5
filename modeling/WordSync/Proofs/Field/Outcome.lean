import WordSync.Proofs.Field.Layout
import WordSync.Proofs.Field.Slice

/-!
# What a change of a field comes to

Twelve operations change fields, six for members and six for elements of rows. `Member.outcome`
says what all of them come to on a field that has its place in the word: where the number that
the operation is to leave in the field does not fit there, it is refused and the word stays as
it is; otherwise the word changes inside the field only.
-/

namespace WordSync.Field

variable {w : Nat}

namespace Mutator

/-- The number that a mutator is to leave in a field of `bits` bits that holds `f`, when it is
given `v`. -/
def result (op : Mutator) (bits f v : Nat) : Int :=
  match op with
  | .set => v
  | .setWrapped => (v % 2 ^ bits : Nat)
  | .add => (f : Int) + v
  | .addWrapped => ((f + v) % 2 ^ bits : Nat)
  | .sub => (f : Int) - v
  | .subWrapped => ((f : Int) - v) % (2 ^ bits : Nat)

/-- The number that a mutator is to leave in the field fits there. -/
def Permits (op : Mutator) (bits f v : Nat) : Prop :=
  0 ≤ op.result bits f v ∧ op.result bits f v < (2 ^ bits : Nat)

instance (op : Mutator) (bits f v : Nat) : Decidable (op.Permits bits f v) :=
  inferInstanceAs (Decidable (_ ∧ _))

/-- Storing the low bits is never refused. -/
theorem permits_setWrapped (bits f v : Nat) : Mutator.setWrapped.Permits bits f v :=
  ⟨Int.natCast_nonneg _, Int.ofNat_lt.mpr (Nat.mod_lt _ (Nat.two_pow_pos bits))⟩

/-- Adding modulo the size is never refused. -/
theorem permits_addWrapped (bits f v : Nat) : Mutator.addWrapped.Permits bits f v :=
  ⟨Int.natCast_nonneg _, Int.ofNat_lt.mpr (Nat.mod_lt _ (Nat.two_pow_pos bits))⟩

/-- Subtracting modulo the size is never refused. -/
theorem permits_subWrapped (bits f v : Nat) : Mutator.subWrapped.Permits bits f v := by
  have hpos : (0 : Int) < (2 ^ bits : Nat) := Int.natCast_pos.mpr (Nat.two_pow_pos bits)
  exact ⟨Int.emod_nonneg _ (by omega), Int.emod_lt_of_pos _ hpos⟩

/-- A word with the right number in the field. What it has in other places does not matter. -/
def drive (op : Mutator) (m : Member) (v word : BitVec w) : BitVec w :=
  match op with
  | .set | .setWrapped => v <<< m.offset
  | .add | .addWrapped => word + v <<< m.offset
  | .sub | .subWrapped => word - v <<< m.offset

/-- What is wrong where a mutator is refused. -/
def refusal (op : Mutator) (place : Place) (v bits : Nat) : Violation :=
  match op with
  | .set | .setWrapped => .tooWide place v bits
  | .add | .addWrapped => .aboveMaximum place v bits
  | .sub | .subWrapped => .belowZero place v bits

end Mutator

namespace Member

/-- The outcome of changing a member. -/
def outcome (m : Member) (place : Place) (op : Mutator) (v word : BitVec w) :
    EStateM.Result Fault (BitVec w) Unit :=
  if op.Permits m.bits (m.value word).toNat v.toNat then
    .ok () (m.merge word (op.drive m v word))
  else .error (.contract (op.refusal place v.toNat m.bits)) word

variable {m : Member}

/-- A mutator leaves the number in the member that it is to leave there, if it is let. -/
theorem toNat_value_drive (hfits : m.Fits w) (op : Mutator) {v word : BitVec w}
    (hpermits : op.Permits m.bits (m.value word).toNat v.toNat) :
    ((m.value (op.drive m v word)).toNat : Int) =
      op.result m.bits (m.value word).toNat v.toNat := by
  have hhigh := hpermits.2
  have hlow := hpermits.1
  cases op with
  | set =>
    simp only [Mutator.result] at hhigh
    simp only [Mutator.drive, Mutator.result, toNat_value_shiftLeft hfits]
    rw [Nat.mod_eq_of_lt (by omega)]
  | setWrapped => simp only [Mutator.drive, Mutator.result, toNat_value_shiftLeft hfits]
  | add =>
    simp only [Mutator.result] at hhigh
    simp only [Mutator.drive, Mutator.result, toNat_value_add hfits]
    rw [Nat.mod_eq_of_lt (by omega), Int.natCast_add]
  | addWrapped => simp only [Mutator.drive, Mutator.result, toNat_value_add hfits]
  | sub =>
    simp only [Mutator.result] at hhigh hlow
    simp only [Mutator.drive, Mutator.result, toNat_value_sub hfits]
    rw [Int.emod_eq_of_lt hlow hhigh]
  | subWrapped => simp only [Mutator.drive, Mutator.result, toNat_value_sub hfits]

/-- Storing, as the operations do it. -/
theorem outcome_set (hfits : m.Fits w) (place : Place) (v word : BitVec w) :
    m.outcome place .set v word =
      if v ≤ m.top then
        .ok () (word &&& ~~~(m.top <<< m.offset) ||| v <<< m.offset &&& m.top <<< m.offset)
      else .error (.contract (.tooWide place v.toNat m.bits)) word := by
  have hpermits : Mutator.set.Permits m.bits (m.value word).toNat v.toNat ↔ v ≤ m.top := by
    have hpos := Nat.two_pow_pos m.bits
    rw [BitVec.le_def, toNat_top hfits]
    simp only [Mutator.Permits, Mutator.result]
    omega
  simp only [outcome, hpermits, merge, stencil, Mutator.drive, Mutator.refusal]

/-- Storing the low bits, as the operations do it. -/
theorem outcome_setWrapped (place : Place) (v word : BitVec w) :
    m.outcome place .setWrapped v word =
      .ok () (word &&& ~~~(m.top <<< m.offset) ||| (v &&& m.top) <<< m.offset) := by
  have hpermits := Mutator.permits_setWrapped m.bits (m.value word).toNat v.toNat
  simp only [outcome, if_pos hpermits, merge, stencil, Mutator.drive,
    BitVec.shiftLeft_and_distrib]

/-- Adding, as the operations do it. -/
theorem outcome_add (hfits : m.Fits w) (place : Place) (v word : BitVec w) :
    m.outcome place .add v word =
      if v ≤ m.top - m.value word then .ok () (word + v <<< m.offset)
      else .error (.contract (.aboveMaximum place v.toNat m.bits)) word := by
  have hlt := toNat_value_lt hfits word
  have htop := toNat_top hfits
  have hle : m.value word ≤ m.top := by
    rw [BitVec.le_def, htop]
    omega
  have hpermits : Mutator.add.Permits m.bits (m.value word).toNat v.toNat ↔
      v ≤ m.top - m.value word := by
    rw [BitVec.le_def, BitVec.toNat_sub_of_le hle, htop]
    simp only [Mutator.Permits, Mutator.result]
    omega
  by_cases h : v ≤ m.top - m.value word
  · have hfew : (m.value word).toNat + v.toNat < 2 ^ m.bits := by
      rw [BitVec.le_def, BitVec.toNat_sub_of_le hle, htop] at h
      omega
    have hmerge := eq_merge hfits fun j hj => getLsbD_add_placed hfits hfew hj
    rw [if_pos h, outcome, if_pos (hpermits.mpr h), Mutator.drive, ← hmerge]
  · rw [if_neg h, outcome, if_neg (mt hpermits.mp h), Mutator.refusal]

/-- Adding modulo the size, as the operations do it. -/
theorem outcome_addWrapped (place : Place) (v word : BitVec w) :
    m.outcome place .addWrapped v word =
      .ok () (word &&& ~~~(m.top <<< m.offset) |||
        (word + v <<< m.offset) &&& m.top <<< m.offset) := by
  have hpermits := Mutator.permits_addWrapped m.bits (m.value word).toNat v.toNat
  simp only [outcome, if_pos hpermits, merge, stencil, Mutator.drive]

/-- Subtracting, as the operations do it. -/
theorem outcome_sub (hfits : m.Fits w) (place : Place) (v word : BitVec w) :
    m.outcome place .sub v word =
      if v ≤ m.value word then .ok () (word - v <<< m.offset)
      else .error (.contract (.belowZero place v.toNat m.bits)) word := by
  have hlt := toNat_value_lt hfits word
  have hpermits : Mutator.sub.Permits m.bits (m.value word).toNat v.toNat ↔
      v ≤ m.value word := by
    rw [BitVec.le_def]
    simp only [Mutator.Permits, Mutator.result]
    omega
  by_cases h : v ≤ m.value word
  · have hmerge := eq_merge hfits fun j hj => getLsbD_sub_placed hfits (BitVec.le_def.mp h) hj
    rw [if_pos h, outcome, if_pos (hpermits.mpr h), Mutator.drive, ← hmerge]
  · rw [if_neg h, outcome, if_neg (mt hpermits.mp h), Mutator.refusal]

/-- Subtracting modulo the size, as the operations do it. -/
theorem outcome_subWrapped (place : Place) (v word : BitVec w) :
    m.outcome place .subWrapped v word =
      .ok () (word &&& ~~~(m.top <<< m.offset) |||
        (word - v <<< m.offset) &&& m.top <<< m.offset) := by
  have hpermits := Mutator.permits_subWrapped m.bits (m.value word).toNat v.toNat
  simp only [outcome, if_pos hpermits, merge, stencil, Mutator.drive]

end Member

namespace Edit

variable {α β : Type}

/-- A value that is at hand is passed on. -/
theorem lift_ok_bind (value : α) (next : α → Edit w β) (word : BitVec w) :
    ((liftM (Except.ok value : Except Fault α) : Edit w α) >>= next) word = next value word := rfl

/-- A word that is at hand is passed on. -/
theorem lift_word_ok_bind (value : α) (next : α → Edit w β) (word : BitVec w) :
    ((liftM (Except.ok value : Except Word.Fault α) : Edit w α) >>= next) word =
      next value word := rfl

/-- The word as it stands is passed on. -/
theorem word_bind (next : BitVec w → Edit w β) (word : BitVec w) :
    (Edit.word >>= next) word = next word word := rfl

/-- A requirement that is not met ends a change and leaves the word alone. -/
theorem require_bind (condition : Prop) [Decidable condition] (violation : Violation)
    (next : Unit → Edit w β) (word : BitVec w) :
    (Edit.require condition violation >>= next) word =
      if condition then next () word else .error (.contract violation) word := by
  by_cases hcondition : condition
  · simp only [hcondition, if_true, bind, EStateM.bind, Edit.require]
  · simp only [hcondition, if_false, bind, EStateM.bind, Edit.require]

end Edit

namespace Member

variable {m : Member}

/-- A member that has its place in the word begins inside the word. -/
theorem Fits.offset_lt (hfits : m.Fits w) : m.offset < w := by
  have hpos := hfits.1
  have hend := hfits.2.2
  omega

/-- A value can be moved to the place of a member. -/
theorem Fits.shiftLeft_eq (hfits : m.Fits w) (v : BitVec w) :
    Word.shiftLeft v m.offset = .ok (v <<< m.offset) := if_pos hfits.offset_lt

/-- The largest value can be computed. -/
theorem maximum_eq (hfits : m.Fits w) : m.maximum (w := w) = .ok m.top := by
  rw [maximum, Word.lowMask_eq_ok hfits.2.1]
  rfl

/-- The mask of a member can be computed. -/
theorem mask_eq (hfits : m.Fits w) : m.mask (w := w) = .ok (m.top <<< m.offset) := by
  simp only [mask, maximum_eq hfits, hfits.shiftLeft_eq, bind, Except.bind]
  rfl

/-- A member that has its place in the word can be read. -/
theorem get_eq (hfits : m.Fits w) (word : BitVec w) : m.get word = .ok (m.value word) := by
  have hshift : Word.shiftRight word m.offset = .ok (word >>> m.offset) := if_pos hfits.offset_lt
  simp only [get, hshift, maximum_eq hfits, bind, Except.bind]
  rfl

/-- What the operations on a member come to. -/
theorem apply_eq (hfits : m.Fits w) (op : Mutator) (v word : BitVec w) :
    m.apply op v word = m.outcome .member op v word := by
  have hshift := hfits.shiftLeft_eq
  have htop := maximum_eq hfits
  have hmask := mask_eq hfits
  have hget := get_eq hfits
  cases op with
  | set =>
    simp only [outcome_set hfits, apply, set, htop, hmask, hshift, Edit.lift_ok_bind,
      Edit.lift_word_ok_bind, Edit.word_bind, Edit.require_bind, Edit.replace]
  | setWrapped =>
    simp only [outcome_setWrapped, apply, setWrapped, htop, hmask, hshift, Edit.lift_ok_bind,
      Edit.lift_word_ok_bind, Edit.word_bind, Edit.replace]
  | add =>
    simp only [outcome_add hfits, apply, add, htop, hget, hshift, Edit.lift_ok_bind,
      Edit.lift_word_ok_bind, Edit.word_bind, Edit.require_bind, Edit.replace]
  | addWrapped =>
    simp only [outcome_addWrapped, apply, addWrapped, hmask, hshift, Edit.lift_ok_bind,
      Edit.lift_word_ok_bind, Edit.word_bind, Edit.replace]
  | sub =>
    simp only [outcome_sub hfits, apply, sub, hget, hshift, Edit.lift_ok_bind,
      Edit.lift_word_ok_bind, Edit.word_bind, Edit.require_bind, Edit.replace]
  | subWrapped =>
    simp only [outcome_subWrapped, apply, subWrapped, hmask, hshift, Edit.lift_ok_bind,
      Edit.lift_word_ok_bind, Edit.word_bind, Edit.replace]

end Member

namespace Row

variable {r : Row} {i : Nat}

/-- The first bit of an element can be computed. -/
theorem offset_eq (hfits : r.Fits w) (hw : w < Word.positionLimit) (hi : i < r.count) :
    r.offset i = .ok (r.element i).offset := by
  have hend := (hfits.element hi).2.2
  simp only [element] at hend
  have hmul : Word.mulPosition r.bits i = .ok (r.bits * i) := if_pos (by omega)
  have hadd : Word.addPosition r.base (r.bits * i) = .ok (r.base + r.bits * i) :=
    if_pos (by omega)
  rw [offset, if_pos hi, hmul]
  change (liftM (Word.addPosition r.base (r.bits * i)) : Except Fault Nat) = _
  rw [hadd]
  rfl

/-- The largest value of the elements can be computed. -/
theorem maximum_eq (hfits : r.Fits w) (i : Nat) : r.maximum (w := w) = .ok (r.element i).top := by
  rw [maximum, Word.lowMask_eq_ok hfits.2.1]
  rfl

/-- An element of a row that has its place in the word can be read. -/
theorem get_eq (hfits : r.Fits w) (hw : w < Word.positionLimit) (hi : i < r.count)
    (word : BitVec w) : r.get i word = .ok ((r.element i).value word) := by
  have hshift : Word.shiftRight word (r.element i).offset = .ok (word >>> (r.element i).offset) :=
    if_pos (hfits.element hi).offset_lt
  simp only [get, offset_eq hfits hw hi, hshift, maximum_eq hfits i, bind, Except.bind]
  rfl

/-- What the operations on an element of a row come to. -/
theorem apply_eq (hfits : r.Fits w) (hw : w < Word.positionLimit) (hi : i < r.count)
    (op : Mutator) (v word : BitVec w) :
    r.apply i op v word = (r.element i).outcome .element op v word := by
  have helement := hfits.element hi
  have hshift := helement.shiftLeft_eq
  have htop : r.maximum (w := w) = .ok (r.element i).top := maximum_eq hfits i
  have hoffset := offset_eq hfits hw hi
  have hget := get_eq hfits hw hi
  cases op with
  | set =>
    simp only [Member.outcome_set helement, apply, set, htop, hoffset, hshift,
      Edit.lift_ok_bind, Edit.lift_word_ok_bind, Edit.word_bind, Edit.require_bind, Edit.replace]
    rfl
  | setWrapped =>
    simp only [Member.outcome_setWrapped, apply, setWrapped, htop, hoffset, hshift,
      Edit.lift_ok_bind, Edit.lift_word_ok_bind, Edit.word_bind, Edit.replace]
  | add =>
    simp only [Member.outcome_add helement, apply, add, htop, hoffset, hget, hshift,
      Edit.lift_ok_bind, Edit.lift_word_ok_bind, Edit.word_bind, Edit.require_bind, Edit.replace]
    rfl
  | addWrapped =>
    simp only [Member.outcome_addWrapped, apply, addWrapped, htop, hoffset, hshift,
      Edit.lift_ok_bind, Edit.lift_word_ok_bind, Edit.word_bind, Edit.replace]
  | sub =>
    simp only [Member.outcome_sub helement, apply, sub, hoffset, hget, hshift,
      Edit.lift_ok_bind, Edit.lift_word_ok_bind, Edit.word_bind, Edit.require_bind, Edit.replace]
    rfl
  | subWrapped =>
    simp only [Member.outcome_subWrapped, apply, subWrapped, htop, hoffset, hshift,
      Edit.lift_ok_bind, Edit.lift_word_ok_bind, Edit.word_bind, Edit.replace]

end Row

namespace Target

variable {target : Target} {k : Width}

/-- An accepted target can be read. -/
theorem get_eq (haccepted : target.Accepted k.bits) (word : BitVec k.bits) :
    target.get word = .ok (target.span.value word) := by
  cases target with
  | member m => exact Member.get_eq haccepted.fits word
  | element r i =>
    have hrow := (Row.checkLayout_iff_fits k.bits_lt_positionLimit).mp haccepted.1
    exact Row.get_eq hrow k.bits_lt_positionLimit haccepted.2 word

/-- What the operations on an accepted target come to. -/
theorem apply_eq (haccepted : target.Accepted k.bits) (op : Mutator) (v word : BitVec k.bits) :
    target.apply op v word = target.span.outcome target.place op v word := by
  cases target with
  | member m => exact Member.apply_eq haccepted.fits op v word
  | element r i =>
    have hrow := (Row.checkLayout_iff_fits k.bits_lt_positionLimit).mp haccepted.1
    exact Row.apply_eq hrow k.bits_lt_positionLimit haccepted.2 op v word

end Target

end WordSync.Field
