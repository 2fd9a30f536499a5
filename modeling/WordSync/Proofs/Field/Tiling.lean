import WordSync.Proofs.Field.Commuting
import WordSync.Proofs.Field.Safety

/-!
# The elements of a row are members

The operations on rows and those on members are written apart, but an element that its row has is
nothing other than the member at its place: both read the same and leave the same word, and where
the one is refused so is the other. Only what a refusal says differs, as it names the kind of
field. The elements lie side by side, each begins where the one before it ends, so that together
they cover the bits of the row, and none of them twice.
-/

namespace WordSync.Field

variable {w : Nat}

/-- What a violation is when it is told of another kind of field. -/
def Violation.toldOf (place : Place) : Violation → Violation
  | .tooWide _ value bits => .tooWide place value bits
  | .aboveMaximum _ value bits => .aboveMaximum place value bits
  | .belowZero _ value bits => .belowZero place value bits
  | .index i count => .index i count

/-- What a fault is when it is told of another kind of field. -/
def Fault.toldOf (place : Place) : Fault → Fault
  | .word fault => .word fault
  | .contract violation => .contract (violation.toldOf place)

/-- What is wrong where a mutator is refused does not depend on the kind of field. -/
theorem Mutator.toldOf_refusal (op : Mutator) (place other : Place) (v bits : Nat) :
    (op.refusal other v bits).toldOf place = op.refusal place v bits := by
  cases op <;> rfl

namespace Target

variable {target other : Target} {k : Width}

/-- Changes of targets in the same place leave the same word. -/
theorem wordAfter_apply_of_span_eq (htarget : target.Accepted k.bits)
    (hother : other.Accepted k.bits) (hspan : target.span = other.span) (op : Mutator)
    (v word : BitVec k.bits) :
    (target.apply op v).wordAfter word = (other.apply op v).wordAfter word := by
  rw [wordAfter_apply htarget, wordAfter_apply hother, hspan]

/-- Changes of targets in the same place answer the same, but for the kind of field. -/
theorem answer_apply_of_span_eq (htarget : target.Accepted k.bits)
    (hother : other.Accepted k.bits) (hspan : target.span = other.span) (op : Mutator)
    (v word : BitVec k.bits) :
    (target.apply op v).answer word =
      ((other.apply op v).answer word).mapError (.toldOf target.place) := by
  rw [answer_apply htarget, answer_apply hother, hspan]
  by_cases hpermits : op.Permits other.span.bits (other.span.value word).toNat v.toNat
  · rw [if_pos hpermits, if_pos hpermits]
    rfl
  · rw [if_neg hpermits, if_neg hpermits]
    simp only [Except.mapError, Fault.toldOf, Mutator.toldOf_refusal]

end Target

/-- Element `i` of a row does in every respect what the member `m` does. -/
structure Row.ElementIs (r : Row) (i : Nat) (m : Member) (w : Nat) : Prop where
  /-- The element begins where the member begins. -/
  offset : r.offset i = .ok m.offset
  /-- They have the same bits. -/
  mask : r.mask (w := w) i = m.mask
  /-- They have the same one. -/
  one : r.one (w := w) i = m.one
  /-- They have the same largest value. -/
  maximum : r.maximum (w := w) = m.maximum
  /-- They read the same in every word. -/
  get : ∀ word : BitVec w, r.get i word = m.get word
  /-- Every change of them leaves the same word, let or refused. -/
  wordAfter : ∀ (op : Mutator) (v word : BitVec w),
    (r.apply i op v).wordAfter word = (m.apply op v).wordAfter word
  /-- Every change of them is let in the same cases, and else refused for the same reason. -/
  answer : ∀ (op : Mutator) (v word : BitVec w),
    (r.apply i op v).answer word = ((m.apply op v).answer word).mapError (.toldOf .element)

namespace Row

variable {r : Row} {i : Nat} {k : Width}

/-- The member in the place of an element has an accepted layout if the row has. -/
theorem checkLayout_element (haccepted : r.checkLayout k.bits = .ok ()) (hi : i < r.count) :
    (r.element i).checkLayout k.bits = .ok () := by
  have hfits := (checkLayout_iff_fits k.bits_lt_positionLimit).mp haccepted
  exact (Member.checkLayout_iff_fits k.bits_lt_positionLimit).mpr (hfits.element hi)

/-- An element that the row has is the member in its place. -/
theorem elementIs (haccepted : r.checkLayout k.bits = .ok ()) (hi : i < r.count) :
    r.ElementIs i (r.element i) k.bits := by
  have hw := k.bits_lt_positionLimit
  have hfits := (checkLayout_iff_fits hw).mp haccepted
  have hmember := hfits.element hi
  have htarget : (Target.element r i).Accepted k.bits := ⟨haccepted, hi⟩
  have hother : (Target.member (r.element i)).Accepted k.bits := checkLayout_element haccepted hi
  constructor
  case offset => exact offset_eq hfits hw hi
  case mask => exact (mask_eq hfits hw hi).trans (Member.mask_eq hmember).symm
  case one => exact (one_eq hfits hw hi).trans (Member.one_eq hmember).symm
  case maximum => rfl
  case get =>
    intro word
    exact (get_eq hfits hw hi word).trans (Member.get_eq hmember word).symm
  case wordAfter =>
    intro op v word
    exact Target.wordAfter_apply_of_span_eq htarget hother rfl op v word
  case answer =>
    intro op v word
    exact Target.answer_apply_of_span_eq htarget hother rfl op v word

end Row

/-- Members that have no bit in common have masks that have none. -/
theorem Member.Disjoint.stencil_and {m other : Member} (hdisjoint : m.Disjoint other)
    (hfits : m.Fits w) (hother : other.Fits w) : m.stencil &&& other.stencil = 0#w := by
  apply BitVec.eq_of_getLsbD_eq
  intro j _
  rw [BitVec.getLsbD_and, getLsbD_stencil hfits, getLsbD_stencil hother, BitVec.getLsbD_zero]
  by_cases hj : other.Covers j
  · simp only [hdisjoint.not_covers hj, decide_false, Bool.false_and]
  · simp only [hj, decide_false, Bool.and_false]

/-- The first `n` elements of a row cover its bits up to the end of the last of them: the next
element begins there. -/
theorem Row.exists_covers_iff (r : Row) (n j : Nat) :
    (∃ i < n, (r.element i).Covers j) ↔ r.base ≤ j ∧ j < r.base + r.bits * n := by
  induction n with
  | zero =>
    simp only [Nat.not_lt_zero, false_and, exists_false, Nat.mul_zero, Nat.add_zero, false_iff]
    omega
  | succ n ih =>
    rw [Nat.exists_lt_succ_right, ih, Nat.mul_succ]
    simp only [Member.Covers, element]
    omega

/-- An element is a member. The member in the place of an element that an accepted row has is
accepted as well, and the two do the same in every respect. The masks of the elements have no bit
in common, and together they are just the bits of the row. -/
theorem Row.elements_are_members {r : Row} {k : Width}
    (haccepted : r.checkLayout k.bits = .ok ()) :
    (∀ i < r.count,
        (Member.mk (r.base + r.bits * i) r.bits).checkLayout k.bits = .ok () ∧
          r.ElementIs i ⟨r.base + r.bits * i, r.bits⟩ k.bits) ∧
      ∃ masks : Nat → BitVec k.bits, (∀ i < r.count, r.mask i = .ok (masks i)) ∧
        (∀ i < r.count, ∀ j < r.count, i ≠ j → masks i &&& masks j = 0#k.bits) ∧
        ∀ j, (∃ i < r.count, (masks i).getLsbD j = true) ↔
          r.base ≤ j ∧ j < r.base + r.bits * r.count := by
  have hw := k.bits_lt_positionLimit
  have hfits := (checkLayout_iff_fits hw).mp haccepted
  refine ⟨fun i hi => ⟨checkLayout_element haccepted hi, elementIs haccepted hi⟩,
    fun i => (r.element i).stencil, fun i hi => mask_eq hfits hw hi, ?_, fun j => ?_⟩
  · intro i hi j hj hij
    exact (r.element_disjoint hij).stencil_and (hfits.element hi) (hfits.element hj)
  · rw [← r.exists_covers_iff]
    refine exists_congr fun i => and_congr_right fun hi => ?_
    rw [Member.getLsbD_stencil (hfits.element hi), decide_eq_true_iff]

/-- Of three elements above the lowest bit of a byte the last one is refused what the member in its
place is refused, and has the bits that the other two leave. -/
theorem Row.elements_are_members_byte :
    (Row.mk 1 2 3).checkLayout 8 = .ok () ∧ (Member.mk 5 2).checkLayout 8 = .ok () ∧
      (Row.mk 1 2 3).ElementIs 2 ⟨5, 2⟩ 8 ∧
      (∀ word : BitVec 8, ((Row.mk 1 2 3).apply 2 .set 4#8).answer word =
        .error (.contract (.tooWide .element 4 2))) ∧
      ∃ masks : Nat → BitVec 8, (Row.mk 1 2 3).mask 2 = .ok (masks 2) ∧
        masks 0 &&& masks 2 = 0#8 ∧
        ∀ j, (∃ i < 3, (masks i).getLsbD j = true) ↔ 1 ≤ j ∧ j < 7 := by
  have haccepted : (Row.mk 1 2 3).checkLayout 8 = .ok () := rfl
  obtain ⟨hmembers, masks, hmask, hdisjoint, hcover⟩ := elements_are_members (k := .w8) haccepted
  obtain ⟨hmember, hsame⟩ := hmembers 2 (by decide)
  refine ⟨haccepted, hmember, hsame, fun word => hsame.answer .set 4#8 word, masks,
    hmask 2 (by decide), hdisjoint 0 (by decide) 2 (by decide) (by decide), hcover⟩

end WordSync.Field
