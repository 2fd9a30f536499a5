import WordSync.Proofs.Field.Outcome

/-!
# Isolation of fields

Whatever is done to a field, and whether it succeeds or not, the bits of the word outside the
field stay as they are. So the fields that share no bit with it keep their values.
-/

namespace WordSync.Field

variable {w : Nat}

namespace Member

/-- Two members have no bit in common. -/
def Disjoint (m other : Member) : Prop :=
  m.offset + m.bits ≤ other.offset ∨ other.offset + other.bits ≤ m.offset

instance (m other : Member) : Decidable (m.Disjoint other) :=
  inferInstanceAs (Decidable (_ ∨ _))

/-- A member that another one shares no bit with shares none with that one. -/
theorem Disjoint.symm {m other : Member} (hdisjoint : m.Disjoint other) : other.Disjoint m :=
  Or.symm hdisjoint

/-- A bit of a member is outside every member that is disjoint from it. -/
theorem Disjoint.not_covers {m other : Member} (hdisjoint : m.Disjoint other) {j : Nat}
    (hj : other.Covers j) : ¬m.Covers j := by
  intro hm
  have hlow := hm.1
  have hhigh := hm.2
  have hlow' := hj.1
  have hhigh' := hj.2
  simp only [Disjoint] at hdisjoint
  omega

/-- Words that agree outside a member agree in the values of all members disjoint from it. -/
theorem Disjoint.value_eq {m other : Member} (hdisjoint : m.Disjoint other)
    (hfits : other.Fits w) {word word' : BitVec w}
    (hsame : ∀ j, ¬m.Covers j → word'.getLsbD j = word.getLsbD j) :
    other.value word' = other.value word :=
  value_congr hfits fun j hj => hsame j (hdisjoint.not_covers hj)

end Member

/-- Different elements of a row have no bit in common. -/
theorem Row.element_disjoint (r : Row) {i j : Nat} (hij : i ≠ j) :
    (r.element i).Disjoint (r.element j) := by
  have hnext : ∀ {a b : Nat}, a < b → r.bits * a + r.bits ≤ r.bits * b := by
    intro a b hab
    rw [← Nat.mul_succ]
    exact Nat.mul_le_mul_left r.bits hab
  simp only [Member.Disjoint, element]
  rcases Nat.lt_or_gt_of_ne hij with hlt | hgt
  · have := hnext hlt
    omega
  · have := hnext hgt
    omega

namespace Target

variable {target : Target} {k : Width}

/-- The word after a change of a field: merged inside the field where the change is let, and as
it was where it is refused. -/
theorem wordAfter_apply (haccepted : target.Accepted k.bits) (op : Mutator)
    (v word : BitVec k.bits) :
    (target.apply op v).wordAfter word =
      if op.Permits target.span.bits (target.span.value word).toNat v.toNat then
        target.span.merge word (op.drive target.span v word)
      else word := by
  unfold Edit.wordAfter
  rw [apply_eq haccepted, Member.outcome]
  by_cases hpermits : op.Permits target.span.bits (target.span.value word).toNat v.toNat
  · rw [if_pos hpermits, if_pos hpermits]
  · rw [if_neg hpermits, if_neg hpermits]

/-- A change of a field leaves all bits outside the field as they are. -/
theorem getLsbD_wordAfter_apply (haccepted : target.Accepted k.bits) (op : Mutator)
    (v word : BitVec k.bits) {j : Nat} (hj : ¬target.span.Covers j) :
    ((target.apply op v).wordAfter word).getLsbD j = word.getLsbD j := by
  rw [wordAfter_apply haccepted]
  split
  · exact Member.getLsbD_merge_of_not_covers haccepted.fits hj word _
  · rfl

/-- Fields are isolated: a change of one, let or refused, changes no bit outside that field,
and every field disjoint from it reads the same before and after. -/
theorem apply_isolated (haccepted : target.Accepted k.bits) (op : Mutator)
    (v word : BitVec k.bits) :
    (∀ j, ¬target.span.Covers j →
        ((target.apply op v).wordAfter word).getLsbD j = word.getLsbD j) ∧
      ∀ other : Target, other.Accepted k.bits → target.span.Disjoint other.span →
        other.get ((target.apply op v).wordAfter word) = other.get word := by
  have hsame := fun j => getLsbD_wordAfter_apply haccepted op v word (j := j)
  refine ⟨hsame, ?_⟩
  intro other hother hdisjoint
  rw [get_eq hother, get_eq hother, hdisjoint.value_eq hother.fits hsame]

/-- The upper element of a row at the top of a byte loses more than it has. The lower element
and the two bits below it stay. -/
theorem apply_isolated_byte :
    (Target.element ⟨2, 3, 2⟩ 1).Accepted 8 ∧
      (∀ j, ¬(Target.element ⟨2, 3, 2⟩ 1).span.Covers j →
        (((Target.element ⟨2, 3, 2⟩ 1).apply .subWrapped 0xFF#8).wordAfter 0x5A#8).getLsbD j =
          (0x5A#8).getLsbD j) ∧
      (Target.element ⟨2, 3, 2⟩ 0).get
          (((Target.element ⟨2, 3, 2⟩ 1).apply .subWrapped 0xFF#8).wordAfter 0x5A#8) =
        (Target.element ⟨2, 3, 2⟩ 0).get 0x5A#8 := by
  have haccepted : (Target.element ⟨2, 3, 2⟩ 1).Accepted 8 := ⟨rfl, by decide⟩
  have hother : (Target.element ⟨2, 3, 2⟩ 0).Accepted 8 := ⟨rfl, by decide⟩
  have hdisjoint :
      (Target.element ⟨2, 3, 2⟩ 1).span.Disjoint (Target.element ⟨2, 3, 2⟩ 0).span :=
    Row.element_disjoint ⟨2, 3, 2⟩ (by decide)
  obtain ⟨hbits, hfields⟩ :=
    apply_isolated (k := .w8) haccepted .subWrapped 0xFF#8 0x5A#8
  exact ⟨haccepted, hbits, hfields _ hother hdisjoint⟩

end Target

end WordSync.Field
