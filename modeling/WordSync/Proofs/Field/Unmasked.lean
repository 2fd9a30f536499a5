import WordSync.Proofs.Field.Arithmetic
import WordSync.Proofs.Field.Safety

/-!
# Arithmetic without masks

The checked sum and difference go over the whole word and rely on their guard, the wrapping ones
and storing put a masked result into the word, and a caller may as well go over the whole word by
hand, with the word that has a one in the field. As long as the exact result fits in the field all
of these come to one word, wherever the field lies and whatever is around it. For there is only
one word that differs from the old one inside the field alone and has the exact result there.
-/

namespace WordSync.Field

variable {w : Nat}

namespace Member

variable {m : Member}

/-- Of the other word only the value of the member is merged. -/
theorem merge_congr (hfits : m.Fits w) {word a b : BitVec w} (hvalue : m.value a = m.value b) :
    m.merge word a = m.merge word b := by
  apply BitVec.eq_of_getLsbD_eq
  intro j _
  by_cases hj : m.Covers j
  · rw [getLsbD_merge_of_covers hfits hj, getLsbD_merge_of_covers hfits hj,
      getLsbD_eq_of_value_eq hfits hvalue hj]
  · rw [getLsbD_merge_of_not_covers hfits hj, getLsbD_merge_of_not_covers hfits hj]

/-- The word with a one in the member is a power of two. -/
theorem toNat_one (hfits : m.Fits w) : (1#w <<< m.offset).toNat = 2 ^ m.offset := by
  have hlt : 2 ^ m.offset < 2 ^ w := Nat.pow_lt_pow_right (by decide) hfits.offset_lt
  rw [← BitVec.twoPow_eq, BitVec.toNat_twoPow, Nat.mod_eq_of_lt hlt]

/-- A value times the word with a one in the member is the value in the place of the member. -/
theorem mul_one_eq_placed (m : Member) (v : BitVec w) :
    v * 1#w <<< m.offset = v <<< m.offset := by
  rw [← BitVec.twoPow_eq, ← BitVec.shiftLeft_eq_mul_twoPow]

/-- A value that fits in the member can be moved to its place without loss. -/
theorem toNat_mul_one (hfits : m.Fits w) {v : BitVec w} (hv : v.toNat < 2 ^ m.bits) :
    (v * 1#w <<< m.offset).toNat = v.toNat * (1#w <<< m.offset).toNat := by
  apply BitVec.toNat_mul_of_lt
  have hend : 2 ^ m.bits * 2 ^ m.offset ≤ 2 ^ w := by
    rw [← Nat.pow_add]
    have := hfits.2.2
    exact Nat.pow_le_pow_right (by decide) (by omega)
  calc v.toNat * (1#w <<< m.offset).toNat
      = v.toNat * 2 ^ m.offset := by rw [toNat_one hfits]
    _ < 2 ^ m.bits * 2 ^ m.offset := Nat.mul_lt_mul_of_pos_right hv (Nat.two_pow_pos _)
    _ ≤ 2 ^ w := hend

/-- A sum that fits in the member fits in the word. -/
theorem toNat_add_of_fits (hfits : m.Fits w) {f v : BitVec w}
    (hfew : f.toNat + v.toNat < 2 ^ m.bits) : (f + v).toNat = f.toNat + v.toNat := by
  have hlt : 2 ^ m.bits < 2 ^ w := Nat.pow_lt_pow_right (by decide) hfits.2.1
  exact BitVec.toNat_add_of_lt (Nat.lt_trans hfew hlt)

end Member

namespace Target

/-- The largest value that the field can hold. -/
def maximum : Target → Except Fault (BitVec w)
  | .member m => m.maximum
  | .element r _ => r.maximum

/-- What brings the value `g` into a field of `word`, starting from a value that differs from it
by `v`: a checked mutator and its wrapping twin with `v`, and storing `g` with a check and
without. All four succeed and leave the word `next`. -/
structure Agree (target : Target) (checked wrapped : Mutator) (v g word next : BitVec w) :
    Prop where
  /-- The checked mutator. -/
  checked : target.apply checked v word = .ok () next
  /-- The wrapping mutator. -/
  wrapped : target.apply wrapped v word = .ok () next
  /-- Storing with a check. -/
  set : target.apply .set g word = .ok () next
  /-- Storing the low bits. -/
  setWrapped : target.apply .setWrapped g word = .ok () next

variable {target : Target} {k : Width}

/-- The word with a one in an accepted target can be computed. -/
theorem one_eq (haccepted : target.Accepted k.bits) :
    target.one (w := k.bits) = .ok (1#k.bits <<< target.span.offset) := by
  cases target with
  | member m => exact Member.one_eq haccepted.fits
  | element r i =>
    have hrow := (Row.checkLayout_iff_fits k.bits_lt_positionLimit).mp haccepted.1
    exact Row.one_eq hrow k.bits_lt_positionLimit haccepted.2

/-- The largest value of an accepted target can be computed. -/
theorem maximum_eq (haccepted : target.Accepted k.bits) :
    target.maximum (w := k.bits) = .ok target.span.top := by
  cases target with
  | member m => exact Member.maximum_eq haccepted.fits
  | element r i =>
    have hrow := (Row.checkLayout_iff_fits k.bits_lt_positionLimit).mp haccepted.1
    exact Row.maximum_eq hrow i

/-- A change of a field comes to the word that differs from the old one only inside the field and
has the exact result there. -/
theorem apply_eq_ok_of_result (haccepted : target.Accepted k.bits) {op : Mutator}
    {v word next : BitVec k.bits}
    (houtside : ∀ j, ¬target.span.Covers j → next.getLsbD j = word.getLsbD j)
    (hresult : op.result target.span.bits (target.span.value word).toNat v.toNat =
      (target.span.value next).toNat) :
    target.apply op v word = .ok () next := by
  have hfits := haccepted.fits
  have hlt := Member.toNat_value_lt hfits next
  have hpermits : op.Permits target.span.bits (target.span.value word).toNat v.toNat := by
    unfold Mutator.Permits
    rw [hresult]
    omega
  have hvalue : target.span.value next = target.span.value (op.drive target.span v word) := by
    have hdrive := Member.toNat_value_drive hfits op hpermits
    apply BitVec.eq_of_toNat_eq
    omega
  rw [apply_eq_ok_iff haccepted]
  exact ⟨hpermits, (Member.eq_merge hfits houtside).trans (Member.merge_congr hfits hvalue)⟩

/-- All ways to bring a value into a field come to the word that differs from the old one only
inside the field and has the value there, if that is the exact result of both mutators. -/
theorem Agree.of_results (haccepted : target.Accepted k.bits) {checked wrapped : Mutator}
    {v g word next : BitVec k.bits}
    (houtside : ∀ j, ¬target.span.Covers j → next.getLsbD j = word.getLsbD j)
    (hvalue : target.span.value next = g)
    (hchecked : checked.result target.span.bits (target.span.value word).toNat v.toNat = g.toNat)
    (hwrapped : wrapped.result target.span.bits (target.span.value word).toNat v.toNat = g.toNat) :
    target.Agree checked wrapped v g word next := by
  have hlt := Member.toNat_value_lt haccepted.fits next
  subst hvalue
  constructor
  case checked => exact apply_eq_ok_of_result haccepted houtside hchecked
  case wrapped => exact apply_eq_ok_of_result haccepted houtside hwrapped
  case set => exact apply_eq_ok_of_result haccepted houtside rfl
  case setWrapped =>
    apply apply_eq_ok_of_result haccepted houtside
    simp only [Mutator.result]
    rw [Nat.mod_eq_of_lt hlt]

/-- As long as the sum fits, all ways to add come to one word, from which subtracting leads
back. -/
theorem agree_add (haccepted : target.Accepted k.bits) {v word : BitVec k.bits}
    (hfew : (target.span.value word).toNat + v.toNat < 2 ^ target.span.bits) :
    let next := word + v <<< target.span.offset
    target.Agree .add .addWrapped v (target.span.value word + v) word next ∧
      target.apply .sub v next = .ok () word := by
  intro next
  have hfits := haccepted.fits
  have hsum := Member.toNat_add_of_fits hfits hfew
  have houtside : ∀ j, ¬target.span.Covers j → next.getLsbD j = word.getLsbD j :=
    fun j hj => Member.getLsbD_add_placed hfits hfew hj
  have hnext : (target.span.value next).toNat = (target.span.value word).toNat + v.toNat := by
    rw [Member.toNat_value_add hfits, Nat.mod_eq_of_lt hfew]
  have hvalue : target.span.value next = target.span.value word + v := by
    apply BitVec.eq_of_toNat_eq
    rw [hsum, hnext]
  constructor
  · apply Agree.of_results haccepted houtside hvalue
    · simp only [Mutator.result]
      omega
    · simp only [Mutator.result]
      rw [Nat.mod_eq_of_lt hfew, hsum]
  · apply apply_eq_ok_of_result haccepted fun j hj => (houtside j hj).symm
    simp only [Mutator.result]
    omega

/-- As long as there is enough to take from, all ways to subtract come to one word, from which
adding leads back. -/
theorem agree_sub (haccepted : target.Accepted k.bits) {v word : BitVec k.bits}
    (hle : v.toNat ≤ (target.span.value word).toNat) :
    let next := word - v <<< target.span.offset
    target.Agree .sub .subWrapped v (target.span.value word - v) word next ∧
      target.apply .add v next = .ok () word := by
  intro next
  have hfits := haccepted.fits
  have hlt := Member.toNat_value_lt hfits word
  have hdifference := BitVec.toNat_sub_of_le (BitVec.le_def.mpr hle)
  have houtside : ∀ j, ¬target.span.Covers j → next.getLsbD j = word.getLsbD j :=
    fun j hj => Member.getLsbD_sub_placed hfits hle hj
  have hmod : (((target.span.value word).toNat : Int) - v.toNat) % (2 ^ target.span.bits : Nat) =
      (target.span.value word).toNat - v.toNat :=
    Int.emod_eq_of_lt (by omega) (by omega)
  have hnext : ((target.span.value next).toNat : Int) =
      (target.span.value word).toNat - v.toNat := by
    rw [Member.toNat_value_sub hfits, hmod]
  have hvalue : target.span.value next = target.span.value word - v := by
    apply BitVec.eq_of_toNat_eq
    omega
  constructor
  · apply Agree.of_results haccepted houtside hvalue
    · simp only [Mutator.result]
      omega
    · simp only [Mutator.result]
      omega
  · apply apply_eq_ok_of_result haccepted fun j hj => (houtside j hj).symm
    simp only [Mutator.result]
    omega

/-- The masked and the unmasked ways to compute agree. If the sum of what a field holds and a
value is no more than the largest value, then the checked and the wrapping sum, storing the sum,
with a check and without, and adding so many times the field's one to the whole word are all the
same, and subtracting restores the word. If the field holds as much as the value, then the same
goes for the differences, and adding restores the word. None of the words that a caller has to
compute for this overflows. -/
theorem arithmetic_paths_agree (haccepted : target.Accepted k.bits) (v word : BitVec k.bits) :
    ∃ f top one : BitVec k.bits,
      target.get word = .ok f ∧ target.maximum = .ok top ∧ target.one = .ok one ∧
      (f.toNat + v.toNat ≤ top.toNat →
        (f + v).toNat = f.toNat + v.toNat ∧ (v * one).toNat = v.toNat * one.toNat ∧
        ∃ next, target.Agree .add .addWrapped v (f + v) word next ∧
          (Command.increase (v * one)).run word = .ok .done next ∧
          target.apply .sub v next = .ok () word) ∧
      (v.toNat ≤ f.toNat →
        (f - v).toNat = f.toNat - v.toNat ∧ (v * one).toNat = v.toNat * one.toNat ∧
        ∃ next, target.Agree .sub .subWrapped v (f - v) word next ∧
          (Command.decrease (v * one)).run word = .ok .done next ∧
          target.apply .add v next = .ok () word) := by
  have hfits := haccepted.fits
  have htop := Member.toNat_top hfits
  have hlt := Member.toNat_value_lt hfits word
  have hplaced := Member.mul_one_eq_placed target.span v
  refine ⟨_, _, _, get_eq haccepted word, maximum_eq haccepted, one_eq haccepted, ?_, ?_⟩
  · intro hle
    have hfew : (target.span.value word).toNat + v.toNat < 2 ^ target.span.bits := by omega
    obtain ⟨hagree, hback⟩ := agree_add haccepted hfew
    refine ⟨Member.toNat_add_of_fits hfits hfew, Member.toNat_mul_one hfits (by omega), _, hagree,
      ?_, hback⟩
    rw [hplaced]
    rfl
  · intro hle
    obtain ⟨hagree, hback⟩ := agree_sub haccepted hle
    refine ⟨BitVec.toNat_sub_of_le (BitVec.le_def.mpr hle),
      Member.toNat_mul_one hfits (by omega), _, hagree, ?_, hback⟩
    rw [hplaced]
    rfl

/-- The upper element of a row reaches the top of a byte, holds 5 and has room for 2 more. Two of
its ones, added to the byte or taken from it, leave the same word as the operations. -/
theorem arithmetic_paths_agree_top :
    (Target.element ⟨2, 3, 2⟩ 1).Accepted 8 ∧
      (∃ next : BitVec 8,
        (Target.element ⟨2, 3, 2⟩ 1).Agree .add .addWrapped 2#8 7#8 0xBD#8 next ∧
          (Command.increase (2#8 * 0x20#8)).run 0xBD#8 = .ok .done next ∧
          (Target.element ⟨2, 3, 2⟩ 1).apply .sub 2#8 next = .ok () 0xBD#8) ∧
      ∃ next : BitVec 8,
        (Target.element ⟨2, 3, 2⟩ 1).Agree .sub .subWrapped 2#8 3#8 0xBD#8 next ∧
          (Command.decrease (2#8 * 0x20#8)).run 0xBD#8 = .ok .done next ∧
          (Target.element ⟨2, 3, 2⟩ 1).apply .add 2#8 next = .ok () 0xBD#8 := by
  have haccepted : (Target.element ⟨2, 3, 2⟩ 1).Accepted 8 := ⟨rfl, by decide⟩
  obtain ⟨f, top, one, hget, hmaximum, hone, hadd, hsub⟩ :=
    arithmetic_paths_agree (k := .w8) haccepted 2#8 0xBD#8
  obtain rfl : (5#8 : BitVec 8) = f := Except.ok.inj hget
  obtain rfl : (7#8 : BitVec 8) = top := Except.ok.inj hmaximum
  obtain rfl : (0x20#8 : BitVec 8) = one := Except.ok.inj hone
  obtain ⟨-, -, hsum⟩ := hadd (by decide)
  obtain ⟨-, -, hdifference⟩ := hsub (by decide)
  exact ⟨haccepted, hsum, hdifference⟩

end Target

end WordSync.Field
