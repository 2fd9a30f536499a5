import Mathlib.Data.Int.ModEq
import WordSync.Proofs.Field.Unmasked

/-!
# Wrapping changes compute modulo the size of a field

A caller computes modulo the size of the word, a wrapping change modulo the size of the field.
The second divides the first, so that nothing is lost between them: two changes in a row are one
change by the sum of the values, taking away is adding the opposite, and adding and then taking
away restores the word. These are equations between whole words, as no bit outside the field
takes part.
-/

namespace WordSync.Field

variable {w : Nat}

/-- A sum of words is the sum of their numbers, modulo the size of the word. -/
theorem toNat_add_modEq (u v : BitVec w) :
    ((u + v).toNat : Int) ≡ u.toNat + v.toNat [ZMOD (2 ^ w : Nat)] := by
  rw [BitVec.toNat_add, Int.natCast_emod, Int.natCast_add]
  exact Int.mod_modEq _ _

/-- The opposite of a word is that of its number, modulo the size of the word. -/
theorem toNat_neg_modEq (v : BitVec w) :
    ((-v).toNat : Int) ≡ -v.toNat [ZMOD (2 ^ w : Nat)] := by
  rw [BitVec.toNat_neg, Int.natCast_emod, Int.natCast_sub (Nat.le_of_lt v.isLt)]
  calc (((2 ^ w : Nat) : Int) - v.toNat) % (2 ^ w : Nat)
      ≡ (2 ^ w : Nat) - v.toNat [ZMOD (2 ^ w : Nat)] := Int.mod_modEq _ _
    _ ≡ 0 - v.toNat [ZMOD (2 ^ w : Nat)] := Int.modulus_modEq_zero.sub_right _
    _ = -v.toNat := Int.zero_sub _

/-- What is congruent modulo the size of the word is so modulo the size of a member. -/
theorem Member.Fits.modEq {m : Member} (hfits : m.Fits w) {a b : Int}
    (h : a ≡ b [ZMOD (2 ^ w : Nat)]) : a ≡ b [ZMOD (2 ^ m.bits : Nat)] :=
  h.of_dvd (Int.natCast_dvd_natCast.mpr (Nat.pow_dvd_pow 2 (Nat.le_of_lt hfits.2.1)))

namespace Mutator

/-- The number that a mutator leads to before it is cut down to the size of the field. -/
def exact (op : Mutator) (f v : Int) : Int :=
  match op with
  | .set | .setWrapped => v
  | .add | .addWrapped => f + v
  | .sub | .subWrapped => f - v

/-- Storing the low bits checks nothing. -/
theorem not_checked_setWrapped : ¬setWrapped.Checked := not_false

/-- Adding modulo the size checks nothing. -/
theorem not_checked_addWrapped : ¬addWrapped.Checked := not_false

/-- Subtracting modulo the size checks nothing. -/
theorem not_checked_subWrapped : ¬subWrapped.Checked := not_false

/-- A wrapping mutator is to leave its exact number modulo the size of the field. -/
theorem result_of_not_checked {op : Mutator} (hop : ¬op.Checked) (bits f v : Nat) :
    op.result bits f v = op.exact f v % (2 ^ bits : Nat) := by
  cases op with
  | set | add | sub => exact absurd trivial hop
  | setWrapped => rfl
  | addWrapped => simp only [result, exact, Int.natCast_emod, Int.natCast_add]
  | subWrapped => rfl

/-- Congruent numbers in the field lead to congruent numbers. -/
theorem exact_modEq (op : Mutator) {n f g : Int} (h : f ≡ g [ZMOD n]) (v : Int) :
    op.exact f v ≡ op.exact g v [ZMOD n] := by
  cases op with
  | set | setWrapped => rfl
  | add | addWrapped => exact h.add_right v
  | sub | subWrapped => exact h.sub_right v

end Mutator

namespace Target

open Mutator (not_checked_setWrapped not_checked_addWrapped not_checked_subWrapped)

variable {target : Target} {k : Width}

/-- A wrapping change comes to the one word that differs from the old one only inside the field
and has there what is congruent to the exact number. -/
theorem apply_eq_ok_iff_modEq (haccepted : target.Accepted k.bits) {op : Mutator}
    (hop : ¬op.Checked) (v word next : BitVec k.bits) :
    target.apply op v word = .ok () next ↔
      (∀ j, ¬target.span.Covers j → next.getLsbD j = word.getLsbD j) ∧
        (target.span.value next).toNat ≡ op.exact (target.span.value word).toNat v.toNat
          [ZMOD (2 ^ target.span.bits : Nat)] := by
  have hfits := haccepted.fits
  have hresult := Mutator.result_of_not_checked hop target.span.bits
  constructor
  · intro happly
    obtain ⟨hpermits, rfl⟩ := (apply_eq_ok_iff haccepted op v word next).mp happly
    refine ⟨fun j hj => Member.getLsbD_merge_of_not_covers hfits hj word _, ?_⟩
    rw [Member.toNat_value_merge_drive hfits op hpermits, hresult]
    exact Int.mod_modEq _ _
  · rintro ⟨houtside, hvalue⟩
    have hlt := Member.toNat_value_lt hfits next
    refine apply_eq_ok_of_result haccepted houtside ?_
    rw [hresult, ← hvalue.eq]
    exact Int.emod_eq_of_lt (Int.natCast_nonneg _) (Int.ofNat_lt.mpr hlt)

/-- A wrapping change always succeeds. -/
theorem exists_apply_of_not_checked (haccepted : target.Accepted k.bits) {op : Mutator}
    (hop : ¬op.Checked) (v word : BitVec k.bits) :
    ∃ next, target.apply op v word = .ok () next := by
  have hpermits : op.Permits target.span.bits (target.span.value word).toNat v.toNat := by
    by_contra hnot
    exact hop (Mutator.checked_of_not_permits hnot)
  exact ⟨_, (apply_eq_ok_iff haccepted op v word _).mpr ⟨hpermits, rfl⟩⟩

/-- Wrapping changes that always lead to congruent numbers are the same. -/
theorem apply_eq_apply (haccepted : target.Accepted k.bits) {op other : Mutator}
    (hop : ¬op.Checked) (hother : ¬other.Checked) {u v : BitVec k.bits}
    (hexact : ∀ f : Int,
      op.exact f u.toNat ≡ other.exact f v.toNat [ZMOD (2 ^ target.span.bits : Nat)]) :
    target.apply op u = target.apply other v := by
  funext word
  obtain ⟨next, hnext⟩ := exists_apply_of_not_checked haccepted hop u word
  obtain ⟨houtside, hvalue⟩ := (apply_eq_ok_iff_modEq haccepted hop u word next).mp hnext
  rw [hnext, (apply_eq_ok_iff_modEq haccepted hother v word next).mpr
    ⟨houtside, hvalue.trans (hexact _)⟩]

/-- Two wrapping changes in a row are a third one if that always leads to a number congruent to
theirs. -/
theorem apply_bind_apply (haccepted : target.Accepted k.bits) {first second both : Mutator}
    (hfirst : ¬first.Checked) (hsecond : ¬second.Checked) (hboth : ¬both.Checked)
    {u v t : BitVec k.bits}
    (hexact : ∀ f : Int, second.exact (first.exact f u.toNat) v.toNat ≡ both.exact f t.toNat
      [ZMOD (2 ^ target.span.bits : Nat)]) :
    (do target.apply first u; target.apply second v) = target.apply both t := by
  funext word
  obtain ⟨mid, hmid⟩ := exists_apply_of_not_checked haccepted hfirst u word
  obtain ⟨next, hnext⟩ := exists_apply_of_not_checked haccepted hsecond v mid
  obtain ⟨houtside, hvalue⟩ := (apply_eq_ok_iff_modEq haccepted hfirst u word mid).mp hmid
  obtain ⟨houtside', hvalue'⟩ := (apply_eq_ok_iff_modEq haccepted hsecond v mid next).mp hnext
  have hlast : target.apply both t word = .ok () next := by
    refine (apply_eq_ok_iff_modEq haccepted hboth t word next).mpr
      ⟨fun j hj => (houtside' j hj).trans (houtside j hj), ?_⟩
    exact hvalue'.trans ((second.exact_modEq hvalue _).trans (hexact _))
  rw [hlast]
  simp only [bind, EStateM.bind, hmid, hnext]

/-- Two wrapping sums in a row are one. -/
theorem addWrapped_bind_addWrapped (haccepted : target.Accepted k.bits) (u v : BitVec k.bits) :
    (do target.apply .addWrapped u; target.apply .addWrapped v) =
      target.apply .addWrapped (u + v) := by
  refine apply_bind_apply haccepted not_checked_addWrapped not_checked_addWrapped
    not_checked_addWrapped fun f => ?_
  have hsum := haccepted.fits.modEq (toNat_add_modEq u v)
  simp only [Mutator.exact, Int.add_assoc]
  exact (hsum.add_left f).symm

/-- Taking away is adding the opposite. -/
theorem subWrapped_eq_addWrapped (haccepted : target.Accepted k.bits) (v : BitVec k.bits) :
    target.apply .subWrapped v = target.apply .addWrapped (-v) := by
  refine apply_eq_apply haccepted not_checked_subWrapped not_checked_addWrapped fun f => ?_
  have hneg := haccepted.fits.modEq (toNat_neg_modEq v)
  simp only [Mutator.exact, Int.sub_eq_add_neg]
  exact (hneg.add_left f).symm

/-- Adding nothing changes nothing. -/
theorem addWrapped_zero (haccepted : target.Accepted k.bits) :
    target.apply .addWrapped 0#k.bits = pure () := by
  funext word
  refine (apply_eq_ok_iff_modEq haccepted not_checked_addWrapped _ word word).mpr
    ⟨fun _ _ => rfl, ?_⟩
  simp only [Mutator.exact, BitVec.toNat_ofNat, Nat.zero_mod, Int.natCast_zero, Int.add_zero]
  rfl

/-- Adding and then taking away restores the word. -/
theorem addWrapped_bind_subWrapped (haccepted : target.Accepted k.bits) (v : BitVec k.bits) :
    (do target.apply .addWrapped v; target.apply .subWrapped v) = pure () := by
  calc (do target.apply .addWrapped v; target.apply .subWrapped v)
      = (do target.apply .addWrapped v; target.apply .addWrapped (-v)) := by
        rw [subWrapped_eq_addWrapped haccepted]
    _ = target.apply .addWrapped (v + -v) := addWrapped_bind_addWrapped haccepted v (-v)
    _ = target.apply .addWrapped 0#k.bits := by rw [BitVec.add_right_neg]
    _ = pure () := addWrapped_zero haccepted

/-- Wrapping sums with two values are the same just if the values are congruent modulo the size of
the field. -/
theorem addWrapped_eq_iff (haccepted : target.Accepted k.bits) (u v : BitVec k.bits) :
    target.apply .addWrapped u = target.apply .addWrapped v ↔
      u.toNat % 2 ^ target.span.bits = v.toNat % 2 ^ target.span.bits := by
  have hadd := not_checked_addWrapped
  change _ ↔ u.toNat ≡ v.toNat [MOD 2 ^ target.span.bits]
  rw [← Int.natCast_modEq_iff]
  constructor
  · intro hsame
    obtain ⟨next, hu⟩ := exists_apply_of_not_checked haccepted hadd u 0#k.bits
    have hv : target.apply .addWrapped v 0#k.bits = .ok () next := by rw [← hsame, hu]
    have hvalue := ((apply_eq_ok_iff_modEq haccepted hadd u _ next).mp hu).2
    have hvalue' := ((apply_eq_ok_iff_modEq haccepted hadd v _ next).mp hv).2
    exact (hvalue.symm.trans hvalue').add_left_cancel' _
  · exact fun hcongr => apply_eq_apply haccepted hadd hadd fun f => hcongr.add_left f

/-- Storing the low bits is storing the remainder, which always fits. -/
theorem setWrapped_eq_set (haccepted : target.Accepted k.bits) (v : BitVec k.bits) :
    target.apply .setWrapped v =
      target.apply .set (BitVec.ofNat k.bits (v.toNat % 2 ^ target.span.bits)) := by
  funext word
  have hfits := haccepted.fits
  obtain ⟨next, hnext⟩ := exists_apply_of_not_checked haccepted not_checked_setWrapped v word
  obtain ⟨hpermits, rfl⟩ := (apply_eq_ok_iff haccepted .setWrapped v word next).mp hnext
  have hlt : v.toNat % 2 ^ target.span.bits < 2 ^ k.bits :=
    Nat.lt_of_le_of_lt (Nat.mod_le _ _) v.isLt
  rw [hnext]
  symm
  refine apply_eq_ok_of_result haccepted (fun j hj => ?_) ?_
  · exact Member.getLsbD_merge_of_not_covers hfits hj word _
  · rw [Member.toNat_value_merge_drive hfits _ hpermits]
    simp only [Mutator.result, BitVec.toNat_ofNat, Nat.mod_eq_of_lt hlt]

/-- Storing and then adding is storing the sum. -/
theorem setWrapped_bind_addWrapped (haccepted : target.Accepted k.bits) (u v : BitVec k.bits) :
    (do target.apply .setWrapped v; target.apply .addWrapped u) =
      target.apply .setWrapped (u + v) := by
  refine apply_bind_apply haccepted not_checked_setWrapped not_checked_addWrapped
    not_checked_setWrapped fun f => ?_
  have hsum := haccepted.fits.modEq (toNat_add_modEq u v)
  simp only [Mutator.exact, Int.add_comm (v.toNat : Int)]
  exact hsum.symm

/-- The wrapping changes of a field are the numbers modulo its size, at work on whole words. They
always succeed. Two sums in a row are the sum, taking away is adding the opposite, and adding and
then taking away restores every word, where the values are words and computed with as such. What
is added counts modulo the size of the field, and no less than that. Storing the low bits is
storing the remainder, and storing and then adding is storing the sum. -/
theorem wrapped_modular (haccepted : target.Accepted k.bits) :
    (∀ op : Mutator, ¬op.Checked → ∀ v word : BitVec k.bits,
        ∃ next, target.apply op v word = .ok () next) ∧
      (∀ u v : BitVec k.bits, (do target.apply .addWrapped u; target.apply .addWrapped v) =
        target.apply .addWrapped (u + v)) ∧
      (∀ v : BitVec k.bits, target.apply .subWrapped v = target.apply .addWrapped (-v)) ∧
      (∀ v : BitVec k.bits, (do target.apply .addWrapped v; target.apply .subWrapped v) =
        (pure () : Edit k.bits Unit)) ∧
      (∀ u v : BitVec k.bits, target.apply .addWrapped u = target.apply .addWrapped v ↔
        u.toNat % 2 ^ target.span.bits = v.toNat % 2 ^ target.span.bits) ∧
      (∀ v : BitVec k.bits, target.apply .setWrapped v =
        target.apply .set (BitVec.ofNat k.bits (v.toNat % 2 ^ target.span.bits))) ∧
      ∀ u v : BitVec k.bits, (do target.apply .setWrapped v; target.apply .addWrapped u) =
        target.apply .setWrapped (u + v) := by
  refine ⟨fun op hop v word => exists_apply_of_not_checked haccepted hop v word, ?_⟩
  exact ⟨addWrapped_bind_addWrapped haccepted, subWrapped_eq_addWrapped haccepted,
    addWrapped_bind_subWrapped haccepted, addWrapped_eq_iff haccepted,
    setWrapped_eq_set haccepted, setWrapped_bind_addWrapped haccepted⟩

/-- The upper element of a row reaches the top of a byte. The values have more bits than the
element, and their sum has more bits than the byte. -/
theorem wrapped_modular_top :
    let upper := Target.element ⟨2, 3, 2⟩ 1
    upper.Accepted 8 ∧
      (do upper.apply .addWrapped 0xFF#8; upper.apply .addWrapped 0x0C#8) =
        upper.apply .addWrapped 0x0B#8 ∧
      upper.apply .subWrapped 0xFD#8 = upper.apply .addWrapped 3#8 ∧
      (do upper.apply .addWrapped 0xFD#8; upper.apply .subWrapped 0xFD#8) =
        (pure () : Edit 8 Unit) ∧
      upper.apply .addWrapped 0x0B#8 = upper.apply .addWrapped 3#8 ∧
      upper.apply .setWrapped 0xFD#8 = upper.apply .set 5#8 ∧
      (do upper.apply .setWrapped 0xFD#8; upper.apply .addWrapped 0x0B#8) =
        upper.apply .setWrapped 8#8 := by
  intro upper
  have haccepted : upper.Accepted 8 := ⟨rfl, by decide⟩
  obtain ⟨-, hsum, hopposite, hback, hcongr, hset, hstored⟩ :=
    wrapped_modular (k := .w8) haccepted
  have hrest : BitVec.ofNat 8 ((0xFD#8).toNat % 2 ^ upper.span.bits) = 5#8 := by decide
  exact ⟨haccepted, hsum 0xFF#8 0x0C#8, hopposite 0xFD#8, hback 0xFD#8,
    (hcongr 0x0B#8 3#8).mpr (by decide), hrest ▸ hset 0xFD#8, hstored 0x0B#8 0xFD#8⟩

end Target

end WordSync.Field
