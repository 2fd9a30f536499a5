import WordSync.Proofs.Field.Record

/-!
# Fields that share bits

The layout checks look at each field alone, so a declaration may have fields that share bits. A
change of one of these can be seen in the other, and there is no way of changing a field for which
that could not happen. So the fields of an accepted declaration are independent of each other just
if no two of them share a bit, which is for whoever declares them to see to.
-/

namespace WordSync.Field

/-- Members that are not disjoint have a bit in common. -/
theorem Member.exists_covers {m other : Member} (hm : 0 < m.bits) (hother : 0 < other.bits)
    (hshared : ¬m.Disjoint other) : ∃ j, m.Covers j ∧ other.Covers j := by
  simp only [Disjoint] at hshared
  refine ⟨max m.offset other.offset, ?_, ?_⟩
  · simp only [Covers]
    omega
  · simp only [Covers]
    omega

/-- A member can have any value that fits in its bits. -/
theorem Member.exists_value {w : Nat} {m : Member} (hfits : m.Fits w) {f : Nat}
    (hf : f < 2 ^ m.bits) : ∃ word : BitVec w, (m.value word).toNat = f := by
  have hwide : 2 ^ m.bits < 2 ^ w := Nat.pow_lt_pow_right (by decide) hfits.2.1
  refine ⟨BitVec.ofNat w f <<< m.offset, ?_⟩
  rw [toNat_value_shiftLeft hfits, BitVec.toNat_ofNat, Nat.mod_eq_of_lt (Nat.lt_trans hf hwide),
    Nat.mod_eq_of_lt hf]

namespace Mutator

/-- Every mutator can set a bit of a field in which all bits are clear, or clear the only bit that
is set. -/
theorem exists_result (op : Mutator) {bits i : Nat} (hi : i < bits) :
    ∃ f v : Nat, f < 2 ^ bits ∧ v < 2 ^ bits ∧
      ((f = 0 ∧ op.result bits f v = (2 ^ i : Nat)) ∨ (f = 2 ^ i ∧ op.result bits f v = 0)) := by
  have hzero := Nat.two_pow_pos bits
  have hlt : 2 ^ i < 2 ^ bits := Nat.pow_lt_pow_right (by decide) hi
  have hmod : 2 ^ i % 2 ^ bits = 2 ^ i := Nat.mod_eq_of_lt hlt
  cases op with
  | set => exact ⟨0, 2 ^ i, hzero, hlt, .inl ⟨rfl, rfl⟩⟩
  | setWrapped => exact ⟨0, 2 ^ i, hzero, hlt, .inl ⟨rfl, by rw [result, hmod]⟩⟩
  | add => exact ⟨0, 2 ^ i, hzero, hlt, .inl ⟨rfl, Int.zero_add _⟩⟩
  | addWrapped => exact ⟨0, 2 ^ i, hzero, hlt, .inl ⟨rfl, by rw [result, Nat.zero_add, hmod]⟩⟩
  | sub => exact ⟨2 ^ i, 2 ^ i, hlt, hlt, .inr ⟨rfl, Int.sub_self _⟩⟩
  | subWrapped =>
    exact ⟨2 ^ i, 2 ^ i, hlt, hlt, .inr ⟨rfl, by rw [result, Int.sub_self, Int.zero_emod]⟩⟩

/-- Every bit of a field can be changed by every mutator. -/
theorem exists_flip (op : Mutator) {bits i : Nat} (hi : i < bits) :
    ∃ f v : Nat, f < 2 ^ bits ∧ v < 2 ^ bits ∧ op.Permits bits f v ∧
      ∀ g : Nat, (g : Int) = op.result bits f v → g.testBit i ≠ f.testBit i := by
  have hzero := Nat.two_pow_pos bits
  have hlt : 2 ^ i < 2 ^ bits := Nat.pow_lt_pow_right (by decide) hi
  obtain ⟨f, v, hf, hv, hresult⟩ := op.exists_result hi
  refine ⟨f, v, hf, hv, ?_⟩
  rcases hresult with ⟨rfl, hresult⟩ | ⟨rfl, hresult⟩
  · rw [Permits, hresult]
    refine ⟨⟨Int.natCast_nonneg _, Int.ofNat_lt.mpr hlt⟩, fun g hg => ?_⟩
    rw [Int.ofNat_inj.mp hg, Nat.testBit_two_pow_self, Nat.zero_testBit]
    exact Bool.false_ne_true.symm
  · rw [Permits, hresult]
    refine ⟨⟨Int.le_refl 0, Int.natCast_pos.mpr hzero⟩, fun g hg => ?_⟩
    rw [Int.natCast_eq_zero.mp hg, Nat.testBit_two_pow_self, Nat.zero_testBit]
    exact Bool.false_ne_true

end Mutator

namespace Target

variable {k : Width} {target other : Target}

/-- Some change of `target` that succeeds changes what `other` reads. -/
def Disturbs (k : Width) (op : Mutator) (target other : Target) : Prop :=
  ∃ v word word' : BitVec k.bits,
    target.apply op v word = .ok () word' ∧ other.get word' ≠ other.get word

/-- For every bit of a field and every mutator there is a change that succeeds and changes the
bit. -/
theorem exists_apply_flip (haccepted : target.Accepted k.bits) (op : Mutator) {j : Nat}
    (hj : target.span.Covers j) :
    ∃ v word word' : BitVec k.bits,
      target.apply op v word = .ok () word' ∧ word'.getLsbD j ≠ word.getLsbD j := by
  have hfits := haccepted.fits
  have hplace : target.span.offset + (j - target.span.offset) = j := Nat.add_sub_of_le hj.1
  have hinside : j - target.span.offset < target.span.bits := Nat.sub_lt_left_of_lt_add hj.1 hj.2
  -- The bit of a word is a bit of the number in the field.
  have hbit : ∀ a : BitVec k.bits,
      a.getLsbD j = (target.span.value a).toNat.testBit (j - target.span.offset) := by
    intro a
    rw [BitVec.testBit_toNat, Member.getLsbD_value hfits, hplace, decide_eq_true hinside,
      Bool.and_true]
  obtain ⟨f, v, hf, hv, hpermits, hflip⟩ := op.exists_flip hinside
  obtain ⟨word, rfl⟩ := Member.exists_value hfits hf
  have hwide : 2 ^ target.span.bits < 2 ^ k.bits := Nat.pow_lt_pow_right (by decide) hfits.2.1
  obtain ⟨v, rfl⟩ : ∃ amount : BitVec k.bits, amount.toNat = v :=
    ⟨BitVec.ofNat k.bits v, by rw [BitVec.toNat_ofNat, Nat.mod_eq_of_lt (Nat.lt_trans hv hwide)]⟩
  refine ⟨v, word, _, (apply_eq_ok_iff haccepted op v word _).mpr ⟨hpermits, rfl⟩, ?_⟩
  rw [hbit, hbit]
  exact hflip _ (Member.toNat_value_merge_drive hfits op hpermits)

/-- A field can be disturbed through another one, by any mutator, just if they share a bit. -/
theorem disturbs_iff (haccepted : target.Accepted k.bits) (hother : other.Accepted k.bits)
    (op : Mutator) : target.Disturbs k op other ↔ ¬target.span.Disjoint other.span := by
  constructor
  · rintro ⟨v, word, word', happly, hchanged⟩ hdisjoint
    obtain ⟨-, rfl⟩ := (apply_eq_ok_iff haccepted op v word word').mp happly
    have hsame := hdisjoint.value_eq hother.fits fun j hj =>
      Member.getLsbD_merge_of_not_covers haccepted.fits hj word (op.drive target.span v word)
    rw [get_eq hother, get_eq hother, hsame] at hchanged
    exact hchanged rfl
  · intro hshared
    obtain ⟨j, hj, hj'⟩ :=
      Member.exists_covers haccepted.fits.1 hother.fits.1 hshared
    obtain ⟨v, word, word', happly, hchanged⟩ := exists_apply_flip haccepted op hj
    refine ⟨v, word, word', happly, fun hsame => hchanged ?_⟩
    rw [get_eq hother, get_eq hother] at hsame
    exact Member.getLsbD_eq_of_value_eq hother.fits (Except.ok.inj hsame) hj'

end Target

namespace Declaration

variable {d : Declaration}

/-- Whatever is done to a field, and whatever the word, all other fields read the same before and
after. -/
def Independent (d : Declaration) : Prop :=
  d.targets.Pairwise fun target other => ∀ op : Mutator,
    ¬target.Disturbs d.width op other ∧ ¬other.Disturbs d.width op target

/-- The fields of an accepted declaration are independent of each other just if no two of them
share a bit. -/
theorem independent_iff (haccepted : d.checkLayout = .ok ()) : d.Independent ↔ d.Disjoint := by
  have htargets := accepted_of_mem_targets haccepted
  refine List.Pairwise.iff_of_mem fun {target other} htarget hother => ?_
  have hthere := Target.disturbs_iff (htargets target htarget) (htargets other hother)
  have hback := Target.disturbs_iff (htargets other hother) (htargets target htarget)
  constructor
  · intro h
    have hnot := (h .set).1
    rwa [hthere, not_not] at hnot
  · intro hdisjoint op
    rw [hthere, hback, not_not, not_not]
    exact ⟨hdisjoint, hdisjoint.symm⟩

/-- The mode of the lamp and its two levels are independent. -/
theorem independent_iff_lamp : lamp.checkLayout = .ok () ∧ lamp.Independent := by
  have haccepted : lamp.checkLayout = .ok () := rfl
  exact ⟨haccepted, (independent_iff haccepted).mpr (by decide)⟩

/-- Three fields of 16 bits that lie on top of each other: one of 12 bits, a row of four, and one
that reaches into the third element of the row. -/
def overlap : Declaration where
  name := "Overlap"
  width := .w16
  fields := [("wide", .member ⟨0, 12⟩), ("nibs", .row ⟨0, 4, 4⟩), ("mid", .member ⟨6, 4⟩)]

/-- The declaration is accepted. When 64 is stored in its first field, the last field, which read
0, reads 1. -/
theorem not_independent_overlap :
    overlap.checkLayout = .ok () ∧
      (Target.member ⟨0, 12⟩).apply .set 64#16 0#16 = .ok () 64#16 ∧
      (Target.member ⟨6, 4⟩).get 0#16 = .ok 0#16 ∧ (Target.member ⟨6, 4⟩).get 64#16 = .ok 1#16 ∧
      ¬overlap.Independent := by
  have hbefore : (Target.member ⟨6, 4⟩).get 0#16 = .ok 0#16 := rfl
  have hafter : (Target.member ⟨6, 4⟩).get 64#16 = .ok 1#16 := rfl
  refine ⟨rfl, rfl, hbefore, hafter, fun h => ?_⟩
  have hlast : Target.member ⟨6, 4⟩ ∈ overlap.targets.tail := by decide
  refine (List.rel_of_pairwise_cons h hlast .set).1 ⟨64#16, 0#16, 64#16, rfl, fun hsame => ?_⟩
  have hread : (Except.ok 1#16 : Except Fault (BitVec 16)) = .ok 0#16 := hsame
  exact absurd (Except.ok.inj hread) (by decide)

end Declaration

end WordSync.Field
