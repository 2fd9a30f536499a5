import WordSync.Proofs.Field.Outcome

/-!
# Arithmetic of fields

A field of `b` bits holds a number below `2 ^ b`. A change of the field computes with that
number: it is let just if its exact result fits in the field, and then the field holds the
result. This is so wherever the field lies in the word and whatever bits its value has.
-/

namespace WordSync.Field

variable {w : Nat}

/-- A change that is let leaves its exact result in the member. -/
theorem Member.toNat_value_merge_drive {m : Member} (hfits : m.Fits w) (op : Mutator)
    {v word : BitVec w} (hpermits : op.Permits m.bits (m.value word).toNat v.toNat) :
    ((m.value (m.merge word (op.drive m v word))).toNat : Int) =
      op.result m.bits (m.value word).toNat v.toNat := by
  rw [value_merge hfits, toNat_value_drive hfits op hpermits]

namespace Target

variable {target : Target} {k : Width}

/-- A change of a field succeeds just if it is let, and then with one word. -/
theorem apply_eq_ok_iff (haccepted : target.Accepted k.bits) (op : Mutator)
    (v word word' : BitVec k.bits) :
    target.apply op v word = .ok () word' ↔
      op.Permits target.span.bits (target.span.value word).toNat v.toNat ∧
        word' = target.span.merge word (op.drive target.span v word) := by
  rw [apply_eq haccepted, Member.outcome]
  by_cases hpermits : op.Permits target.span.bits (target.span.value word).toNat v.toNat
  · rw [if_pos hpermits, EStateM.Result.ok.injEq]
    exact ⟨fun h => ⟨hpermits, h.2.symm⟩, fun h => ⟨rfl, h.2.symm⟩⟩
  · rw [if_neg hpermits]
    simp only [hpermits, false_and, reduceCtorEq]

/-- Fields compute with numbers. A field can be read and holds a number that fits in its bits.
A change of it succeeds just if the exact result fits, which for the wrapping changes it always
does, and after a success the field holds the exact result. -/
theorem apply_exact (haccepted : target.Accepted k.bits) (op : Mutator)
    (v word : BitVec k.bits) :
    ∃ f : BitVec k.bits, target.get word = .ok f ∧ f.toNat ≤ 2 ^ target.span.bits - 1 ∧
      ((∃ word', target.apply op v word = .ok () word') ↔
        op.Permits target.span.bits f.toNat v.toNat) ∧
      (op = .setWrapped ∨ op = .addWrapped ∨ op = .subWrapped →
        ∃ word', target.apply op v word = .ok () word') ∧
      ∀ word', target.apply op v word = .ok () word' →
        ∃ g : BitVec k.bits, target.get word' = .ok g ∧
          (g.toNat : Int) = op.result target.span.bits f.toNat v.toNat := by
  have hfits := haccepted.fits
  have hlt := Member.toNat_value_lt hfits word
  have hsuccess : (∃ word', target.apply op v word = .ok () word') ↔
      op.Permits target.span.bits (target.span.value word).toNat v.toNat := by
    simp only [apply_eq_ok_iff haccepted, exists_and_left, exists_eq, and_true]
  refine ⟨target.span.value word, get_eq haccepted word, by omega, hsuccess, ?_, ?_⟩
  · intro hwrapped
    apply hsuccess.mpr
    rcases hwrapped with rfl | rfl | rfl
    · exact Mutator.permits_setWrapped ..
    · exact Mutator.permits_addWrapped ..
    · exact Mutator.permits_subWrapped ..
  · intro word' happly
    obtain ⟨hpermits, rfl⟩ := (apply_eq_ok_iff haccepted op v word word').mp happly
    exact ⟨_, get_eq haccepted _, Member.toNat_value_merge_drive hfits op hpermits⟩

/-- A member at the top of a byte holds 2 and loses 255, three bits of which leave the word. -/
theorem apply_exact_byte :
    (Target.member ⟨3, 5⟩).Accepted 8 ∧
      ∃ f : BitVec 8, (Target.member ⟨3, 5⟩).get 0x15#8 = .ok f ∧ f.toNat = 2 ∧
        ∃ word', (Target.member ⟨3, 5⟩).apply .subWrapped 0xFF#8 0x15#8 = .ok () word' ∧
          ∃ g : BitVec 8, (Target.member ⟨3, 5⟩).get word' = .ok g ∧ g.toNat = 3 := by
  have haccepted : (Target.member ⟨3, 5⟩).Accepted 8 := rfl
  have hread : (Target.member ⟨3, 5⟩).get 0x15#8 = .ok 2#8 := rfl
  obtain ⟨f, hget, _, _, hwrapped, hresult⟩ :=
    apply_exact (k := .w8) haccepted .subWrapped 0xFF#8 0x15#8
  obtain ⟨word', happly⟩ := hwrapped (.inr (.inr rfl))
  obtain ⟨g, hget', hg⟩ := hresult word' happly
  have hf : f = 2#8 := (Except.ok.inj (hread.symm.trans hget)).symm
  subst hf
  exact ⟨haccepted, _, hget, rfl, word', happly, g, hget', Int.ofNat_inj.mp hg⟩

end Target

end WordSync.Field
