import WordSync.Proofs.Field.Arithmetic
import WordSync.Proofs.Field.Safety

/-!
# When field operations are refused

An operation on a field with an accepted layout is refused just if its caller has broken one of
two contracts. The exact result of the operation may not fit in the field, and an index may lie
beyond the end of a row. Where both are broken it depends on the operation which of the two the
refusal tells of: storing looks at the value first, every other change at the index. A refusal
leaves the word as it was.
-/

namespace WordSync.Field

variable {w : Nat}

namespace Mutator

/-- A value breaks the contract of a mutator on a field of `bits` bits that holds `f`: it is
larger than the largest value, the sum is, or there is less to take it from. The wrapping
mutators take every value. -/
def Breaks (op : Mutator) (bits f v : Nat) : Prop :=
  match op with
  | .set => 2 ^ bits - 1 < v
  | .add => 2 ^ bits - 1 < f + v
  | .sub => f < v
  | .setWrapped | .addWrapped | .subWrapped => False

instance (op : Mutator) (bits f v : Nat) : Decidable (op.Breaks bits f v) :=
  match op with
  | .set | .add | .sub => inferInstanceAs (Decidable (_ < _))
  | .setWrapped | .addWrapped | .subWrapped => inferInstanceAs (Decidable False)

/-- The exact result does not fit in the field just if the value breaks the contract. -/
theorem not_permits_iff_breaks (op : Mutator) {bits f : Nat} (hf : f < 2 ^ bits) (v : Nat) :
    ¬op.Permits bits f v ↔ op.Breaks bits f v := by
  cases op with
  | set | add | sub =>
    simp only [Permits, result, Breaks]
    omega
  | setWrapped => simp only [permits_setWrapped, not_true_eq_false, Breaks]
  | addWrapped => simp only [permits_addWrapped, not_true_eq_false, Breaks]
  | subWrapped => simp only [permits_subWrapped, not_true_eq_false, Breaks]

/-- What is said of a value does not begin like what is said of an index. -/
theorem head?_message_refusal_ne (op : Mutator) (place : Place) (v bits : Nat) :
    (op.refusal place v bits).message.toList.head? ≠ some 'b' := by
  unfold refusal
  split
  all_goals
    unfold Violation.message
    simp only [String.toList_append, List.head?_append]
    exact nofun

end Mutator

/-- What is said of an index begins with the name of what has been indexed. -/
theorem Violation.head?_message_index (i count : Nat) :
    (index i count).message.toList.head? = some 'b' := by
  unfold message
  simp only [String.toList_append, List.head?_append]
  rfl

/-- What is said of a value is never what is said of an index. -/
theorem Mutator.message_refusal_ne (op : Mutator) (place : Place) (v bits i count : Nat) :
    (op.refusal place v bits).message ≠ (Violation.index i count).message := by
  intro hsame
  apply op.head?_message_refusal_ne place v bits
  rw [hsame, Violation.head?_message_index]

/-- A change of an accepted field is refused just if the value breaks the contract. The refusal
says so, and the word stays. -/
theorem Target.apply_eq_error_iff {target : Target} {k : Width}
    (haccepted : target.Accepted k.bits) (op : Mutator) (v word word' : BitVec k.bits)
    (fault : Fault) :
    target.apply op v word = .error fault word' ↔
      op.Breaks target.span.bits (target.span.value word).toNat v.toNat ∧
        fault = .contract (op.refusal target.place v.toNat target.span.bits) ∧ word' = word := by
  have hf := Member.toNat_value_lt haccepted.fits word
  rw [apply_eq haccepted, Member.outcome, ← op.not_permits_iff_breaks hf]
  by_cases hpermits : op.Permits target.span.bits (target.span.value word).toNat v.toNat
  · rw [if_pos hpermits]
    simp only [reduceCtorEq, hpermits, not_true_eq_false, false_and]
  · rw [if_neg hpermits, EStateM.Result.error.injEq]
    constructor
    · rintro ⟨rfl, rfl⟩
      exact ⟨hpermits, rfl, rfl⟩
    · rintro ⟨-, rfl, rfl⟩
      exact ⟨rfl, rfl⟩

/-- All that can go wrong with a member of a word, and what is said of it. -/
structure Member.Refusals (m : Member) (v word : BitVec w) : Prop where
  /-- The largest value can always be computed. -/
  maximum : ∃ top : BitVec w, m.maximum = .ok top ∧ top.toNat = 2 ^ m.bits - 1
  /-- The mask can always be computed. -/
  mask : ∃ mask : BitVec w, m.mask = .ok mask
  /-- The word with a one in the member can always be computed. -/
  one : ∃ one : BitVec w, m.one = .ok one
  /-- The member can always be read. -/
  get : ∃ f, m.get word = .ok f
  /-- A change fails just if the value breaks its contract with what the member holds. -/
  apply : ∀ f, m.get word = .ok f → ∀ (op : Mutator) (fault : Fault) (word' : BitVec w),
    m.apply op v word = .error fault word' ↔
      op.Breaks m.bits f.toNat v.toNat ∧
        fault = .contract (op.refusal .member v.toNat m.bits) ∧ word' = word

/-- A question about element `i` fails just if the row has no such element, and says so. -/
def Row.FailsBeyond {α : Type} (r : Row) (i : Nat) (answer : Except Fault α) : Prop :=
  ∀ fault, answer = .error fault ↔ r.count ≤ i ∧ fault = .contract (.index i r.count)

/-- All that can go wrong with an element of a row in a word, and what is said of it. -/
structure Row.Refusals (r : Row) (i : Nat) (v word : BitVec w) : Prop where
  /-- The largest value can always be computed. -/
  maximum : ∃ top : BitVec w, r.maximum = .ok top ∧ top.toNat = 2 ^ r.bits - 1
  /-- The position fails for the index alone. -/
  offset : r.FailsBeyond i (r.offset i)
  /-- The mask fails for the index alone. -/
  mask : r.FailsBeyond i (r.mask (w := w) i)
  /-- The word with a one in the element fails for the index alone. -/
  one : r.FailsBeyond i (r.one (w := w) i)
  /-- Reading fails for the index alone. -/
  get : r.FailsBeyond i (r.get i word)
  /-- Storing fails for the value, whatever the index is, and for the index if the value fits. -/
  set : ∀ (fault : Fault) (word' : BitVec w), r.set i v word = .error fault word' ↔
    ((2 ^ r.bits - 1 < v.toNat ∧ fault = .contract (.tooWide .element v.toNat r.bits)) ∨
      (v.toNat ≤ 2 ^ r.bits - 1 ∧ r.count ≤ i ∧ fault = .contract (.index i r.count))) ∧
    word' = word
  /-- Every other change fails for the index, whatever the value is, and for the value if it
  breaks the contract with what the element holds. -/
  apply : ∀ op : Mutator, op ≠ .set → ∀ (fault : Fault) (word' : BitVec w),
    r.apply i op v word = .error fault word' ↔
      ((r.count ≤ i ∧ fault = .contract (.index i r.count)) ∨
        ∃ f, r.get i word = .ok f ∧ op.Breaks r.bits f.toNat v.toNat ∧
          fault = .contract (op.refusal .element v.toNat r.bits)) ∧
      word' = word

variable {k : Width}

/-- Nothing else goes wrong with a member whose layout is accepted. -/
theorem Member.refusals {m : Member} (haccepted : m.checkLayout k.bits = .ok ())
    (v word : BitVec k.bits) : m.Refusals v word := by
  have hfits := (checkLayout_iff_fits k.bits_lt_positionLimit).mp haccepted
  refine ⟨⟨_, maximum_eq hfits, toNat_top hfits⟩, ⟨_, mask_eq hfits⟩, ⟨_, one_eq hfits⟩,
    ⟨_, get_eq hfits word⟩, fun f hget op fault word' => ?_⟩
  obtain rfl := Except.ok.inj (hget.symm.trans (get_eq hfits word))
  have hmember : (Target.member m).Accepted k.bits := haccepted
  exact Target.apply_eq_error_iff hmember op v word word' fault

namespace Row

variable {r : Row} {i : Nat}

/-- The largest value of the elements can be computed, whether the row has any or not. -/
theorem exists_maximum (hfits : r.Fits w) :
    ∃ top : BitVec w, r.maximum = .ok top ∧ top.toNat = 2 ^ r.bits - 1 := by
  have hlow : (Member.mk 0 r.bits).Fits w := by
    obtain ⟨hpos, hlt, -⟩ := hfits
    refine ⟨hpos, hlt, ?_⟩
    dsimp only
    omega
  exact ⟨(Member.mk 0 r.bits).top, maximum_eq hfits 0, Member.toNat_top hlow⟩

/-- What an operation compares a value with is the largest value, whatever the index is. -/
theorem le_top_iff (hfits : r.Fits w) (i : Nat) (v : BitVec w) :
    v ≤ (r.element i).top ↔ v.toNat ≤ 2 ^ r.bits - 1 := by
  obtain ⟨top, htop, hsize⟩ := exists_maximum hfits
  obtain rfl := Except.ok.inj (htop.symm.trans (maximum_eq hfits i))
  rw [BitVec.le_def, hsize]

/-- A question about an element that the row has does not fail. -/
theorem failsBeyond_ok {α : Type} (hi : i < r.count) (value : α) :
    r.FailsBeyond i (.ok value) := by
  intro fault
  constructor
  · intro h
    cases h
  · rintro ⟨hle, -⟩
    omega

/-- A question about an element that the row does not have fails for the index. -/
theorem failsBeyond_error {α : Type} (hi : r.count ≤ i) :
    r.FailsBeyond i (.error (.contract (.index i r.count)) : Except Fault α) := by
  intro fault
  constructor
  · rintro ⟨rfl⟩
    exact ⟨hi, rfl⟩
  · rintro ⟨-, rfl⟩
    rfl

/-- Nothing else goes wrong with an element that the row has. -/
theorem refusals_of_lt (haccepted : r.checkLayout k.bits = .ok ()) (hi : i < r.count)
    (v word : BitVec k.bits) : r.Refusals i v word := by
  have hw := k.bits_lt_positionLimit
  have hfits := (checkLayout_iff_fits hw).mp haccepted
  have hget := get_eq hfits hw hi word
  have helement : (Target.element r i).Accepted k.bits := ⟨haccepted, hi⟩
  have hchange := Target.apply_eq_error_iff helement
  constructor
  case maximum => exact exists_maximum hfits
  case offset =>
    rw [offset_eq hfits hw hi]
    exact failsBeyond_ok hi _
  case mask =>
    rw [mask_eq hfits hw hi]
    exact failsBeyond_ok hi _
  case one =>
    rw [one_eq hfits hw hi]
    exact failsBeyond_ok hi _
  case get =>
    rw [hget]
    exact failsBeyond_ok hi _
  case set =>
    intro fault word'
    refine (hchange .set v word word' fault).trans ?_
    constructor
    · rintro ⟨hbreaks, rfl, rfl⟩
      exact ⟨.inl ⟨hbreaks, rfl⟩, rfl⟩
    · rintro ⟨⟨hbreaks, rfl⟩ | ⟨-, hle, -⟩, rfl⟩
      · exact ⟨hbreaks, rfl, rfl⟩
      · omega
  case apply =>
    intro op _ fault word'
    refine (hchange op v word word' fault).trans ?_
    constructor
    · rintro ⟨hbreaks, rfl, rfl⟩
      exact ⟨.inr ⟨_, hget, hbreaks, rfl⟩, rfl⟩
    · rintro ⟨⟨hle, -⟩ | ⟨f, hf, hbreaks, rfl⟩, rfl⟩
      · omega
      · obtain rfl := Except.ok.inj (hf.symm.trans hget)
        exact ⟨hbreaks, rfl, rfl⟩

/-- Nothing else goes wrong beyond the end of the row. -/
theorem refusals_of_le (haccepted : r.checkLayout k.bits = .ok ()) (hi : r.count ≤ i)
    (v word : BitVec k.bits) : r.Refusals i v word := by
  have hfits := (checkLayout_iff_fits k.bits_lt_positionLimit).mp haccepted
  have hget := get_of_le hi word
  constructor
  case maximum => exact exists_maximum hfits
  case offset =>
    rw [offset_of_le hi]
    exact failsBeyond_error hi
  case mask =>
    rw [mask_of_le hfits hi]
    exact failsBeyond_error hi
  case one =>
    rw [one_of_le hi]
    exact failsBeyond_error hi
  case get =>
    rw [hget]
    exact failsBeyond_error hi
  case set =>
    intro fault word'
    rw [set_of_le hfits hi]
    have hle := le_top_iff hfits i v
    by_cases hv : v ≤ (r.element i).top
    · have hfew := hle.mp hv
      rw [if_pos hv, EStateM.Result.error.injEq]
      constructor
      · rintro ⟨rfl, rfl⟩
        exact ⟨.inr ⟨hfew, hi, rfl⟩, rfl⟩
      · rintro ⟨⟨hmany, -⟩ | ⟨-, -, rfl⟩, rfl⟩
        · omega
        · exact ⟨rfl, rfl⟩
    · have hmany := mt hle.mpr hv
      rw [if_neg hv, EStateM.Result.error.injEq]
      constructor
      · rintro ⟨rfl, rfl⟩
        exact ⟨.inl ⟨by omega, rfl⟩, rfl⟩
      · rintro ⟨⟨-, rfl⟩ | ⟨hfew, -⟩, rfl⟩
        · exact ⟨rfl, rfl⟩
        · omega
  case apply =>
    intro op hop fault word'
    rw [apply_of_le hfits hi hop, EStateM.Result.error.injEq]
    constructor
    · rintro ⟨rfl, rfl⟩
      exact ⟨.inl ⟨hi, rfl⟩, rfl⟩
    · rintro ⟨⟨-, rfl⟩ | ⟨f, hf, -⟩, rfl⟩
      · exact ⟨rfl, rfl⟩
      · rw [hget] at hf
        cases hf

end Row

/-- The refusals of field operations are exact. Whatever the word, the value and the index are, an
operation on a field with an accepted layout fails just where `Member.Refusals` and
`Row.Refusals` say so, with the contract that they say has been broken, and leaves the word as it
was. A contract about the value and one about the index can be told apart by what is said of
them. -/
theorem refusals_exact (k : Width) :
    (∀ m : Member, m.checkLayout k.bits = .ok () → ∀ v word : BitVec k.bits,
      m.Refusals v word) ∧
    (∀ r : Row, r.checkLayout k.bits = .ok () → ∀ (i : Nat) (v word : BitVec k.bits),
      r.Refusals i v word) ∧
    ∀ (op : Mutator) (place : Place) (v bits i count : Nat),
      (op.refusal place v bits).message ≠ (Violation.index i count).message := by
  refine ⟨fun m haccepted => Member.refusals haccepted, ?_, Mutator.message_refusal_ne⟩
  intro r haccepted i v word
  by_cases hi : i < r.count
  · exact Row.refusals_of_lt haccepted hi v word
  · exact Row.refusals_of_le haccepted (Nat.le_of_not_lt hi) v word

/-- Two nibbles of a byte, of which the upper one holds 5. Where the value and the index are both
bad, storing complains of the value and adding of the index. -/
theorem refusals_exact_nibbles :
    (Row.mk 0 4 2).checkLayout 8 = .ok () ∧
      (Row.mk 0 4 2).set 9 0x1F#8 0x50#8 = .error (.contract (.tooWide .element 31 4)) 0x50#8 ∧
      (Row.mk 0 4 2).add 9 0x1F#8 0x50#8 = .error (.contract (.index 9 2)) 0x50#8 ∧
      (Row.mk 0 4 2).set 9 3#8 0x50#8 = .error (.contract (.index 9 2)) 0x50#8 ∧
      (Row.mk 0 4 2).add 1 11#8 0x50#8 = .error (.contract (.aboveMaximum .element 11 4)) 0x50#8 ∧
      (Member.mk 4 4).checkLayout 8 = .ok () ∧
      (Member.mk 4 4).sub 6#8 0x50#8 = .error (.contract (.belowZero .member 6 4)) 0x50#8 := by
  obtain ⟨hmembers, hrows, -⟩ := refusals_exact .w8
  have hrow : (Row.mk 0 4 2).checkLayout 8 = .ok () := rfl
  have hmember : (Member.mk 4 4).checkLayout 8 = .ok () := rfl
  have hbeyond := hrows ⟨0, 4, 2⟩ hrow 9
  have hupper := hrows ⟨0, 4, 2⟩ hrow 1
  refine ⟨hrow, ?_, ?_, ?_, ?_, hmember, ?_⟩
  · exact ((hbeyond 0x1F#8 0x50#8).set _ _).mpr ⟨.inl ⟨by decide, rfl⟩, rfl⟩
  · exact ((hbeyond 0x1F#8 0x50#8).apply .add nofun _ _).mpr ⟨.inl ⟨by decide, rfl⟩, rfl⟩
  · exact ((hbeyond 3#8 0x50#8).set _ _).mpr ⟨.inr ⟨by decide, by decide, rfl⟩, rfl⟩
  · exact ((hupper 11#8 0x50#8).apply .add nofun _ _).mpr
      ⟨.inr ⟨5#8, rfl, by decide, rfl⟩, rfl⟩
  · exact ((hmembers ⟨4, 4⟩ hmember 6#8 0x50#8).apply 5#8 rfl .sub _ _).mpr
      ⟨by decide, rfl, rfl⟩

end WordSync.Field
