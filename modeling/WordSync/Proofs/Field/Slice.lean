import Mathlib.Algebra.Group.Int.Defs
import Mathlib.Algebra.Group.Nat.Defs
import WordSync.Field.Layout

/-!
# The slice of a word that belongs to a member

A word falls into three parts: the bits below a member, the bits of the member, and the bits
above it. `Member.value` reads the part in the middle and `Member.merge` replaces it. Addition
and subtraction work on the word as a whole; `getLsbD_add_placed` and `getLsbD_sub_placed` say
when they stay inside the member, and `toNat_value_add` and `toNat_value_sub` say what they
leave there in any case.
-/

namespace WordSync.Field.Member

variable {w : Nat} {m : Member}

/-- The largest value of a member, as a word. -/
def top (m : Member) : BitVec w := 1#w <<< m.bits - 1#w

/-- The word in which the bits of a member are set and all others are clear. -/
def stencil (m : Member) : BitVec w := m.top <<< m.offset

/-- Bit `j` of a word belongs to the member. -/
def Covers (m : Member) (j : Nat) : Prop := m.offset ≤ j ∧ j < m.offset + m.bits

instance (m : Member) (j : Nat) : Decidable (m.Covers j) := inferInstanceAs (Decidable (_ ∧ _))

/-- The value of a member in a word. -/
def value (m : Member) (word : BitVec w) : BitVec w := word >>> m.offset &&& m.top

/-- The word that is `other` inside a member and `word` outside it. -/
def merge (m : Member) (word other : BitVec w) : BitVec w :=
  word &&& ~~~m.stencil ||| other &&& m.stencil

/-- The largest value is one less than a power of two. -/
theorem toNat_top (hfits : m.Fits w) : (m.top : BitVec w).toNat = 2 ^ m.bits - 1 := by
  have hlt : 2 ^ m.bits < 2 ^ w := Nat.pow_lt_pow_right (by decide) hfits.2.1
  have hpos := Nat.two_pow_pos m.bits
  have hone : (1#w).toNat = 1 := by
    rw [BitVec.toNat_ofNat, Nat.mod_eq_of_lt (by omega)]
  have hshift : (1#w <<< m.bits).toNat = 2 ^ m.bits := by
    rw [BitVec.toNat_shiftLeft, hone, Nat.shiftLeft_eq, Nat.one_mul, Nat.mod_eq_of_lt hlt]
  have hle : 1#w ≤ 1#w <<< m.bits := by
    rw [BitVec.le_def, hone, hshift]
    exact hpos
  rw [top, BitVec.toNat_sub_of_le hle, hone, hshift]

/-- The largest value has the low bits set. -/
theorem getLsbD_top (hfits : m.Fits w) (j : Nat) :
    (m.top : BitVec w).getLsbD j = decide (j < m.bits) := by
  rw [← BitVec.testBit_toNat, toNat_top hfits, Nat.testBit_two_pow_sub_one]

/-- The stencil has the bits of the member set. -/
theorem getLsbD_stencil (hfits : m.Fits w) (j : Nat) :
    (m.stencil : BitVec w).getLsbD j = decide (m.Covers j) := by
  have hend := hfits.2.2
  rw [stencil, BitVec.getLsbD_shiftLeft, getLsbD_top hfits]
  by_cases hcovers : m.Covers j
  · have hlow := hcovers.1
    have hhigh := hcovers.2
    simp only [hcovers, decide_true, Bool.and_eq_true, Bool.not_eq_true', decide_eq_true_eq,
      decide_eq_false_iff_not]
    omega
  · simp only [hcovers, decide_false, Bool.and_eq_false_imp, decide_eq_true_eq,
      Bool.not_eq_true', decide_eq_false_iff_not, Bool.and_eq_true]
    simp only [Covers] at hcovers
    omega

/-- The value of a member is the number in the middle of the word. -/
theorem toNat_value (hfits : m.Fits w) (word : BitVec w) :
    (m.value word).toNat = word.toNat / 2 ^ m.offset % 2 ^ m.bits := by
  rw [value, BitVec.toNat_and, BitVec.toNat_ushiftRight, toNat_top hfits,
    Nat.and_two_pow_sub_one_eq_mod, Nat.shiftRight_eq_div_pow]

/-- The value of a member fits in its bits. -/
theorem toNat_value_lt (hfits : m.Fits w) (word : BitVec w) :
    (m.value word).toNat < 2 ^ m.bits := by
  rw [toNat_value hfits]
  exact Nat.mod_lt _ (Nat.two_pow_pos _)

/-- The bits of the value are those of the word from the first bit of the member on. -/
theorem getLsbD_value (hfits : m.Fits w) (word : BitVec w) (j : Nat) :
    (m.value word).getLsbD j = (word.getLsbD (m.offset + j) && decide (j < m.bits)) := by
  rw [value, BitVec.getLsbD_and, BitVec.getLsbD_ushiftRight, getLsbD_top hfits]

/-- Words that agree in the bits of a member agree in its value. -/
theorem value_congr (hfits : m.Fits w) {a b : BitVec w}
    (hagree : ∀ j, m.Covers j → a.getLsbD j = b.getLsbD j) : m.value a = m.value b := by
  apply BitVec.eq_of_getLsbD_eq
  intro j _
  rw [getLsbD_value hfits, getLsbD_value hfits]
  by_cases hj : j < m.bits
  · rw [hagree (m.offset + j) ⟨by omega, by omega⟩]
  · simp only [hj, decide_false, Bool.and_false]

/-- Words with the same value of a member agree in its bits. -/
theorem getLsbD_eq_of_value_eq (hfits : m.Fits w) {a b : BitVec w} (hvalue : m.value a = m.value b)
    {j : Nat} (hj : m.Covers j) : a.getLsbD j = b.getLsbD j := by
  have hplace : m.offset + (j - m.offset) = j := Nat.add_sub_of_le hj.1
  have hinside : j - m.offset < m.bits := Nat.sub_lt_left_of_lt_add hj.1 hj.2
  have hbit := congrArg (BitVec.getLsbD · (j - m.offset)) hvalue
  simpa only [getLsbD_value hfits, hplace, hinside, decide_true, Bool.and_true] using hbit

/-- Inside the member, a merged word is the other one. -/
theorem getLsbD_merge_of_covers (hfits : m.Fits w) {j : Nat} (hj : m.Covers j)
    (word other : BitVec w) : (m.merge word other).getLsbD j = other.getLsbD j := by
  simp only [merge, BitVec.getLsbD_or, BitVec.getLsbD_and, BitVec.getLsbD_not,
    getLsbD_stencil hfits, hj, decide_true, Bool.not_true, Bool.and_false, Bool.false_or,
    Bool.and_true]

/-- Outside the member, a merged word is what it was. -/
theorem getLsbD_merge_of_not_covers (hfits : m.Fits w) {j : Nat} (hj : ¬m.Covers j)
    (word other : BitVec w) : (m.merge word other).getLsbD j = word.getLsbD j := by
  simp only [merge, BitVec.getLsbD_or, BitVec.getLsbD_and, BitVec.getLsbD_not,
    getLsbD_stencil hfits, hj, decide_false, Bool.not_false, Bool.and_false, Bool.or_false,
    Bool.and_true]
  by_cases h : j < w
  · simp only [h, decide_true, Bool.and_true]
  · simp only [h, decide_false, Bool.and_false]
    exact (BitVec.getLsbD_of_ge word j (by omega)).symm

/-- A merged word has the value of the other one. -/
theorem value_merge (hfits : m.Fits w) (word other : BitVec w) :
    m.value (m.merge word other) = m.value other :=
  value_congr hfits fun _ hj => getLsbD_merge_of_covers hfits hj word other

/-- A word that differs from another only inside a member is merged with it already. -/
theorem eq_merge (hfits : m.Fits w) {word other : BitVec w}
    (hagree : ∀ j, ¬m.Covers j → other.getLsbD j = word.getLsbD j) :
    other = m.merge word other := by
  apply BitVec.eq_of_getLsbD_eq
  intro j _
  by_cases hj : m.Covers j
  · rw [getLsbD_merge_of_covers hfits hj]
  · rw [getLsbD_merge_of_not_covers hfits hj, hagree j hj]

/-- The three parts of a word make up the whole. -/
theorem two_pow_eq (hfits : m.Fits w) :
    2 ^ w = 2 ^ m.offset * (2 ^ m.bits * 2 ^ (w - (m.offset + m.bits))) := by
  rw [← Nat.mul_assoc, ← Nat.pow_add, ← Nat.pow_add, Nat.add_sub_of_le hfits.2.2]

/-- Addition in the place of a member adds to its value, modulo its size. -/
theorem toNat_value_add (hfits : m.Fits w) (word v : BitVec w) :
    (m.value (word + v <<< m.offset)).toNat =
      ((m.value word).toNat + v.toNat) % 2 ^ m.bits := by
  have hpos := Nat.two_pow_pos m.offset
  rw [toNat_value hfits, toNat_value hfits, BitVec.toNat_add, BitVec.toNat_shiftLeft,
    Nat.shiftLeft_eq, Nat.add_mod_mod, two_pow_eq hfits, Nat.mod_mul_right_div_self,
    Nat.mod_mul_right_mod, Nat.add_mul_div_right _ _ hpos, Nat.mod_add_mod]

/-- A value in the place of a member is there modulo the size of the member. -/
theorem toNat_value_shiftLeft (hfits : m.Fits w) (v : BitVec w) :
    (m.value (v <<< m.offset)).toNat = v.toNat % 2 ^ m.bits := by
  have hadd := toNat_value_add hfits 0#w v
  have hzero : (m.value 0#w).toNat = 0 := by
    rw [toNat_value hfits, BitVec.toNat_ofNat, Nat.zero_mod, Nat.zero_div, Nat.zero_mod]
  rwa [BitVec.zero_add, hzero, Nat.zero_add] at hadd

/-- Subtraction in the place of a member is undone by addition. -/
theorem toNat_value_eq_sub_add (hfits : m.Fits w) (word v : BitVec w) :
    (m.value word).toNat =
      ((m.value (word - v <<< m.offset)).toNat + v.toNat) % 2 ^ m.bits := by
  rw [← toNat_value_add hfits, BitVec.sub_add_cancel]

/-- Subtraction in the place of a member subtracts from its value, modulo its size. -/
theorem toNat_value_sub (hfits : m.Fits w) (word v : BitVec w) :
    ((m.value (word - v <<< m.offset)).toNat : Int) =
      (((m.value word).toNat : Int) - v.toNat) % (2 ^ m.bits : Nat) := by
  have hlt := toNat_value_lt hfits (word - v <<< m.offset)
  rw [toNat_value_eq_sub_add hfits word v, Int.natCast_emod, Int.emod_sub_emod, Int.natCast_add,
    Int.add_sub_cancel, Int.emod_eq_of_lt (Int.natCast_nonneg _) (by omega)]

/-- Where the last digit of a number does not overflow, the higher digits stay as they are. -/
theorem add_div_eq {n v b : Nat} (hfew : n % b + v < b) : (n + v) / b = n / b := by
  have hb : 0 < b := by omega
  have hsplit : n + v = b * (n / b) + (n % b + v) := by
    have := Nat.div_add_mod n b
    omega
  rw [hsplit, Nat.mul_add_div hb, Nat.div_eq_of_lt hfew, Nat.add_zero]

/-- Without a carry out of the member, addition in its place is addition of numbers. -/
theorem toNat_add_placed (hfits : m.Fits w) {word v : BitVec w}
    (hfew : (m.value word).toNat + v.toNat < 2 ^ m.bits) :
    (word + v <<< m.offset).toNat = word.toNat + v.toNat * 2 ^ m.offset := by
  have hpos := Nat.two_pow_pos m.offset
  have hsize : 0 < 2 ^ m.offset * 2 ^ m.bits := Nat.mul_pos hpos (Nat.two_pow_pos _)
  have hhigh : word.toNat / 2 ^ m.offset / 2 ^ m.bits < 2 ^ (w - (m.offset + m.bits)) := by
    rw [Nat.div_div_eq_div_mul, Nat.div_lt_iff_lt_mul hsize, Nat.mul_comm, Nat.mul_assoc,
      ← two_pow_eq hfits]
    exact word.isLt
  have hsum : word.toNat + v.toNat * 2 ^ m.offset < 2 ^ w := by
    rw [toNat_value hfits] at hfew
    rw [two_pow_eq hfits, Nat.mul_comm (2 ^ m.offset), ← Nat.div_lt_iff_lt_mul hpos,
      Nat.add_mul_div_right _ _ hpos, Nat.mul_comm (2 ^ m.bits),
      ← Nat.div_lt_iff_lt_mul (Nat.two_pow_pos _), add_div_eq hfew]
    exact hhigh
  rw [BitVec.toNat_add, BitVec.toNat_shiftLeft, Nat.shiftLeft_eq, Nat.add_mod_mod,
    Nat.mod_eq_of_lt hsum]

/-- Addition in the place of a member leaves all other bits alone, if the sum fits. -/
theorem getLsbD_add_placed (hfits : m.Fits w) {word v : BitVec w}
    (hfew : (m.value word).toNat + v.toNat < 2 ^ m.bits) {j : Nat} (hj : ¬m.Covers j) :
    (word + v <<< m.offset).getLsbD j = word.getLsbD j := by
  have hpos := Nat.two_pow_pos m.offset
  rw [← BitVec.testBit_toNat, ← BitVec.testBit_toNat, toNat_add_placed hfits hfew]
  rw [toNat_value hfits] at hfew
  by_cases hlow : j < m.offset
  · have hmod : (word.toNat + v.toNat * 2 ^ m.offset) % 2 ^ m.offset =
        word.toNat % 2 ^ m.offset := Nat.add_mul_mod_self_right ..
    have hbit := congrArg (Nat.testBit · j) hmod
    simpa only [Nat.testBit_mod_two_pow, hlow, decide_true, Bool.true_and] using hbit
  · have habove : m.offset + m.bits ≤ j := by
      simp only [Covers] at hj
      omega
    have hdiv : (word.toNat + v.toNat * 2 ^ m.offset) / 2 ^ (m.offset + m.bits) =
        word.toNat / 2 ^ (m.offset + m.bits) := by
      rw [Nat.pow_add, ← Nat.div_div_eq_div_mul, ← Nat.div_div_eq_div_mul,
        Nat.add_mul_div_right _ _ hpos, add_div_eq hfew]
    have hbit := congrArg (Nat.testBit · (j - (m.offset + m.bits))) hdiv
    simpa only [Nat.testBit_div_two_pow, Nat.sub_add_cancel habove] using hbit

/-- Subtraction in the place of a member leaves all other bits alone, if the member holds at
least what is taken away. -/
theorem getLsbD_sub_placed (hfits : m.Fits w) {word v : BitVec w}
    (hle : v.toNat ≤ (m.value word).toNat) {j : Nat} (hj : ¬m.Covers j) :
    (word - v <<< m.offset).getLsbD j = word.getLsbD j := by
  have hlt := toNat_value_lt hfits (word - v <<< m.offset)
  have hlt' := toNat_value_lt hfits word
  have hundo := toNat_value_eq_sub_add hfits word v
  -- The addition that undoes the subtraction has no carry, as the sum would then be below `v`.
  have hfew : (m.value (word - v <<< m.offset)).toNat + v.toNat < 2 ^ m.bits := by
    by_cases hcarry : (m.value (word - v <<< m.offset)).toNat + v.toNat < 2 ^ m.bits
    · exact hcarry
    · rw [Nat.mod_eq_sub_mod (by omega), Nat.mod_eq_of_lt (by omega)] at hundo
      omega
  have hbit := getLsbD_add_placed hfits hfew hj
  rw [BitVec.sub_add_cancel] at hbit
  exact hbit.symm

end WordSync.Field.Member
