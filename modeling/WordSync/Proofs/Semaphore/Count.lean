import WordSync.Semaphore.Phase

/-!
# Counts as integers

The count is a signed 64-bit word, and the arithmetic on it either wraps or is checked. As long
as results stay in the range of such words, both kinds agree with the arithmetic of integers.
This file moves every operation on counts that a call uses to that arithmetic.
-/

namespace WordSync.Semaphore

namespace Count

/-- Every count lies in the range of signed 64-bit words. -/
theorem toInt_range (a : Int64) : -limit - 1 ≤ a.toInt ∧ a.toInt ≤ limit := by
  have hlow := a.le_toInt
  have hhigh := a.toInt_lt
  simp only [limit]
  omega

/-- A checked number is the number itself. -/
theorem toInt_of_checked {n : Int} {a : Int64} (h : checked n = .ok a) : a.toInt = n := by
  unfold checked at h
  split at h
  · next hrange =>
    cases h
    simp only [limit] at hrange
    exact Int64.toInt_ofInt_of_le (by omega) (by omega)
  · cases h

/-- A number in the range of counts passes the check. -/
theorem exists_checked {n : Int} (hlow : -limit - 1 ≤ n) (hhigh : n ≤ limit) :
    ∃ a, checked n = .ok a ∧ a.toInt = n := by
  have hok : checked n = .ok (.ofInt n) := if_pos ⟨hlow, hhigh⟩
  exact ⟨.ofInt n, hok, toInt_of_checked hok⟩

/-- A count has a negative unless it is the smallest of all. -/
theorem neg_cases (a : Int64) :
    (-(limit : Int) ≤ a.toInt ∧ ∃ n, neg a = .ok n ∧ n.toInt = -a.toInt) ∨
      (a.toInt < -(limit : Int) ∧ neg a = .error .overflow) := by
  have hrange := toInt_range a
  by_cases hlow : -(limit : Int) ≤ a.toInt
  · exact .inl ⟨hlow, exists_checked (by omega) (by omega)⟩
  · exact .inr ⟨by omega, if_neg (by omega)⟩

/-- Adding one to a negative count is always possible. -/
theorem exists_raised {a : Int64} (h : a.toInt < 0) :
    ∃ raised, add a 1 = .ok raised ∧ raised.toInt = a.toInt + 1 := by
  have hrange := toInt_range a
  have hone : Int64.toInt 1 = 1 := by decide
  exact exists_checked (by omega) (by omega)

/-- Adding to a count does not wrap while the sum is in range. -/
theorem toInt_add_of_range {a b : Int64} (hlow : -limit - 1 ≤ a.toInt + b.toInt)
    (hhigh : a.toInt + b.toInt ≤ limit) : (a + b).toInt = a.toInt + b.toInt := by
  simp only [limit] at hlow hhigh
  rw [Int64.toInt_add]
  exact Int.bmod_eq_of_le (by omega) (by omega)

/-- Subtracting from a count does not wrap while the difference is in range. -/
theorem toInt_sub_of_range {a b : Int64} (hlow : -limit - 1 ≤ a.toInt - b.toInt)
    (hhigh : a.toInt - b.toInt ≤ limit) : (a - b).toInt = a.toInt - b.toInt := by
  simp only [limit] at hlow hhigh
  rw [Int64.toInt_sub]
  exact Int.bmod_eq_of_le (by omega) (by omega)

/-- A count is positive exactly if its integer is. -/
theorem pos_iff {a : Int64} : 0 < a ↔ 0 < a.toInt := Int64.lt_iff_toInt_lt

/-- A count is not negative exactly if its integer is not. -/
theorem nonneg_iff {a : Int64} : 0 ≤ a ↔ 0 ≤ a.toInt := Int64.le_iff_toInt_le

/-- An amount as a count: the amount itself, or the largest count if it is larger. -/
theorem toInt_clamp (n : Nat) : (clamp n).toInt = ((min n limit : Nat) : Int) := by
  unfold clamp
  split
  · next h =>
    rw [Nat.min_eq_left h]
    exact Int64.toInt_ofNat_of_lt (by simp only [limit] at h; omega)
  · next h =>
    rw [Nat.min_eq_right (by omega)]
    exact Int64.toInt_maxValue

/-- A count that is not negative is an amount of the same size. -/
theorem amount_of_nonneg {a : Int64} (h : 0 ≤ a.toInt) : (amount a : Int) = a.toInt := by
  unfold amount
  rw [Int64.toNat_toUInt64_of_le (nonneg_iff.mpr h)]
  exact Int.toNat_of_nonneg h

/-- The sum of two small amounts. -/
theorem addAmounts_of_lt {a b : Nat} (h : a + b < amountLimit) : addAmounts a b = .ok (a + b) :=
  if_pos h

end Count

namespace Demand

/-- What is left of a positive count when up to `most` tokens are taken from it: nothing below
zero, and no more than there was. -/
theorem exists_leaving {most : Int64} (hmost : 0 ≤ most.toInt) (seen : Int64) :
    ∃ rest, leaving most seen = .ok rest ∧ rest.toInt = seen.toInt - min most.toInt seen.toInt := by
  have hrange := Count.toInt_range seen
  unfold leaving
  split
  · next h =>
    have hlt := Int64.lt_iff_toInt_lt.mp h
    obtain ⟨rest, hok, hrest⟩ :=
      Count.exists_checked (n := seen.toInt - most.toInt) (by omega) (by omega)
    exact ⟨rest, hok, by omega⟩
  · next h =>
    have hle : seen.toInt ≤ most.toInt := by
      have := mt Int64.lt_iff_toInt_lt.mpr h
      omega
    exact ⟨0, rfl, by rw [Int64.toInt_zero]; omega⟩

/-- No demand asks for a negative number of tokens. -/
theorem most_nonneg (demand : Demand) : 0 ≤ demand.most.toInt := by
  cases demand with
  | one => decide
  | upTo max =>
    rw [most, Count.toInt_clamp]
    omega

/-- A demand for any token may take at least one from the count. -/
theorem most_pos {demand : Demand} (h : demand.wanted) : 0 < demand.most.toInt := by
  cases demand with
  | one => decide
  | upTo max =>
    have hmax : 0 < max := of_decide_eq_true h
    rw [most, Count.toInt_clamp]
    simp only [Count.limit]
    omega

/-- A demand can always be met from a positive count, as far as there are tokens. -/
theorem exists_left (demand : Demand) {seen : Int64} (hseen : 0 < seen.toInt) :
    ∃ rest, demand.left seen = .ok rest ∧
      rest.toInt = seen.toInt - min demand.most.toInt seen.toInt := by
  cases demand with
  | one =>
    have hrange := Count.toInt_range seen
    have hone : Int64.toInt 1 = 1 := by decide
    obtain ⟨rest, hok, hrest⟩ :=
      Count.exists_checked (n := seen.toInt - Int64.toInt 1) (by omega) (by omega)
    exact ⟨rest, hok, by simp only [most]; omega⟩
  | upTo max => exact exists_leaving (most_nonneg (.upTo max)) seen

/-- What a demand has taken is the difference between what it found and what it left. -/
theorem exists_taken {demand : Demand} {seen rest : Int64} (hseen : 0 < seen.toInt)
    (hrest : rest.toInt = seen.toInt - min demand.most.toInt seen.toInt) :
    ∃ tokens, demand.taken seen rest = .ok tokens ∧
      (tokens : Int) = min demand.most.toInt seen.toInt := by
  have hmost := demand.most_nonneg
  cases demand with
  | one =>
    have hone : Int64.toInt 1 = 1 := by decide
    exact ⟨1, rfl, by simp only [most]; omega⟩
  | upTo max =>
    have hrange := Count.toInt_range seen
    obtain ⟨taken, hok, htaken⟩ :=
      Count.exists_checked (n := seen.toInt - rest.toInt) (by omega) (by omega)
    refine ⟨Count.amount taken, ?_, ?_⟩
    · simp only [Demand.taken, Count.sub, hok, Except.map]
    · rw [Count.amount_of_nonneg (by omega)]
      omega

end Demand

end WordSync.Semaphore
