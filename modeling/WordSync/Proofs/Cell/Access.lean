import WordSync.Cell.Access

/-!
# What an exchange can answer

An exchange either finds the expected value and writes, or finds some value and leaves it. The
weak form may also leave the expected value, so that only its success says anything about what
it found.
-/

namespace WordSync.Cell.Access

variable {α : Type} [DecidableEq α] [Add α] [Sub α]

/-- The two answers of an exchange. -/
theorem exchange_cases (spurious : Bool) (current next value : α) :
    (value = current ∧ (exchange current next).perform spurious value = (.ok value, next)) ∨
      (value ≠ current ∧
        (exchange current next).perform spurious value = (.error value, value)) := by
  by_cases h : value = current
  · exact .inl ⟨h, if_pos h⟩
  · exact .inr ⟨h, if_neg h⟩

/-- The two answers of a weak exchange. It does not fail by itself unless it is made to. -/
theorem exchangeWeak_cases (spurious : Bool) (current next value : α) :
    (value = current ∧
        (exchangeWeak current next).perform spurious value = (.ok value, next)) ∨
      ((value = current → spurious = true) ∧
        (exchangeWeak current next).perform spurious value = (.error value, value)) := by
  by_cases h : spurious = false ∧ value = current
  · exact .inl ⟨h.2, if_pos h⟩
  · refine .inr ⟨fun hvalue => ?_, if_neg h⟩
    cases spurious with
    | false => exact absurd ⟨rfl, hvalue⟩ h
    | true => rfl

end WordSync.Cell.Access
