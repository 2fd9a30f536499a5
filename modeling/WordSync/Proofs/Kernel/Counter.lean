import WordSync.Kernel.Counter

/-!
# What the plain counter answers

Every request to the plain counter is over after one step. A request for a token that was
granted has taken exactly one; one that was refused has taken none, and only a timed wait may
refuse although there is a token.
-/

namespace WordSync.Kernel.Counter

/-- The plain counter answers every request in one step. -/
theorem step_answered {c : Circumstance} {request : Request} {tokens tokens' : Nat}
    {progress : Progress Request} (h : step c request tokens = some (progress, tokens')) :
    ∃ granted, progress = .answered granted := by
  unfold step at h
  split at h
  · cases h
  · cases h; exact ⟨_, rfl⟩
  · cases h; exact ⟨_, rfl⟩
  · cases h; exact ⟨_, rfl⟩
  · split at h
    · cases h; exact ⟨_, rfl⟩
    · split at h
      · cases h
      · cases h; exact ⟨_, rfl⟩
  · cases h; exact ⟨_, rfl⟩

/-- An untimed wait that is over has taken a token. -/
theorem step_wait {c : Circumstance} {tokens tokens' : Nat} {granted : Bool}
    (h : step c .wait tokens = some (.answered granted, tokens')) :
    granted = true ∧ tokens = tokens' + 1 := by
  cases tokens with
  | zero => simp only [step, reduceCtorEq] at h
  | succ tokens =>
    simp only [step, Option.some.injEq, Prod.mk.injEq, Progress.answered.injEq] at h
    exact ⟨h.1.symm, by omega⟩

/-- An attempt takes a token exactly if there is one. -/
theorem step_tryWait {c : Circumstance} {tokens tokens' : Nat} {granted : Bool}
    (h : step c .tryWait tokens = some (.answered granted, tokens')) :
    (granted = true ∧ tokens = tokens' + 1) ∨ (granted = false ∧ tokens = 0 ∧ tokens' = 0) := by
  cases tokens with
  | zero =>
    simp only [step, Option.some.injEq, Prod.mk.injEq, Progress.answered.injEq] at h
    exact .inr ⟨h.1.symm, rfl, h.2.symm⟩
  | succ tokens =>
    simp only [step, Option.some.injEq, Prod.mk.injEq, Progress.answered.injEq] at h
    exact .inl ⟨h.1.symm, by omega⟩

/-- A timed wait takes a token or expires. -/
theorem step_timedWait {c : Circumstance} {timeout : Duration} {tokens tokens' : Nat}
    {granted : Bool} (h : step c (.timedWait timeout) tokens = some (.answered granted, tokens')) :
    (granted = true ∧ tokens = tokens' + 1) ∨ (granted = false ∧ tokens' = tokens) := by
  by_cases hexpire : c.chance = .expire
  · simp only [step, if_pos hexpire, Option.some.injEq, Prod.mk.injEq,
      Progress.answered.injEq] at h
    exact .inr ⟨h.1.symm, h.2.symm⟩
  · cases tokens with
    | zero => simp only [step, if_neg hexpire, reduceCtorEq] at h
    | succ tokens =>
      simp only [step, if_neg hexpire, Option.some.injEq, Prod.mk.injEq,
        Progress.answered.injEq] at h
      exact .inl ⟨h.1.symm, by omega⟩

/-- A signal puts its tokens in. -/
theorem step_signal {c : Circumstance} {count tokens tokens' : Nat} {granted : Bool}
    (h : step c (.signal count) tokens = some (.answered granted, tokens')) :
    tokens' = tokens + count := by
  simp only [step, Option.some.injEq, Prod.mk.injEq] at h
  exact h.2.symm

end WordSync.Kernel.Counter
