import WordSync.Kernel.Posix
import WordSync.Proofs.Kernel.Deadline

/-!
# The steps of a semaphore of the system

Every step of a request takes a token, finds none or runs out of time, is interrupted, computes a
deadline, or puts one token in. `Stage.Goes` lists these cases with what each of them presupposes,
and with the two ways in which a step can fail: a post to a full semaphore, and a deadline that no
clock shows. A thread sleeps only where there is no token.
-/

namespace WordSync.Kernel.Posix.Stage

/-- Whether a stage makes a system call that takes a token, and makes it as it should be made. -/
def Takes : Stage → Prop
  | .waiting => True
  | .trying => True
  | .waitingUntil deadline => deadline.Normalized
  | _ => False

/-- The tokens that a stage has still to put in. -/
def owed : Stage → Nat
  | .posting left => left
  | _ => 0

/-- A stage that takes a token has none to put in. -/
theorem owed_of_takes {stage : Stage} (h : stage.Takes) : stage.owed = 0 := by
  cases stage with
  | posting left => exact absurd h id
  | _ => rfl

/-- Whether a stage belongs to a request. The deadline of a timed wait is one that the system
accepts. -/
def Serves : Request → Stage → Prop
  | .wait, .waiting => True
  | .tryWait, .trying => True
  | .timedWait _, .timing _ => True
  | .timedWait _, .waitingUntil deadline => deadline.Normalized
  | .signal _, .posting _ => True
  | _, _ => False

/-- How a request goes on from a stage, and what it leaves of the value of the semaphore. -/
inductive Goes (c : Circumstance) (value : Nat) : Stage → Progress Stage → Nat → Prop where
  /-- It takes a token. -/
  | take {stage : Stage} {left : Nat} (htakes : stage.Takes) (hvalue : value = left + 1) :
      Goes c value stage (.answered true) left
  /-- It is interrupted, and is about to make its system call again. -/
  | again {stage : Stage} (htakes : stage.Takes) (hchance : c.chance = .mishap) :
      Goes c value stage (.working stage) value
  /-- It finds no token and gives up. -/
  | refuse (hvalue : value = 0) : Goes c value .trying (.answered false) value
  /-- Its time is over. -/
  | expire {deadline : Timespec} (hnormal : deadline.Normalized) (hchance : c.chance = .expire) :
      Goes c value (.waitingUntil deadline) (.answered false) value
  /-- It computes its deadline. -/
  | time (timeout : Duration) {deadline : Timespec} (hnormal : deadline.Normalized) :
      Goes c value (.timing timeout) (.working (.waitingUntil deadline)) value
  /-- It puts a token in. -/
  | post (left : Nat) (hvalue : value < limit) :
      Goes c value (.posting (left + 1)) (.working (.posting left)) (value + 1)
  /-- It has put all its tokens in. -/
  | posted : Goes c value (.posting 0) (.answered true) value
  /-- It finds no room for a token. -/
  | full (left : Nat) (hvalue : limit ≤ value) :
      Goes c value (.posting (left + 1)) (.broken (.fatal SysCall.post.name .overflow)) value
  /-- The system does not accept its deadline. -/
  | invalid {deadline : Timespec} (hnormal : ¬deadline.Normalized) :
      Goes c value (.waitingUntil deadline)
        (.broken (.fatal (SysCall.timedWait deadline).name .invalidArgument)) value

/-- Where a thread sleeps. -/
inductive Sleeps (c : Circumstance) : Nat → Stage → Prop where
  /-- In a wait without a limit of time. -/
  | wait : Sleeps c 0 .waiting
  /-- In a wait whose time is not over. -/
  | timedWait {deadline : Timespec} (hnormal : deadline.Normalized)
      (hchance : c.chance = .regular) : Sleeps c 0 (.waitingUntil deadline)

/-- Every step of a request is one of those, unless the thread sleeps. -/
theorem goes_or_sleeps (c : Circumstance) (stage : Stage) (value : Nat) :
    (∃ progress left, stage.step c value = some (progress, left) ∧
        Goes c value stage progress left) ∨
      (stage.step c value = none ∧ Sleeps c value stage) := by
  cases stage with
  | waiting =>
    by_cases hchance : c.chance = .mishap
    · refine .inl ⟨_, _, ?_, .again trivial hchance⟩
      simp only [step, make, SysCall.perform, if_pos hchance]
      rfl
    · simp only [step, make, SysCall.perform, if_neg hchance]
      cases value with
      | zero => exact .inr ⟨rfl, .wait⟩
      | succ left => exact .inl ⟨_, _, rfl, .take trivial rfl⟩
  | trying =>
    by_cases hchance : c.chance = .mishap
    · refine .inl ⟨_, _, ?_, .again trivial hchance⟩
      simp only [step, make, SysCall.perform, if_pos hchance]
      rfl
    · simp only [step, make, SysCall.perform, if_neg hchance]
      cases value with
      | zero => exact .inl ⟨_, _, rfl, .refuse rfl⟩
      | succ left => exact .inl ⟨_, _, rfl, .take trivial rfl⟩
  | timing timeout =>
    refine .inl ⟨_, _, ?_, .time timeout (Deadline.normalized_ending c.clock timeout)⟩
    simp only [step, Deadline.ofTimeout_eq]
  | waitingUntil deadline =>
    by_cases hnormal : deadline.Normalized
    · simp only [step, make, SysCall.perform, if_neg (not_not_intro hnormal)]
      cases hchance : c.chance with
      | mishap => exact .inl ⟨_, _, rfl, .again hnormal hchance⟩
      | expire => exact .inl ⟨_, _, rfl, .expire hnormal hchance⟩
      | regular =>
        cases value with
        | zero => exact .inr ⟨rfl, .timedWait hnormal hchance⟩
        | succ left => exact .inl ⟨_, _, rfl, .take hnormal rfl⟩
    · refine .inl ⟨_, _, ?_, .invalid hnormal⟩
      simp only [step, make, SysCall.perform, if_pos hnormal]
      rfl
  | posting left =>
    cases left with
    | zero => exact .inl ⟨_, _, rfl, .posted⟩
    | succ left =>
      by_cases hvalue : value < limit
      · refine .inl ⟨_, _, ?_, .post left hvalue⟩
        simp only [step, make, SysCall.perform, if_pos hvalue]
        rfl
      · refine .inl ⟨_, _, ?_, .full left (Nat.le_of_not_lt hvalue)⟩
        simp only [step, make, SysCall.perform, if_neg hvalue]
        rfl

/-- Every step that is made is one of those. -/
theorem goes_of_step {c : Circumstance} {stage : Stage} {value left : Nat}
    {progress : Progress Stage} (h : stage.step c value = some (progress, left)) :
    Goes c value stage progress left := by
  rcases goes_or_sleeps c stage value with ⟨progress', left', hstep, hgoes⟩ | ⟨hstep, -⟩
  · obtain ⟨rfl, rfl⟩ := Prod.mk.inj (Option.some.inj (h.symm.trans hstep))
    exact hgoes
  · exact absurd (h.symm.trans hstep) (Option.some_ne_none _)

end WordSync.Kernel.Posix.Stage
