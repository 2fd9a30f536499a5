import WordSync.Cell.Thread
import WordSync.Proofs.Cell.Access

/-!
# The steps of a thread that shares a cell

A step of a thread is a single access, or a step of an update. An update changes the cell in one
of its steps at most, the exchange that succeeds, and that step is its last. In every other step
it asks its rule about the value that it has just found; the rule has it try an exchange, or give
up, or break off.
-/

namespace WordSync.Cell.Thread

variable {α ε : Type}

/-- A thread has broken off if the rule of its update has failed. -/
theorem fault?_eq_some_iff {thread : Thread α ε} {fault : ε} :
    thread.fault? = some fault ↔ thread.stage = .failed fault := by
  unfold fault?
  cases thread.stage with
  | fetch => simp only [reduceCtorEq]
  | swap seen next => simp only [reduceCtorEq]
  | finished result => simp only [reduceCtorEq]
  | failed fault' => rw [Option.some.injEq, Update.failed.injEq]

variable [DecidableEq α] [Add α] [Sub α]

/-- Whether the next step of a thread is an exchange that its update has asked for and that
succeeds. -/
def swaps (spurious : Bool) (thread : Thread α ε) (value : α) : Bool :=
  match thread.todo, thread.stage with
  | .update _ :: _, .swap seen next =>
    match ((Access.exchangeWeak seen next).perform spurious value).1 with
    | .ok _ => true
    | .error _ => false
  | _, _ => false

/-- What one step of a thread can do, from a value that it finds to one that it leaves. -/
inductive Step (spurious : Bool) (before : Thread α ε) (found : α) : Thread α ε → α → Prop where
  /-- Make a single access. -/
  | access (access : Access α) (rest : List (Task α ε))
      (htodo : before.todo = .access access :: rest) :
      Step spurious before found ⟨rest, .fetch, before.results⟩ (access.perform spurious found).2
  /-- End an update whose rule declines the value. -/
  | decline (rule : Rule α ε) (rest : List (Task α ε))
      (htodo : before.todo = .update rule :: rest) (hrule : rule found = .ok none)
      (hswaps : before.swaps spurious found = false) :
      Step spurious before found ⟨rest, .fetch, .error found :: before.results⟩ found
  /-- Go on with an update whose rule has an answer to the value. -/
  | plan (rule : Rule α ε) (rest : List (Task α ε)) (next : α)
      (htodo : before.todo = .update rule :: rest) (hrule : rule found = .ok (some next))
      (hswaps : before.swaps spurious found = false) :
      Step spurious before found ⟨before.todo, .swap found next, before.results⟩ found
  /-- Break off an update whose rule fails on the value. -/
  | fail (rule : Rule α ε) (rest : List (Task α ε)) (fault : ε)
      (htodo : before.todo = .update rule :: rest) (hrule : rule found = .error fault)
      (hswaps : before.swaps spurious found = false) :
      Step spurious before found ⟨before.todo, .failed fault, before.results⟩ found
  /-- End an update by an exchange. -/
  | commit (rule : Rule α ε) (rest : List (Task α ε)) (next : α)
      (htodo : before.todo = .update rule :: rest) (hstage : before.stage = .swap found next)
      (hswaps : before.swaps spurious found = true) :
      Step spurious before found ⟨rest, .fetch, .ok found :: before.results⟩ next

/-- A step in which the rule is asked, and what it makes of the value. -/
theorem Step.of_consider {spurious : Bool} {before : Thread α ε} {found : α} {rule : Rule α ε}
    {rest : List (Task α ε)} (htodo : before.todo = .update rule :: rest)
    (hswaps : before.swaps spurious found = false)
    (hasks : Update.step rule spurious before.stage found =
      some (Update.consider rule found, found))
    {after : Thread α ε} {left : α}
    (hstep : before.step spurious found = some (after, left)) :
    Step spurious before found after left := by
  simp only [step, htodo, hasks] at hstep
  cases hrule : rule found with
  | error fault =>
    simp only [Update.consider, hrule, Option.some.injEq, Prod.mk.injEq] at hstep
    obtain ⟨rfl, rfl⟩ := hstep
    rw [← htodo]
    exact .fail rule rest fault htodo hrule hswaps
  | ok answer =>
    cases answer with
    | none =>
      simp only [Update.consider, hrule, Option.some.injEq, Prod.mk.injEq] at hstep
      obtain ⟨rfl, rfl⟩ := hstep
      exact .decline rule rest htodo hrule hswaps
    | some next =>
      simp only [Update.consider, hrule, Option.some.injEq, Prod.mk.injEq] at hstep
      obtain ⟨rfl, rfl⟩ := hstep
      rw [← htodo]
      exact .plan rule rest next htodo hrule hswaps

/-- Every step is one of those. -/
theorem step_cases {spurious : Bool} {before after : Thread α ε} {found left : α}
    (hstep : before.step spurious found = some (after, left)) :
    Step spurious before found after left := by
  cases htodo : before.todo with
  | nil => simp only [step, htodo, reduceCtorEq] at hstep
  | cons task rest =>
    cases task with
    | access access =>
      simp only [step, htodo, Option.some.injEq, Prod.mk.injEq] at hstep
      obtain ⟨rfl, rfl⟩ := hstep
      exact .access access rest htodo
    | update rule =>
      cases hstage : before.stage with
      | fetch =>
        have hswaps : before.swaps spurious found = false := by
          simp only [swaps, htodo, hstage]
        refine .of_consider htodo hswaps ?_ hstep
        rw [hstage]
        rfl
      | swap seen next =>
        rcases Access.exchangeWeak_cases spurious seen next found with
          ⟨rfl, hperform⟩ | ⟨-, hperform⟩
        · have hswaps : before.swaps spurious found = true := by
            simp only [swaps, htodo, hstage, hperform]
          simp only [step, htodo, hstage, Update.step, hperform, Option.some.injEq,
            Prod.mk.injEq] at hstep
          obtain ⟨rfl, rfl⟩ := hstep
          exact .commit rule rest next htodo hstage hswaps
        · have hswaps : before.swaps spurious found = false := by
            simp only [swaps, htodo, hstage, hperform]
          refine .of_consider htodo hswaps ?_ hstep
          simp only [hstage, Update.step, hperform]
      | finished result => simp only [step, htodo, hstage, Update.step, reduceCtorEq] at hstep
      | failed fault => simp only [step, htodo, hstage, Update.step, reduceCtorEq] at hstep

/-- A thread whose update has broken off makes no further step. -/
theorem step_eq_none {thread : Thread α ε} {rule : Rule α ε} {rest : List (Task α ε)} {fault : ε}
    (htodo : thread.todo = .update rule :: rest) (hstage : thread.stage = .failed fault)
    (spurious : Bool) (value : α) : thread.step spurious value = none := by
  simp only [step, htodo, hstage, Update.step]

/-- The exchange that a thread is about to try is what its rule has asked for. -/
def Consistent (thread : Thread α ε) : Prop :=
  ∀ seen next, thread.stage = .swap seen next →
    ∃ rule rest, thread.todo = .update rule :: rest ∧ rule seen = .ok (some next)

namespace Step

variable {spurious : Bool} {before after : Thread α ε} {found left : α}

/-- After a step an exchange is tried only if the rule has just asked for it. -/
theorem consistent (h : Step spurious before found after left) : after.Consistent := by
  intro seen next hstage
  cases h with
  | access access rest htodo => cases hstage
  | decline rule rest htodo => cases hstage
  | fail rule rest fault htodo => cases hstage
  | commit rule rest next' htodo => cases hstage
  | plan rule rest next' htodo hrule =>
    cases hstage
    exact ⟨rule, rest, htodo, hrule⟩

/-- A step either goes on with its task, and then leaves the cell alone, or is the last one of
it. -/
theorem quiet_or_ends (h : Step spurious before found after left) :
    (before.swaps spurious found = false ∧ left = found ∧ after.todo = before.todo) ∨
      ∃ task, before.todo = task :: after.todo := by
  cases h with
  | access access rest htodo => exact .inr ⟨_, htodo⟩
  | decline rule rest htodo => exact .inr ⟨_, htodo⟩
  | commit rule rest next htodo => exact .inr ⟨_, htodo⟩
  | plan rule rest next htodo hrule hswaps => exact .inl ⟨hswaps, rfl, rfl⟩
  | fail rule rest fault htodo hrule hswaps => exact .inl ⟨hswaps, rfl, rfl⟩

/-- A step after which its thread has broken off is one of an update whose rule failed. -/
theorem fails_of_fault (h : Step spurious before found after left) {fault : ε}
    (hfault : after.fault? = some fault) :
    ∃ rule rest, before.todo = .update rule :: rest ∧ after.todo = before.todo ∧
      rule found = .error fault ∧ left = found := by
  rw [fault?_eq_some_iff] at hfault
  cases h with
  | access access rest htodo => cases hfault
  | decline rule rest htodo => cases hfault
  | plan rule rest next htodo => cases hfault
  | commit rule rest next htodo => cases hfault
  | fail rule rest fault' htodo hrule =>
    cases hfault
    exact ⟨rule, rest, htodo, rfl, hrule, rfl⟩

/-- What is still to be done after a step was to be done before it. -/
theorem mem_of_mem_todo (h : Step spurious before found after left) {task : Task α ε}
    (htask : task ∈ after.todo) : task ∈ before.todo := by
  rcases h.quiet_or_ends with ⟨-, -, htodo⟩ | ⟨first, htodo⟩
  · rwa [← htodo]
  · rw [htodo]
    exact List.mem_cons_of_mem first htask

/-- A thread that makes a step has something to do. -/
theorem exists_task (h : Step spurious before found after left) :
    ∃ task rest, before.todo = task :: rest := by
  cases h with
  | access access rest htodo => exact ⟨_, rest, htodo⟩
  | decline rule rest htodo => exact ⟨_, rest, htodo⟩
  | plan rule rest next htodo => exact ⟨_, rest, htodo⟩
  | fail rule rest fault htodo => exact ⟨_, rest, htodo⟩
  | commit rule rest next htodo => exact ⟨_, rest, htodo⟩

/-- An exchange that succeeds ends its update, with the value that it found. -/
theorem returns_of_swaps (h : Step spurious before found after left)
    (hswaps : before.swaps spurious found = true) :
    ∃ rule, before.todo = .update rule :: after.todo ∧
      after.results = .ok found :: before.results := by
  cases h with
  | access access rest htodo => simp only [swaps, htodo, Bool.false_eq_true] at hswaps
  | decline rule rest htodo hrule hnot => exact absurd (hnot.symm.trans hswaps) Bool.false_ne_true
  | plan rule rest next htodo hrule hnot =>
    exact absurd (hnot.symm.trans hswaps) Bool.false_ne_true
  | fail rule rest fault htodo hrule hnot =>
    exact absurd (hnot.symm.trans hswaps) Bool.false_ne_true
  | commit rule rest next htodo => exact ⟨rule, htodo, rfl⟩

/-- No step gives a thread more to do. -/
theorem todo_length_le (h : Step spurious before found after left) :
    after.todo.length ≤ before.todo.length := by
  rcases h.quiet_or_ends with ⟨-, -, htodo⟩ | ⟨task, htodo⟩
  · exact Nat.le_of_eq (congrArg List.length htodo)
  · rw [htodo, List.length_cons]
    exact Nat.le_succ _

/-- A step of an update either takes effect, by an exchange that its rule has asked for, or leaves
the cell alone. -/
theorem update_cases (h : Step spurious before found after left) (hbefore : before.Consistent)
    {rule : Rule α ε} {rest : List (Task α ε)} (htodo : before.todo = .update rule :: rest) :
    (before.swaps spurious found = true ∧ rule found = .ok (some left) ∧
        after.results = .ok found :: before.results) ∨
      (before.swaps spurious found = false ∧ left = found ∧
        (after.results = before.results ∨
          (after.results = .error found :: before.results ∧ rule found = .ok none))) := by
  cases h with
  | access access rest' htodo' =>
    simp only [htodo, List.cons.injEq, reduceCtorEq, false_and] at htodo'
  | decline rule' rest' htodo' hrule hswaps =>
    rw [htodo, List.cons.injEq, Task.update.injEq] at htodo'
    obtain ⟨rfl, -⟩ := htodo'
    exact .inr ⟨hswaps, rfl, .inr ⟨rfl, hrule⟩⟩
  | plan rule' rest' next htodo' hrule hswaps => exact .inr ⟨hswaps, rfl, .inl rfl⟩
  | fail rule' rest' fault htodo' hrule hswaps => exact .inr ⟨hswaps, rfl, .inl rfl⟩
  | commit rule' rest' next htodo' hstage hswaps =>
    obtain ⟨rule'', rest'', htodo'', hrule⟩ := hbefore _ _ hstage
    rw [htodo, List.cons.injEq, Task.update.injEq] at htodo''
    obtain ⟨rfl, -⟩ := htodo''
    exact .inl ⟨hswaps, hrule, rfl⟩

end Step

end WordSync.Cell.Thread
