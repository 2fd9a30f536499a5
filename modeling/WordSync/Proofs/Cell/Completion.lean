import WordSync.Proofs.Cell.Steps
import WordSync.Proofs.Recording
import WordSync.Proofs.Simulation

/-!
# Every run can be completed

A thread that is left alone with its cell gets through: an exchange that fails because the cell
has changed has the update ask again, and the next exchange succeeds. So whatever threads have
done so far, letting one after the other work on alone brings all of them to an end.
-/

namespace WordSync.Cell

variable {α ε : Type}

/-- A thread that has done all that it had to do, or has broken off. -/
def Thread.Ended (thread : Thread α ε) : Prop :=
  thread.todo = [] ∨ ∃ fault, thread.fault? = some fault

/-- Every thread has ended. -/
def Threads.Complete (pool : Threads α ε) : Prop := ∀ thread ∈ pool.threads, thread.Ended

namespace Thread

/-- The update that a thread has under way is not over. -/
def Open (thread : Thread α ε) : Prop := ∀ result, thread.stage ≠ .finished result

/-- A thread that is about to begin a task has no update under way. -/
theorem open_of_fetch {thread : Thread α ε} (hstage : thread.stage = .fetch) : thread.Open := by
  intro result hfinished
  cases hstage.symm.trans hfinished

variable [DecidableEq α] [Add α] [Sub α]

/-- A step takes a thread from an update that is over to its next task. -/
theorem Step.open {spurious : Bool} {before after : Thread α ε} {found left : α}
    (h : Step spurious before found after left) : after.Open := by
  cases h with
  | access => exact open_of_fetch rfl
  | decline => exact open_of_fetch rfl
  | commit => exact open_of_fetch rfl
  | plan => exact fun result hfinished => nomatch hfinished
  | fail => exact fun result hfinished => nomatch hfinished

variable {thread : Thread α ε} {rule : Rule α ε} {rest : List (Task α ε)} {value : α}

/-- A step that turns out as it should is one that a thread makes when it is left alone. -/
theorem alone_of_step {after : Thread α ε} {left : α} (i : Nat)
    (hstep : thread.step false value = some (after, left)) :
    (machine ε).Alone i (thread, value) (after, left) := .step .usual hstep

/-- Some steps of thread `i` alone, which stands at `thread`, bring it to an end of its task: it
goes on with `rest`, or has broken off. -/
def Passes (thread : Thread α ε) (value : α) (i : Nat) (rest : List (Task α ε)) : Prop :=
  ∃ after left, (machine ε).Alone i (thread, value) (after, left) ∧ after.Open ∧
    (after.todo = rest ∨ after.Ended)

/-- An exchange for the value that is there ends its update. -/
theorem passes_of_swap (thread : Thread α ε) (htodo : thread.todo = .update rule :: rest)
    {next : α} (hstage : thread.stage = .swap value next) (i : Nat) :
    thread.Passes value i rest := by
  have hperform : (Access.exchangeWeak value next).perform false value = (.ok value, next) :=
    if_pos ⟨rfl, rfl⟩
  have hstep : thread.step false value =
      some (⟨rest, .fetch, .ok value :: thread.results⟩, next) := by
    simp only [step, htodo, hstage, Update.step, hperform]
  exact ⟨_, _, alone_of_step i hstep, open_of_fetch rfl, .inl rfl⟩

/-- A rule that is asked about the value that is there has its update end in the next step, if not
in this one. -/
theorem passes_of_consider (htodo : thread.todo = .update rule :: rest)
    (hasks : Update.step rule false thread.stage value = some (Update.consider rule value, value))
    (i : Nat) : thread.Passes value i rest := by
  cases hrule : rule value with
  | error fault =>
    have hstep : thread.step false value =
        some (⟨thread.todo, .failed fault, thread.results⟩, value) := by
      simp only [step, htodo, hasks, Update.consider, hrule]
    refine ⟨_, _, alone_of_step i hstep, ?_, .inr (.inr ⟨fault, rfl⟩)⟩
    intro result hfinished
    cases hfinished
  | ok answer =>
    cases answer with
    | none =>
      have hstep : thread.step false value =
          some (⟨rest, .fetch, .error value :: thread.results⟩, value) := by
        simp only [step, htodo, hasks, Update.consider, hrule]
      exact ⟨_, _, alone_of_step i hstep, open_of_fetch rfl, .inl rfl⟩
    | some next =>
      have hstep : thread.step false value =
          some (⟨thread.todo, .swap value next, thread.results⟩, value) := by
        simp only [step, htodo, hasks, Update.consider, hrule]
      obtain ⟨after, left, halone, hopen, hafter⟩ :=
        passes_of_swap ⟨thread.todo, .swap value next, thread.results⟩ htodo rfl i
      exact ⟨after, left, (alone_of_step i hstep).trans halone, hopen, hafter⟩

/-- Left alone, a thread comes to an end of its task. -/
theorem Open.passes (hopen : thread.Open) {task : Task α ε} (htodo : thread.todo = task :: rest)
    (value : α) (i : Nat) : thread.Passes value i rest := by
  cases task with
  | access access =>
    have hstep : thread.step false value =
        some (⟨rest, .fetch, thread.results⟩, (access.perform false value).2) := by
      simp only [step, htodo]
    exact ⟨_, _, alone_of_step i hstep, open_of_fetch rfl, .inl rfl⟩
  | update rule =>
    cases hstage : thread.stage with
    | finished result => exact absurd hstage (hopen result)
    | failed fault =>
      exact ⟨_, _, .refl, hopen, .inr (.inr ⟨fault, fault?_eq_some_iff.mpr hstage⟩)⟩
    | fetch =>
      refine passes_of_consider htodo ?_ i
      rw [hstage]
      rfl
    | swap seen next =>
      rcases Access.exchangeWeak_cases false seen next value with ⟨rfl, -⟩ | ⟨-, hperform⟩
      · exact passes_of_swap thread htodo hstage i
      · refine passes_of_consider htodo ?_ i
        simp only [hstage, Update.step, hperform]

/-- Left alone, a thread ends. -/
theorem Open.ends (hopen : thread.Open) (value : α) (i : Nat) :
    ∃ after left, (machine ε).Alone i (thread, value) (after, left) ∧ after.Open ∧
      after.Ended := by
  induction htodo : thread.todo generalizing thread value with
  | nil => exact ⟨thread, value, .refl, hopen, .inl htodo⟩
  | cons task rest ih =>
    obtain ⟨next, found, halone, hnext, hrest | hended⟩ := hopen.passes htodo value i
    · obtain ⟨after, left, hon, hafter, hended⟩ := ih hnext found hrest
      exact ⟨after, left, halone.trans hon, hafter, hended⟩
    · exact ⟨next, found, halone, hnext, hended⟩

end Thread

variable [DecidableEq α] [Add α] [Sub α] {p q : Threads α ε}

/-- The first `n` threads can be brought to an end one after the other. -/
theorem exists_ended (hopen : ∀ thread ∈ p.threads, thread.Open) (n : Nat) :
    ∃ q, (machine ε).Reaches p q ∧ (∀ thread ∈ q.threads, thread.Open) ∧
      ∀ i < n, ∀ thread, q.threads[i]? = some thread → thread.Ended := by
  induction n with
  | zero => exact ⟨p, .refl p, hopen, fun i hi => absurd hi (Nat.not_lt_zero i)⟩
  | succ n ih =>
    obtain ⟨q, hreach, hthreads, hended⟩ := ih
    cases hn : q.threads[n]? with
    | none =>
      refine ⟨q, hreach, hthreads, fun i hi thread hthread => ?_⟩
      rcases Nat.lt_succ_iff_lt_or_eq.mp hi with hlt | rfl
      · exact hended i hlt thread hthread
      · cases hn.symm.trans hthread
    | some before =>
      obtain ⟨after, left, halone, hafter, hend⟩ :=
        (hthreads before (List.mem_of_getElem? hn)).ends q.shared n
      refine ⟨_, hreach.trans (halone.reaches hn), Pool.forall_mem_set hthreads hafter, ?_⟩
      intro i hi thread hthread
      rcases Pool.thread_cases hthread with ⟨-, rfl⟩ | ⟨hne, hbefore⟩
      · exact hend
      · exact hended i (by omega) thread hbefore

/-- Every run can be completed: whatever the threads have done so far, there are steps that bring
all of them to an end. -/
theorem exists_complete (hstart : ∀ thread ∈ p.threads, thread.Open)
    (hreach : (machine ε).Reaches p q) :
    ∃ r : Threads α ε, (machine ε).Reaches q r ∧ r.Complete := by
  have hopen : ∀ thread ∈ q.threads, thread.Open := by
    induction hreach with
    | refl => exact hstart
    | tail c i _ hstep ih =>
      obtain ⟨before, after, shared, -, hmove, rfl⟩ := Machine.advance_eq_some_iff.mp hstep
      exact Pool.forall_mem_set ih (Thread.step_cases hmove).open
  obtain ⟨r, hr, -, hended⟩ := exists_ended hopen q.threads.length
  refine ⟨r, hr, fun thread hthread => ?_⟩
  obtain ⟨i, hi⟩ := List.mem_iff_getElem?.mp hthread
  refine hended i ?_ thread hi
  rw [← hr.length_eq]
  exact (List.getElem?_eq_some_iff.mp hi).1

end WordSync.Cell
