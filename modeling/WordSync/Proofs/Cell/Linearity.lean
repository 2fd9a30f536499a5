import WordSync.Proofs.Cell.Steps
import WordSync.Proofs.Recording

/-!
# Updates take effect in one step

Threads that share a cell update it by rules of their own, store to it and exchange it, with
their steps mixed in any order and with any exchange failing for no reason. An update that ends
with the old value has one exchange that succeeded, on just that value and with what its rule
makes of it; all other steps of all updates leave the cell alone. So a run of nothing but updates
does to the cell what the rules of those that succeeded do one after the other, in the order of
their exchanges, and no update is lost.
-/

namespace WordSync.Cell

variable {α ε : Type}

/-- What a rule puts in place of a value, if anything. -/
def Rule.next (rule : Rule α ε) (value : α) : Option α :=
  match rule value with
  | .ok answer => answer
  | .error _ => none

/-- One step of a thread in a run on a cell. -/
abbrev Event (α ε : Type) := Moment Circumstance α (Thread α ε)

namespace Event

/-- The steps of the task that a step belongs to. A task is known by its thread and by the number
of tasks that the thread has still to do, with that one. -/
def ofTask (log : List (Event α ε)) (e : Event α ε) : List (Event α ε) :=
  log.filter fun d => d.number == e.number && d.before.todo.length == e.before.todo.length

/-- In this step an update by `rule` ended with `result`. -/
def Returns (e : Event α ε) (rule : Rule α ε) (result : Except α α) : Prop :=
  e.before.todo = .update rule :: e.after.todo ∧ e.after.results = result :: e.before.results

/-- A step belongs to the same task as another if it was made by the same thread with as much to
do. -/
theorem mem_ofTask {log : List (Event α ε)} {d e : Event α ε} :
    d ∈ e.ofTask log ↔
      d ∈ log ∧ d.number = e.number ∧ d.before.todo.length = e.before.todo.length := by
  simp only [ofTask, List.mem_filter, Bool.and_eq_true, beq_iff_eq]

/-- One more step is one more step of its own task. -/
theorem ofTask_snoc (log : List (Event α ε)) (e d : Event α ε) :
    e.ofTask (log ++ [d]) =
      if d.number = e.number ∧ d.before.todo.length = e.before.todo.length then
        e.ofTask log ++ [d]
      else e.ofTask log := by
  simp only [ofTask, List.filter_append, List.filter_cons, List.filter_nil, Bool.and_eq_true,
    beq_iff_eq]
  split
  · rfl
  · exact List.append_nil _

variable [DecidableEq α] [Add α] [Sub α]

/-- Whether the step is an exchange of an update that succeeds. -/
def swaps (e : Event α ε) : Bool :=
  e.before.swaps (e.circumstance.chance == .mishap) e.found

/-- The rule of the update that took effect in this step, if one did. -/
def committed (e : Event α ε) : Option (Rule α ε) :=
  match e.before.todo with
  | .update rule :: _ => if e.swaps then some rule else none
  | _ => none

/-- A step after which its task goes on: it leaves the cell alone. -/
structure Quiet (e : Event α ε) : Prop where
  /-- It is no exchange that succeeds. -/
  swaps_eq : e.swaps = false
  /-- It leaves the value that it found. -/
  left_eq : e.left = e.found
  /-- The thread has still the same tasks to do. -/
  todo_eq : e.after.todo = e.before.todo

/-- A step of a recorded run is one of those that `Thread.Step` lists. -/
theorem step_of_recorded {p q : Threads α ε} {log : List (Event α ε)}
    (h : (machine ε).Recorded p log q) {e : Event α ε} (he : e ∈ log) :
    Thread.Step (e.circumstance.chance == .mishap) e.before e.found e.after e.left :=
  Thread.step_cases (h.step_of_mem he)

end Event

/-- What the record of a run says of the tasks that its threads have under way and of those that
are over. -/
structure Orderly (log : List (Event α ε)) (threads : List (Thread α ε)) [DecidableEq α] [Add α]
    [Sub α] : Prop where
  /-- No step was made with fewer tasks to do than its thread has now. -/
  ahead : ∀ e ∈ log, ∀ thread, threads[e.number]? = some thread →
    thread.todo.length ≤ e.after.todo.length
  /-- All steps of a task that is under way were quiet. -/
  quiet : ∀ e ∈ log, ∀ thread, threads[e.number]? = some thread →
    e.before.todo.length = thread.todo.length → e.Quiet
  /-- All steps of a task that is over were quiet but the last. -/
  ended : ∀ e ∈ log, ∀ task, e.before.todo = task :: e.after.todo →
    ∃ earlier, e.ofTask log = earlier ++ [e] ∧ ∀ d ∈ earlier, d.Quiet

namespace Orderly

variable [DecidableEq α] [Add α] [Sub α] {p q : Threads α ε} {log : List (Event α ε)}
  {e : Event α ε}

/-- One more step leaves its thread with no more to do than before. -/
theorem ahead_snoc (h : Orderly log q.threads) (hthread : q.threads[e.number]? = some e.before)
    (hstep : Thread.Step (e.circumstance.chance == .mishap) e.before e.found e.after e.left) :
    ∀ d ∈ log ++ [e], ∀ thread, (q.threads.set e.number e.after)[d.number]? = some thread →
      thread.todo.length ≤ d.after.todo.length := by
  intro d hd thread hnow
  rcases List.mem_append.mp hd with hold | hnew
  · rcases Pool.thread_cases hnow with ⟨hnumber, rfl⟩ | ⟨_, hbefore⟩
    · have hahead := h.ahead d hold e.before (by rw [hnumber]; exact hthread)
      exact Nat.le_trans hstep.todo_length_le hahead
    · exact h.ahead d hold thread hbefore
  · obtain rfl := List.mem_singleton.mp hnew
    rcases Pool.thread_cases hnow with ⟨_, rfl⟩ | ⟨hnumber, _⟩
    · exact Nat.le_refl _
    · exact absurd rfl hnumber

/-- One more step either is quiet or begins a task of which there are no steps yet. -/
theorem quiet_snoc (hlog : (machine ε).Recorded p log q) (h : Orderly log q.threads)
    (hthread : q.threads[e.number]? = some e.before)
    (hstep : Thread.Step (e.circumstance.chance == .mishap) e.before e.found e.after e.left) :
    ∀ d ∈ log ++ [e], ∀ thread, (q.threads.set e.number e.after)[d.number]? = some thread →
      d.before.todo.length = thread.todo.length → d.Quiet := by
  intro d hd thread hnow hlength
  rcases List.mem_append.mp hd with hold | hnew
  · rcases Pool.thread_cases hnow with ⟨hnumber, rfl⟩ | ⟨_, hbefore⟩
    · rw [← hnumber] at hthread
      have hahead := h.ahead d hold e.before hthread
      have hshrinks := (Event.step_of_recorded hlog hold).todo_length_le
      rcases hstep.quiet_or_ends with ⟨_, _, htodo⟩ | ⟨task, htodo⟩
      · exact h.quiet d hold e.before hthread (by rw [hlength, htodo])
      · rw [htodo, List.length_cons] at hahead
        omega
    · exact h.quiet d hold thread hbefore hlength
  · obtain rfl := List.mem_singleton.mp hnew
    rcases Pool.thread_cases hnow with ⟨_, rfl⟩ | ⟨hnumber, _⟩
    · rcases hstep.quiet_or_ends with ⟨hswaps, hleft, htodo⟩ | ⟨task, htodo⟩
      · exact ⟨hswaps, hleft, htodo⟩
      · rw [htodo, List.length_cons] at hlength
        omega
    · exact absurd rfl hnumber

/-- One more step is no step of a task that is over already, and if it ends a task then all steps
of that task before it were quiet. -/
theorem ended_snoc (h : Orderly log q.threads) (hthread : q.threads[e.number]? = some e.before) :
    ∀ d ∈ log ++ [e], ∀ task, d.before.todo = task :: d.after.todo →
      ∃ earlier, d.ofTask (log ++ [e]) = earlier ++ [d] ∧ ∀ c ∈ earlier, c.Quiet := by
  intro d hd task htodo
  rcases List.mem_append.mp hd with hold | hnew
  · obtain ⟨earlier, htask, hearlier⟩ := h.ended d hold task htodo
    have hother : ¬(e.number = d.number ∧ e.before.todo.length = d.before.todo.length) := by
      rintro ⟨hnumber, hlength⟩
      have hahead := h.ahead d hold e.before (by rw [← hnumber]; exact hthread)
      rw [htodo, List.length_cons] at hlength
      omega
    refine ⟨earlier, ?_, hearlier⟩
    rw [Event.ofTask_snoc, if_neg hother, htask]
  · obtain rfl := List.mem_singleton.mp hnew
    refine ⟨d.ofTask log, ?_, ?_⟩
    · rw [Event.ofTask_snoc, if_pos ⟨rfl, rfl⟩]
    · intro c hc
      obtain ⟨hmem, hnumber, hlength⟩ := Event.mem_ofTask.mp hc
      exact h.quiet c hmem d.before (by rw [hnumber]; exact hthread) hlength

/-- The record of every run is in this order. -/
theorem of_recorded (h : (machine ε).Recorded p log q) : Orderly log q.threads := by
  induction h with
  | nil =>
    exact ⟨fun e he => absurd he List.not_mem_nil, fun e he => absurd he List.not_mem_nil,
      fun e he => absurd he List.not_mem_nil⟩
  | snoc e hlog hthread _ hmove ih =>
    have hstep := Thread.step_cases hmove
    exact ⟨ih.ahead_snoc hthread hstep, ih.quiet_snoc hlog hthread hstep, ih.ended_snoc hthread⟩

end Orderly

/-- Whether a task is an update. -/
def Task.isUpdate : Task α ε → Bool
  | .update _ => true
  | .access _ => false

variable [DecidableEq α] [Add α] [Sub α] {p q : Threads α ε} {log : List (Event α ε)}

/-- The rules of the updates that took effect, in the order in which they did. -/
def committed (log : List (Event α ε)) : List (Rule α ε) := log.filterMap Event.committed

namespace Event

/-- An update that ended with the old value: it took effect in the step that ended it, and in no
other. -/
structure TookEffect (log : List (Event α ε)) (e : Event α ε) (rule : Rule α ε) (old : α) :
    Prop where
  /-- Of all steps of the update, only the last is an exchange that succeeded. -/
  unique : (e.ofTask log).filter swaps = [e]
  /-- The exchange found the old value. -/
  found_eq : e.found = old
  /-- The exchange left what the rule had made of the old value. -/
  rule_eq : rule old = .ok (some e.left)
  /-- No other step of the update changed the cell. -/
  others : ∀ d ∈ e.ofTask log, d.swaps = false → d.left = d.found

/-- An update that ended with the value that its rule declined: it took no effect at all. -/
structure GaveUp (log : List (Event α ε)) (e : Event α ε) (rule : Rule α ε) (current : α) :
    Prop where
  /-- No step of the update changed the cell. -/
  still : ∀ d ∈ e.ofTask log, d.left = d.found
  /-- The rule declined the value. -/
  rule_eq : rule current = .ok none
  /-- The cell had the value at one of the steps of the update. -/
  seen : ∃ d ∈ e.ofTask log, d.found = current

end Event

/-- What the threads of a run have under way is what their rules have asked for. -/
theorem consistent_of_recorded (h : (machine ε).Recorded p log q)
    (hstart : ∀ thread ∈ p.threads, thread.Consistent) :
    (∀ thread ∈ q.threads, thread.Consistent) ∧ ∀ e ∈ log, e.before.Consistent :=
  h.keeps hstart fun _ _ _ _ _ _ hstep _ => (Thread.step_cases hstep).consistent

/-- Of the steps of a task that is over, only the last can be an exchange that succeeded. -/
theorem filter_swaps {earlier : List (Event α ε)} (hearlier : ∀ d ∈ earlier, d.Quiet)
    (e : Event α ε) :
    (earlier ++ [e]).filter Event.swaps = if e.swaps then [e] else [] := by
  have hnone : earlier.filter Event.swaps = [] := by
    rw [List.filter_eq_nil_iff]
    intro d hd
    rw [(hearlier d hd).swaps_eq]
    exact Bool.false_ne_true
  rw [List.filter_append, hnone, List.nil_append, List.filter_cons, List.filter_nil]

/-- An update that ends with the old value takes effect in its last step. -/
theorem tookEffect_of_returns (h : (machine ε).Recorded p log q)
    (hstart : ∀ thread ∈ p.threads, thread.Consistent) {e : Event α ε} (he : e ∈ log)
    {rule : Rule α ε} {old : α} (hreturns : e.Returns rule (.ok old)) :
    e.TookEffect log rule old := by
  obtain ⟨htodo, hresults⟩ := hreturns
  obtain ⟨earlier, htask, hearlier⟩ := (Orderly.of_recorded h).ended e he _ htodo
  have hstep := Event.step_of_recorded h he
  rcases hstep.update_cases ((consistent_of_recorded h hstart).2 e he) htodo with
    ⟨hswaps, hrule, htook⟩ | ⟨_, _, hsame | ⟨herror, _⟩⟩
  · rw [hresults, List.cons.injEq, Except.ok.injEq] at htook
    obtain ⟨rfl, -⟩ := htook
    refine ⟨?_, rfl, hrule, ?_⟩
    · rw [htask, filter_swaps hearlier]
      exact if_pos hswaps
    · intro d hd hnot
      rw [htask] at hd
      rcases List.mem_append.mp hd with hold | hlast
      · exact (hearlier d hold).left_eq
      · rw [List.mem_singleton.mp hlast] at hnot
        exact absurd (hnot.symm.trans hswaps) Bool.false_ne_true
  · rw [hresults] at hsame
    exact absurd hsame (List.cons_ne_self _ _)
  · rw [hresults, List.cons.injEq] at herror
    cases herror.1

/-- An update that ends with the value that its rule declined takes no effect. -/
theorem gaveUp_of_returns (h : (machine ε).Recorded p log q)
    (hstart : ∀ thread ∈ p.threads, thread.Consistent) {e : Event α ε} (he : e ∈ log)
    {rule : Rule α ε} {current : α} (hreturns : e.Returns rule (.error current)) :
    e.GaveUp log rule current := by
  obtain ⟨htodo, hresults⟩ := hreturns
  obtain ⟨earlier, htask, hearlier⟩ := (Orderly.of_recorded h).ended e he _ htodo
  have hstep := Event.step_of_recorded h he
  rcases hstep.update_cases ((consistent_of_recorded h hstart).2 e he) htodo with
    ⟨_, _, htook⟩ | ⟨_, hleft, hsame | ⟨herror, hrule⟩⟩
  · rw [hresults, List.cons.injEq] at htook
    cases htook.1
  · rw [hresults] at hsame
    exact absurd hsame (List.cons_ne_self _ _)
  · rw [hresults, List.cons.injEq, Except.error.injEq] at herror
    obtain ⟨rfl, -⟩ := herror
    refine ⟨?_, hrule, e, ?_, rfl⟩
    · intro d hd
      rw [htask] at hd
      rcases List.mem_append.mp hd with hold | hlast
      · exact (hearlier d hold).left_eq
      · rw [List.mem_singleton.mp hlast]
        exact hleft
    · rw [htask]
      exact List.mem_append_right _ (List.mem_singleton_self e)

/-- A thread that has broken off stays as it is. -/
theorem thread_of_fault (h : (machine ε).Recorded p log q) {e : Event α ε} (he : e ∈ log)
    {fault : ε} (hfault : e.after.fault? = some fault) :
    q.threads[e.number]? = some e.after := by
  induction h with
  | nil => exact absurd he List.not_mem_nil
  | snoc d hlog hthread hfound hmove ih =>
    rcases List.mem_append.mp he with hold | hnew
    · have hstays := ih hold
      have hnumber : d.number ≠ e.number := by
        intro heq
        rw [heq, hstays, Option.some.injEq] at hthread
        obtain ⟨rule, rest, htodo, hsame, -, -⟩ :=
          (Event.step_of_recorded hlog hold).fails_of_fault hfault
        have hnone := Thread.step_eq_none (hsame.trans htodo) (Thread.fault?_eq_some_iff.mp hfault)
          (d.circumstance.chance == .mishap) d.found
        rw [hthread] at hnone
        exact absurd (hnone.symm.trans hmove) (Option.some_ne_none _).symm
      rw [List.getElem?_set_ne hnumber]
      exact hstays
    · obtain rfl := List.mem_singleton.mp hnew
      exact List.getElem?_set_self (List.getElem?_eq_some_iff.mp hthread).1

/-- An update whose rule fails takes no effect. -/
theorem quiet_of_fault (h : (machine ε).Recorded p log q) {e : Event α ε} (he : e ∈ log)
    {fault : ε} (hfault : e.after.fault? = some fault) : ∀ d ∈ e.ofTask log, d.Quiet := by
  intro d hd
  obtain ⟨hmem, hnumber, hlength⟩ := Event.mem_ofTask.mp hd
  have hstays := thread_of_fault h he hfault
  obtain ⟨rule, rest, -, hsame, -, -⟩ := (Event.step_of_recorded h he).fails_of_fault hfault
  refine (Orderly.of_recorded h).quiet d hmem e.after ?_ ?_
  · rw [hnumber]
    exact hstays
  · rw [hlength, hsame]

/-- A step of an update does to the cell what its rule makes of it, if the update takes effect in
that step, and nothing otherwise. -/
theorem foldlM_committed_step {e : Event α ε}
    (hstep : Thread.Step (e.circumstance.chance == .mishap) e.before e.found e.after e.left)
    (hconsistent : e.before.Consistent) {rule : Rule α ε} {rest : List (Task α ε)}
    (htodo : e.before.todo = .update rule :: rest) :
    e.committed.toList.foldlM (fun value rule => rule.next value) e.found = some e.left := by
  rcases hstep.update_cases hconsistent htodo with ⟨hswaps, hrule, -⟩ | ⟨hswaps, hleft, -⟩
  · have hcommitted : e.committed = some rule := by
      simp only [Event.committed, htodo, Event.swaps, hswaps, if_true]
    have hnext : rule.next e.found = some e.left := by rw [Rule.next, hrule]
    rw [hcommitted]
    exact congrArg (· >>= pure) hnext
  · have hcommitted : e.committed = none := by
      simp only [Event.committed, htodo, Event.swaps, hswaps, Bool.false_eq_true, if_false]
    rw [hcommitted, hleft]
    rfl

/-- In a run of nothing but updates the cell goes through what the rules make of it that took
effect, and through nothing else. -/
theorem foldlM_committed (h : (machine ε).Recorded p log q)
    (hstart : ∀ thread ∈ p.threads, thread.Consistent)
    (hupdates : ∀ thread ∈ p.threads, ∀ task ∈ thread.todo, task.isUpdate) :
    (committed log).foldlM (fun value rule => rule.next value) p.shared = some q.shared := by
  induction h with
  | nil => rfl
  | snoc e hlog hthread hfound hmove ih =>
    have hstep := Thread.step_cases hmove
    have hbefore := List.mem_of_getElem? hthread
    have hconsistent := (consistent_of_recorded hlog hstart).1 e.before hbefore
    have hall := (hlog.keeps hupdates fun _ _ _ _ _ _ hstep hall task htask =>
      hall task ((Thread.step_cases hstep).mem_of_mem_todo htask)).1 e.before hbefore
    obtain ⟨task, rest, htodo⟩ := hstep.exists_task
    rw [htodo] at hall
    cases task with
    | access access => exact absurd (hall _ List.mem_cons_self) Bool.false_ne_true
    | update rule =>
      have hlast := foldlM_committed_step hstep hconsistent htodo
      rw [committed, List.filterMap_append, List.foldlM_append, ← committed, ih, hfound]
      exact hlast

/-- Updates take effect in one step each, and none is lost. An update that ends with the old value
exchanged it, once, for what its rule made of it; an update that ends otherwise left the cell
alone, and its rule declined a value that the cell had meanwhile. In a run of nothing but updates
the cell ends with what the rules of those that took effect make of it one after the other. -/
theorem updates_linearize {todos : List (List (Task α ε))} {start : α}
    (hrun : (machine ε).Recorded ⟨start, todos.map Thread.ready⟩ log q) :
    (∀ e ∈ log, ∀ rule old, Event.Returns e rule (.ok old) → Event.TookEffect log e rule old) ∧
      (∀ e ∈ log, ∀ rule current, Event.Returns e rule (.error current) →
        Event.GaveUp log e rule current) ∧
      (∀ e ∈ log, Event.swaps e → ∃ rule, Event.Returns e rule (.ok e.found)) ∧
      ((∀ todo ∈ todos, ∀ task ∈ todo, task.isUpdate) →
        (committed log).foldlM (fun value rule => rule.next value) start = some q.shared) := by
  have hready : ∀ thread ∈ todos.map (Thread.ready (α := α) (ε := ε)), thread.Consistent := by
    intro thread hthread
    obtain ⟨todo, _, rfl⟩ := List.mem_map.mp hthread
    intro seen next hstage
    cases hstage
  refine ⟨?_, ?_, ?_, ?_⟩
  · exact fun e he rule old hreturns => tookEffect_of_returns hrun hready he hreturns
  · exact fun e he rule current hreturns => gaveUp_of_returns hrun hready he hreturns
  · exact fun e he hswaps => (Event.step_of_recorded hrun he).returns_of_swaps hswaps
  · intro hupdates
    refine foldlM_committed hrun hready ?_
    intro thread hthread
    obtain ⟨todo, htodo, rfl⟩ := List.mem_map.mp hthread
    exact hupdates todo htodo

/-- A rule that counts up to seven. -/
def upToSeven : Rule (BitVec 8) Empty := fun value =>
  .ok (if value < 7#8 then some (value + 1#8) else none)

theorem updates_linearize_upToSeven :
    ∃ log q, (machine Empty).Recorded
        ⟨5#8, [[.update upToSeven], [.update upToSeven, .update upToSeven]].map Thread.ready⟩
        log q ∧
      (∀ e ∈ log, ∀ rule old, Event.Returns e rule (.ok old) → Event.TookEffect log e rule old) ∧
      (∀ e ∈ log, ∀ rule current, Event.Returns e rule (.error current) →
        Event.GaveUp log e rule current) ∧
      (∀ e ∈ log, Event.swaps e → ∃ rule, Event.Returns e rule (.ok e.found)) ∧
      (committed log).foldlM (fun value rule => rule.next value) 5#8 = some q.shared ∧
      (committed log).length = 2 ∧ q.shared = 7#8 := by
  -- Both threads read 5. The second fails once for no reason and then exchanges it, so that the
  -- first fails once on 6. The last update finds 7.
  have hrun : (machine Empty).Recorded
      ⟨5#8, [[.update upToSeven], [.update upToSeven, .update upToSeven]].map Thread.ready⟩ _ _ :=
    Machine.recorded_of_record
      [(.usual, 0), (.usual, 1), (⟨.mishap, .zero, 0⟩, 1), (.usual, 1), (.usual, 0), (.usual, 0),
        (.usual, 1)] rfl
  obtain ⟨hok, herror, hswaps, hvalue⟩ := updates_linearize hrun
  refine ⟨_, _, hrun, hok, herror, hswaps, hvalue ?_, rfl, rfl⟩
  decide

end WordSync.Cell
