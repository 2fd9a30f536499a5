import Mathlib.Data.List.DropRight
import WordSync.Proofs.Recording
import WordSync.Proofs.Semaphore.Spinning

/-!
# The steps of a call

A call of a thread is spread over a run: its steps lie among those of other threads. A stride is
one step in the record of a crowd, and the episode of a thread is the list of the strides that it
has made in the call that it makes or has made last. What every stride of a thread adds to is
carried along an episode by `Recorded.episode_keeps`.
-/

namespace WordSync.Semaphore

/-- Whether a thread is in a call. -/
def Mode.inCall {π : Type} : Mode π → Bool
  | .calling _ => true
  | .requesting _ _ => true
  | _ => false

variable {δ σ : Type} {spins : Nat} {plan : Plan δ σ}

/-- A call returns in the last move of its thread, with the answer for what it has taken. -/
theorem Event.returned_cases {before : Thread σ Kernel.Request} {found left : Shared Nat δ}
    {answer : Answer} (h : Event.ofStep spins plan before found left = some (.returned answer)) :
    ∃ phase tokens call resume, before.mode = .calling phase ∧
      phase.move spins = .finish (.ok tokens) ∧ plan before.state = .call call resume ∧
      answer = call.answer tokens := by
  unfold Event.ofStep at h
  cases hmode : before.mode with
  | idle =>
    simp only [hmode] at h
    split at h <;> cases h
  | calling phase =>
    simp only [hmode] at h
    cases hmove : phase.move spins with
    | access access next => simp only [hmove, reduceCtorEq] at h
    | request request next => simp only [hmove, Option.some.injEq, reduceCtorEq] at h
    | finish result =>
      cases result with
      | error fault => simp only [hmove, Option.some.injEq, reduceCtorEq] at h
      | ok tokens =>
        cases hplan : plan before.state with
        | call call resume =>
          simp only [hmove, hplan, Option.some.injEq, Event.returned.injEq] at h
          exact ⟨phase, tokens, call, resume, rfl, hmove, rfl, h.symm⟩
        | touch change => simp only [hmove, hplan, reduceCtorEq] at h
        | stop => simp only [hmove, hplan, reduceCtorEq] at h
  | requesting phase stage => simp only [hmode, reduceCtorEq] at h
  | broken fault => simp only [hmode, reduceCtorEq] at h

namespace Crowd

/-- One step of a thread over the plain counter, as it is recorded. -/
abbrev Stride (δ σ : Type) := Moment Circumstance (Shared Nat δ) (Thread σ Kernel.Request)

/-- The steps that thread `i` has made in the call that it makes or has made last. -/
def episode (i : Nat) (log : List (Stride δ σ)) : List (Stride δ σ) :=
  (log.filter fun e => e.number == i).rtakeWhile fun e => e.before.mode.inCall

/-- The steps of other threads are not part of an episode. -/
theorem episode_snoc_of_ne {i : Nat} {e : Stride δ σ} (h : e.number ≠ i)
    (log : List (Stride δ σ)) : episode i (log ++ [e]) = episode i log := by
  have hother : (e.number == i) = false := beq_eq_false_iff_ne.mpr h
  simp only [episode, List.filter_append, List.filter_cons, hother, List.filter_nil,
    Bool.false_eq_true, if_false, List.append_nil]

/-- A step within a call is part of its episode; any other step begins a new one. -/
theorem episode_snoc_self (e : Stride δ σ) (log : List (Stride δ σ)) :
    episode e.number (log ++ [e]) =
      if e.before.mode.inCall then episode e.number log ++ [e] else [] := by
  simp only [episode, List.filter_append, List.filter_cons, beq_self_eq_true, if_true,
    List.filter_nil, List.rtakeWhile_concat]

/-- What holds of threads without an episode, and is kept by each stride of a run together with
the episode before it, holds of all threads with their episodes. -/
theorem episode_keeps_of_mem {Inv : List (Stride δ σ) → Thread σ Kernel.Request → Prop}
    {p q : Crowd Nat Kernel.Request δ σ} {log : List (Stride δ σ)}
    (hlog : (machine Kernel.Counter.kernel spins plan).Recorded p log q)
    (hstart : ∀ thread ∈ p.threads, Inv [] thread)
    (hkeep : ∀ e ∈ log, ∀ steps : List (Stride δ σ),
      step Kernel.Counter.kernel spins plan e.circumstance e.number e.before e.found =
        some (e.after, e.left) →
      Inv steps e.before → Inv (if e.before.mode.inCall then steps ++ [e] else []) e.after) :
    ∀ i thread, q.threads[i]? = some thread → Inv (episode i log) thread := by
  induction hlog with
  | nil => exact fun i thread hi => hstart thread (List.mem_of_getElem? hi)
  | snoc e hrun hthread hfound hstep ih =>
    have hbefore := ih fun d hd => hkeep d (List.mem_append_left _ hd)
    intro i thread hi
    rcases Pool.thread_cases hi with ⟨rfl, rfl⟩ | ⟨hother, hi⟩
    · rw [episode_snoc_self]
      exact hkeep e (List.mem_append_right _ (List.mem_singleton_self e)) _ hstep
        (hbefore e.number e.before hthread)
    · rw [episode_snoc_of_ne (Ne.symm hother)]
      exact hbefore i thread hi

/-- What holds of threads without an episode, and is kept by each stride of a thread together with
its episode, holds of all threads with their episodes. -/
theorem episode_keeps {Inv : List (Stride δ σ) → Thread σ Kernel.Request → Prop}
    {p q : Crowd Nat Kernel.Request δ σ} {log : List (Stride δ σ)}
    (hlog : (machine Kernel.Counter.kernel spins plan).Recorded p log q)
    (hstart : ∀ thread ∈ p.threads, Inv [] thread)
    (hkeep : ∀ (e : Stride δ σ) (steps : List (Stride δ σ)),
      step Kernel.Counter.kernel spins plan e.circumstance e.number e.before e.found =
        some (e.after, e.left) →
      Inv steps e.before → Inv (if e.before.mode.inCall then steps ++ [e] else []) e.after) :
    ∀ i thread, q.threads[i]? = some thread → Inv (episode i log) thread :=
  episode_keeps_of_mem hlog hstart fun e _ => hkeep e

namespace Stride

/-- A step that accesses the count. -/
def accesses (spins : Nat) (e : Stride δ σ) : Bool :=
  match e.before.mode with
  | .calling phase =>
    match phase.move spins with
    | .access _ _ => true
    | _ => false
  | _ => false

/-- A step that moves no token: it leaves the count and the kernel as it has found them. -/
def Still (e : Stride δ σ) : Prop :=
  e.left.count = e.found.count ∧ e.left.kernel = e.found.kernel

/-- A step that makes its thread a waiter: it subtracts one from a count without tokens. -/
structure Registers (e : Stride δ σ) : Prop where
  /-- The count has no tokens. -/
  found_nonpos : e.found.count.toInt ≤ 0
  /-- The step subtracts one. -/
  left_eq : e.left.count.toInt = e.found.count.toInt - 1
  /-- The kernel is left alone. -/
  kernel_eq : e.left.kernel = e.found.kernel

/-- A step that withdraws its thread from the waiters: an exchange that adds one to a negative
count. -/
structure Withdraws (e : Stride δ σ) : Prop where
  /-- The step is the exchange of a call that is out of time. -/
  exchange : ∃ demand, e.before.mode = .calling (.withdraw demand e.found.count)
  /-- The count is negative. -/
  found_neg : e.found.count.toInt < 0
  /-- The step adds one. -/
  left_eq : e.left.count.toInt = e.found.count.toInt + 1
  /-- The kernel is left alone. -/
  kernel_eq : e.left.kernel = e.found.kernel

/-- A step whose move is an access to the count. -/
theorem accesses_of_move {e : Stride δ σ} {phase : Phase} {access : Cell.Access Int64}
    {next : access.Reply → Turn} (hmode : e.before.mode = .calling phase)
    (hmove : phase.move spins = .access access next) : e.accesses spins = true := by
  simp only [accesses, hmode, hmove]

end Stride

end Crowd

end WordSync.Semaphore
