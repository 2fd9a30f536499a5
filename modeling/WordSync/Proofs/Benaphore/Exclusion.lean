import Mathlib.Algebra.Order.BigOperators.Group.List
import Mathlib.Algebra.Order.Group.Nat
import WordSync.Benaphore
import WordSync.Proofs.Semaphore.Visits
import WordSync.Proofs.Semaphore.Waiters

/-!
# One token, one holder

A lock made from a semaphore with one token excludes because tokens are conserved. A guard is the
right to give the lock back: a thread gets it with the token, and loses it when the token is back
in the count. At any time there is one guard, or one token in the count, in the kernel or on the
way there. Nothing is assumed about which waiter is handed the token, nor about who keeps a guard:
threads may pass it on through the data that they share.
-/

namespace WordSync.Benaphore

open Semaphore

variable {δ σ : Type}

/-- Threads that follow `plan` use the semaphore as a lock, and give it back only if they have a
guard for it. A thread has `held` guards in each of its states between two calls, and the shared
data have `stored`. -/
structure Guarded (plan : Plan δ σ) (held : σ → Nat) (stored : δ → Nat) : Prop where
  /-- They make no other calls. -/
  calls : ∀ {state : σ} {call : Call} {resume : Nat → σ}, plan state = .call call resume →
    call = lock ∨ call = tryLock ∨ call = unlock
  /-- Taking the lock gives a guard. -/
  lock : ∀ {state : σ} {resume : Nat → σ}, plan state = .call lock resume →
    held (resume 1) = held state + 1
  /-- Trying to take the lock gives a guard if it succeeds. -/
  tryLock : ∀ {state : σ} {resume : Nat → σ}, plan state = .call tryLock resume →
    ∀ tokens ≤ 1, held (resume tokens) = held state + tokens
  /-- Giving the lock back takes a guard. -/
  unlock : ∀ {state : σ} {resume : Nat → σ}, plan state = .call unlock resume →
    held state = held (resume 0) + 1
  /-- Guards may be passed on, but not made or lost. -/
  touch : ∀ {state : σ} {change : δ → δ × σ}, plan state = .touch change →
    ∀ data, stored (change data).1 + held (change data).2 = stored data + held state

/-- The guards that a thread has. A call to take the lock has its guard as soon as it has the
token, and a call to give it back has it until the token is in the count. -/
def guards {π : Type} (plan : Plan δ σ) (held : σ → Nat) (thread : Thread σ π) : Nat :=
  match thread.mode with
  | .calling phase =>
    match plan thread.state with
    | .call (.signal _) _ => held thread.state - 1 + phase.raising
    | _ => held thread.state + phase.held
  | _ => held thread.state

/-- All guards that there are. -/
def allGuards (plan : Plan δ σ) (held : σ → Nat) (stored : δ → Nat)
    (pool : Crowd Nat Kernel.Request δ σ) : Nat :=
  stored pool.shared.data + Crowd.total (guards plan held) pool.threads

section Step

variable {plan : Plan δ σ} {held : σ → Nat} {stored : δ → Nat}

/-- A thread in a call to give the lock back. -/
theorem guards_unlock {π : Type} {state : σ} {resume : Nat → σ}
    (hplan : plan state = .call unlock resume) (phase : Phase) :
    guards plan held (⟨state, .calling phase⟩ : Thread σ π) = held state - 1 + phase.raising := by
  simp only [guards, hplan, unlock]

/-- A thread in a call to take the lock. -/
theorem guards_lock {π : Type} {state : σ} {call : Call} {resume : Nat → σ}
    (hplan : plan state = .call call resume) (hcall : call = lock ∨ call = tryLock)
    (phase : Phase) :
    guards plan held (⟨state, .calling phase⟩ : Thread σ π) = held state + phase.held := by
  rcases hcall with rfl | rfl
  · simp only [guards, hplan, lock]
  · simp only [guards, hplan, tryLock]

/-- A thread in no call. -/
theorem guards_idle {π : Type} (state : σ) :
    guards plan held (⟨state, .idle⟩ : Thread σ π) = held state := rfl

/-- A signal holds no tokens. -/
theorem held_of_unlock {phase : Phase} (h : unlock.Comes phase) : phase.held = 0 := by
  rcases h with rfl | hvisits
  · rfl
  · cases phase with
    | look demand purpose =>
      cases purpose with
      | topUp =>
        obtain ⟨max, patience, -, -, hcall⟩ := hvisits
        cases hcall
      | _ => cases hvisits
    | grab demand purpose seen =>
      cases purpose with
      | topUp =>
        obtain ⟨max, patience, -, -, hcall⟩ := hvisits
        cases hcall
      | _ => cases hvisits
    | done tokens => exact hvisits.1
    | _ => rfl

/-- Only a signal raises the count. -/
theorem raising_of_lock {call : Call} (hcall : call = lock ∨ call = tryLock) {phase : Phase}
    (h : call.Comes phase) : phase.raising = 0 := by
  rcases h with rfl | hvisits
  · rcases hcall with rfl | rfl <;> rfl
  · exact hvisits.raising_eq_zero

/-- No call for the lock puts in more than one token. -/
theorem stake_eq_one {call : Call} (hcall : call = lock ∨ call = tryLock ∨ call = unlock) :
    call.stake = 1 := by
  rcases hcall with rfl | rfl | rfl <;> rfl

variable {spins : Nat} {c : Circumstance} {before after : Thread σ Kernel.Request}
  {shared shared' : Shared Nat δ}

/-- A guarded plan gives back one token at a time. -/
theorem Guarded.plan_ne_signal_zero (hguarded : Guarded plan held stored) (state : σ)
    (resume : Nat → σ) : plan state ≠ .call (.signal 0) resume := by
  intro hplan
  rcases hguarded.calls hplan with h | h | h <;> cases h

/-- A call that begins leaves the guards of its thread as they are. -/
theorem guards_start {π : Type} (hguarded : Guarded plan held stored) {state : σ} {call : Call}
    {resume : Nat → σ} (hplan : plan state = .call call resume) :
    guards plan held (⟨state, .calling (.ofCall call)⟩ : Thread σ π) = held state := by
  rcases hguarded.calls hplan with rfl | rfl | rfl
  · exact guards_lock hplan (.inl rfl) _
  · exact guards_lock hplan (.inr rfl) _
  · have hraising : (Phase.ofCall unlock).raising = 1 := rfl
    rw [guards_unlock hplan, hguarded.unlock hplan, hraising, Nat.add_sub_cancel]

/-- A move of a call turns a token into a guard or a guard into a token. -/
theorem guards_move (hguarded : Guarded plan held stored) {state : σ} {call : Call}
    {resume : Nat → σ} {phase next : Phase} (hplan : plan state = .call call resume)
    (hcomes : call.Comes phase) (hvisits : call.Visits next) (hheld : phase.held ≤ next.held) :
    guards plan held (⟨state, .calling next⟩ : Thread σ Kernel.Request) + phase.raising =
      guards plan held (⟨state, .calling phase⟩ : Thread σ Kernel.Request) +
        (next.held - phase.held) := by
  rcases hguarded.calls hplan with hcall | hcall | rfl
  · rw [guards_lock hplan (.inl hcall), guards_lock hplan (.inl hcall),
      raising_of_lock (.inl hcall) hcomes]
    omega
  · rw [guards_lock hplan (.inr hcall), guards_lock hplan (.inr hcall),
      raising_of_lock (.inr hcall) hcomes]
    omega
  · rw [guards_unlock hplan, guards_unlock hplan, hvisits.raising_eq_zero,
      held_of_unlock (.inr hvisits)]
    omega

/-- What a call has taken at its end is a guard, and what it has given back is none. -/
theorem held_resume (hguarded : Guarded plan held stored) {state : σ} {call : Call}
    {resume : Nat → σ} {tokens : Nat} (hplan : plan state = .call call resume)
    (htakes : call.Takes tokens) :
    held (resume tokens) =
      guards plan held (⟨state, .calling (.done tokens)⟩ : Thread σ Kernel.Request) := by
  rcases hguarded.calls hplan with rfl | rfl | rfl
  · obtain rfl : tokens = 1 := by
      have hone := htakes.1
      have hsome := htakes.2 rfl
      simp only [Demand.bound] at hone
      omega
    rw [guards_lock hplan (.inl rfl), hguarded.lock hplan, Phase.held]
  · rw [guards_lock hplan (.inr rfl), hguarded.tryLock hplan tokens htakes, Phase.held]
  · obtain ⟨rfl, -⟩ := htakes
    have hraising : (Phase.done 0).raising = 0 := rfl
    rw [guards_unlock hplan, hguarded.unlock hplan, hraising, Nat.add_zero, Nat.add_sub_cancel]

/-- No thread is about to add more than one token to the count. -/
theorem raising_le_one (hguarded : Guarded plan held stored) (hfollows : before.Follows plan) :
    before.mode.share Phase.raising ≤ 1 := by
  obtain ⟨state, mode⟩ := before
  cases mode with
  | calling phase =>
    obtain ⟨call, resume, hplan, hcomes⟩ := hfollows
    have hshare := hcomes.share_le_stake
    rw [stake_eq_one (hguarded.calls hplan)] at hshare
    dsimp only [Mode.share]
    omega
  | requesting phase stage => exact absurd hfollows id
  | _ => exact Nat.zero_le _

/-- Over one step of a thread, guards come from the tokens that it takes, and go with those that it
adds to the count. -/
theorem guards_step (hguarded : Guarded plan held stored) (hfollows : before.Follows plan)
    (hsound : before.mode.Sound) (h : Crowd.Course spins plan c before shared after shared')
    (hlow : -(Count.limit : Int) ≤ shared.count.toInt)
    (hhigh : shared.count.toInt + before.mode.share Phase.raising ≤ Count.limit) :
    stored shared'.data + guards plan held after + before.mode.share Phase.raising =
      stored shared.data + guards plan held before +
        (after.mode.share Phase.held - before.mode.share Phase.held) := by
  obtain ⟨state, mode⟩ := before
  cases h with
  | start call resume hmode hplan =>
    obtain rfl : mode = .idle := hmode
    have hcall : plan state = .call call resume := hplan
    dsimp only [Mode.share]
    rw [guards_start hguarded hcall, guards_idle, (Phase.holds_ofCall call).held_eq]
  | touch change hmode hplan =>
    obtain rfl : mode = .idle := hmode
    exact hguarded.touch hplan shared.data
  | access phase access next hmode hmoves =>
    obtain rfl : mode = .calling phase := hmode
    obtain ⟨call, resume, hplan, hcomes⟩ := hfollows
    have hleads : phase.AccessLeads access next (c.chance == .mishap) shared.count shared.kernel :=
      Phase.access_leads hmoves hsound _ hlow hhigh
    have hcall : plan state = .call call resume := hplan
    have := guards_move hguarded hcall hcomes
      (Phase.visits_of_access hmoves hcomes hsound _ hlow) hleads.2.held_le
    dsimp only [Mode.share]
    omega
  | request phase request next granted tokens hmode hmoves hserve =>
    obtain rfl : mode = .calling phase := hmode
    obtain ⟨call, resume, hplan, hcomes⟩ := hfollows
    have hcall : plan state = .call call resume := hplan
    have := guards_move hguarded hcall hcomes (Phase.visits_of_request hmoves hcomes granted)
      (Phase.request_leads hmoves hserve shared.count).2.held_le
    dsimp only [Mode.share]
    omega
  | finish phase tokens call resume hmode hmoves hplan =>
    obtain rfl : mode = .calling phase := hmode
    have hcall : plan state = .call call resume := hplan
    rcases Phase.finish_cases hmoves hsound with ⟨_, rfl, hok⟩ | ⟨_, _, hfault⟩
    · cases hok
      rw [guards_idle, held_resume hguarded hcall (hfollows.takes hcall)]
      dsimp only [Mode.share, Phase.raising]
      omega
    · cases hfault
  | fail phase fault hmode hmoves =>
    obtain rfl : mode = .calling phase := hmode
    exact absurd hmoves
      (hfollows.not_failing hsound (hguarded.plan_ne_signal_zero state) fault)

end Step

/-- Two threads have no more between them than all threads have in sum. -/
theorem add_le_total {π : Type} (number : Thread σ π → Nat) {threads : List (Thread σ π)}
    {i j : Nat} {a b : Thread σ π} (hi : threads[i]? = some a) (hj : threads[j]? = some b)
    (hne : i ≠ j) : number a + number b ≤ Crowd.total number threads := by
  induction threads generalizing i j with
  | nil => cases hi
  | cons thread threads ih =>
    have hone {k : Nat} {t : Thread σ π} (hk : threads[k]? = some t) :
        number t ≤ Crowd.total number threads :=
      List.le_sum_of_mem (List.mem_map_of_mem (List.mem_of_getElem? hk))
    have hcons : Crowd.total number (thread :: threads) =
      number thread + Crowd.total number threads := rfl
    cases i with
    | zero =>
      cases j with
      | zero => exact absurd rfl hne
      | succ j =>
        obtain rfl := Option.some.inj hi
        have := hone hj
        omega
    | succ i =>
      cases j with
      | zero =>
        obtain rfl := Option.some.inj hj
        have := hone hi
        omega
      | succ j =>
        have := ih hi hj fun h => hne (congrArg (· + 1) h)
        omega

/-- What new threads have in sum. -/
theorem total_around (number : Thread σ Kernel.Request → Nat) (gate : Semaphore Nat) (data : δ)
    (states : List σ) :
    Crowd.total number (Crowd.around Kernel.Request gate data states).threads =
      (states.map fun state => number ⟨state, .idle⟩).sum := by
  rw [Crowd.total, Crowd.around, List.map_map]
  rfl

/-- What holds at any time of threads that use a semaphore as a lock. -/
structure Locking (plan : Plan δ σ) (held : σ → Nat) (stored : δ → Nat)
    (pool : Crowd Nat Kernel.Request δ σ) : Prop where
  /-- There are no more threads than the count can tell apart. -/
  few : pool.threads.length ≤ Count.limit
  /-- Every thread knows what is right and is where its plan leads. -/
  proper : ∀ thread ∈ pool.threads, thread.mode.Sound ∧ thread.Follows plan
  /-- Every waiter waits for a token that the count owes, that is in the kernel, or that is on
  the way there. -/
  waiters : (Crowd.total (Thread.share Phase.registered) pool.threads : Int) =
    max 0 (-pool.shared.count.toInt) + pool.shared.kernel +
      Crowd.total (Thread.share Phase.pending) pool.threads
  /-- There is one guard, or one token that is on offer, in the kernel, or on the way there. -/
  single : (allGuards plan held stored pool : Int) + max 0 pool.shared.count.toInt +
    pool.shared.kernel + Crowd.total (Thread.share Phase.pending) pool.threads = 1

namespace Locking

variable {plan : Plan δ σ} {held : σ → Nat} {stored : δ → Nat} {spins : Nat}
  {pool next : Crowd Nat Kernel.Request δ σ}

/-- A new lock is free, and nobody has a guard. -/
theorem start {data : δ} {states : List σ} {crowd : Crowd Nat Kernel.Request δ σ}
    (hcrowd : Crowd.assemble Kernel.Counter.kernel 1 data states = .ok crowd)
    (hfew : states.length ≤ Count.limit) (hdata : stored data = 0)
    (hstates : ∀ state ∈ states, held state = 0) : Locking plan held stored crowd := by
  obtain ⟨hcount, rfl⟩ := Crowd.assemble_eq_ok hcrowd
  have hnone : Crowd.total (guards plan held)
      (Crowd.around Kernel.Request ⟨.ofNat 1, 0, 0, []⟩ data states).threads = 0 := by
    rw [total_around]
    exact List.sum_eq_zero (List.forall_mem_map.mpr hstates)
  refine ⟨?_, fun thread hthread => ?_, ?_, ?_⟩
  · simpa only [Crowd.around, List.length_map] using hfew
  · obtain ⟨state, -, rfl⟩ := List.mem_map.mp hthread
    exact ⟨trivial, trivial⟩
  · simp only [Crowd.around, Crowd.total_idle, hcount]
    omega
  · rw [allGuards, hnone]
    simp only [Crowd.around, Crowd.total_idle, hcount, hdata]
    omega

/-- The count is far from both of its ends. -/
theorem count_range (h : Locking plan held stored pool) :
    -(Count.limit : Int) ≤ pool.shared.count.toInt ∧ pool.shared.count.toInt ≤ 1 := by
  have hregistered := Crowd.total_registered_le pool.threads
  have hfew := h.few
  have hwaiters := h.waiters
  have hsingle := h.single
  omega

/-- Every step keeps to one guard or one token. -/
theorem advance (h : Locking plan held stored pool) (hguarded : Guarded plan held stored)
    {c : Circumstance} {i : Nat}
    (hstep : (Crowd.machine Kernel.Counter.kernel spins plan).advance c i pool = some next) :
    Locking plan held stored next := by
  obtain ⟨before, after, shared, hi, hmove, rfl⟩ := Machine.advance_eq_some_iff.mp hstep
  obtain ⟨hsound, hfollows⟩ := h.proper before (List.mem_of_getElem? hi)
  obtain ⟨hlow, hone⟩ := h.count_range
  have hraising := raising_le_one hguarded hfollows
  have hhigh : pool.shared.count.toInt + before.mode.share Phase.raising ≤ Count.limit := by
    have hlimit : (2 : Int) ≤ Count.limit := by decide
    omega
  have hcourse := Crowd.course_of_step hmove hsound.whole
  have hcase := Crowd.step_cases hmove hsound hlow hhigh
  have hguards := guards_step hguarded hfollows hsound hcourse hlow hhigh
  have hmoved := hcase.tokens
  have hall := Crowd.total_set (guards plan held) hi after
  have hpending := Crowd.total_set (Thread.share Phase.pending) hi after
  have hsingle := h.single
  refine ⟨?_, ?_, hcase.waiters_set hi h.waiters, ?_⟩
  · simpa only [List.length_set] using h.few
  · exact Pool.forall_mem_set h.proper ⟨hcase.sound, hcourse.follows hfollows hsound hlow⟩
  · simp only [allGuards, Thread.share] at hpending hsingle ⊢
    omega

/-- Threads that use a semaphore as a lock keep to one guard or one token in every run. -/
theorem of_reaches {data : δ} {states : List σ} {crowd : Crowd Nat Kernel.Request δ σ}
    (hguarded : Guarded plan held stored)
    (hcrowd : Crowd.assemble Kernel.Counter.kernel 1 data states = .ok crowd)
    (hfew : states.length ≤ Count.limit) (hdata : stored data = 0)
    (hstates : ∀ state ∈ states, held state = 0)
    (hrun : (Crowd.machine Kernel.Counter.kernel spins plan).Reaches crowd pool) :
    Locking plan held stored pool := by
  induction hrun with
  | refl => exact .start hcrowd hfew hdata hstates
  | tail c i _ hstep ih => exact ih.advance hguarded hstep

end Locking

/-- A thread that has stopped. -/
def Finished {π : Type} (plan : Plan δ σ) (thread : Thread σ π) : Prop :=
  thread.mode = .idle ∧ plan thread.state = .stop

/-- The only request of a guarded plan that has to wait is one for the lock, where there is no
token. -/
theorem blocked_request {plan : Plan δ σ} {held : σ → Nat} {stored : δ → Nat} {spins tokens : Nat}
    {c : Circumstance} {state : σ} {call : Call} {resume : Nat → σ} {phase : Phase}
    {request : Kernel.Request} {next : Bool → Turn} (hguarded : Guarded plan held stored)
    (hplan : plan state = .call call resume) (hcomes : call.Comes phase)
    (hmove : phase.move spins = .request request next)
    (hserve : Kernel.Counter.step c request tokens = none) :
    phase = .park .one .forever ∧ tokens = 0 := by
  have hvisits : call.Visits phase := by
    rcases hcomes.cases with hvisits | ⟨count, -, rfl, rfl⟩ | ⟨rfl, rfl⟩
    · exact hvisits
    · cases hmove
    · cases hmove
  rcases Phase.request_cases hmove with ⟨demand, patience, rfl⟩ | ⟨demand, rfl⟩ | ⟨count, rfl⟩
  · obtain ⟨-, rfl⟩ := hvisits
    rcases hguarded.calls hplan with hcall | hcall | hcall <;> cases hcall
    cases hmove
    cases tokens with
    | zero => exact ⟨rfl, rfl⟩
    | succ tokens => cases hserve
  · obtain ⟨-, timeout, rfl⟩ := hvisits
    rcases hguarded.calls hplan with hcall | hcall | hcall <;> cases hcall
  · cases hmove
    cases hserve

/-- Only a thread that has stopped, or that sleeps for the lock where there is no token, cannot go
on. -/
theorem blocked_cases {plan : Plan δ σ} {held : σ → Nat} {stored : δ → Nat} {spins i : Nat}
    {c : Circumstance} {thread : Thread σ Kernel.Request} {shared : Shared Nat δ}
    (hguarded : Guarded plan held stored) (hsound : thread.mode.Sound)
    (hfollows : thread.Follows plan)
    (hstep : Crowd.step Kernel.Counter.kernel spins plan c i thread shared = none) :
    Finished plan thread ∨
      (thread.mode = .calling (.park .one .forever) ∧ shared.kernel = 0) := by
  obtain ⟨state, mode⟩ := thread
  cases mode with
  | idle =>
    simp only [Crowd.step] at hstep
    cases hplan : plan state with
    | call call resume => simp only [hplan, reduceCtorEq] at hstep
    | touch change => simp only [hplan, reduceCtorEq] at hstep
    | stop => exact .inl ⟨rfl, hplan⟩
  | calling phase =>
    obtain ⟨call, resume, hplan, hcomes⟩ := hfollows
    cases hmove : phase.move spins with
    | access access next =>
      rw [Crowd.step_access _ _ rfl hmove] at hstep
      cases hstep
    | finish result =>
      dsimp only at hplan
      cases result <;> simp only [Crowd.step, hmove, hplan, reduceCtorEq] at hstep
    | request request next =>
      simp only [Crowd.step, hmove, Crowd.stepRequest] at hstep
      cases hserve : Kernel.Counter.step c request shared.kernel with
      | none =>
        obtain ⟨rfl, hempty⟩ := blocked_request hguarded hplan hcomes hmove hserve
        exact .inr ⟨rfl, hempty⟩
      | some served => simp only [Kernel.Counter.kernel, id_eq, hserve, reduceCtorEq] at hstep
  | requesting phase stage => exact absurd hfollows id
  | broken fault =>
    exact absurd rfl (hfollows.not_broken (hguarded.plan_ne_signal_zero state) fault)

/-! ## What the lock promises -/

/-- What a lock promises in a pool of threads. -/
structure Excludes (plan : Plan δ σ) (held : σ → Nat) (stored : δ → Nat) (spins : Nat)
    (pool : Crowd Nat Kernel.Request δ σ) : Prop where
  /-- There is no more than one guard. -/
  single : allGuards plan held stored pool ≤ 1
  /-- No two threads have guards. -/
  one : ∀ {i j : Nat} {a b : Thread σ Kernel.Request}, pool.threads[i]? = some a →
    pool.threads[j]? = some b → 0 < guards plan held a → 0 < guards plan held b → i = j
  /-- While there is a guard, the lock is seen to be held. -/
  locked : 0 < allGuards plan held stored pool → isLocked (Crowd.semaphore pool spins) = true
  /-- While there is a guard, an attempt to take the lock fails. -/
  refuses : 0 < allGuards plan held stored pool →
    (Crowd.semaphore pool spins).call (serverOf Kernel.Counter.kernel) tryLock =
      (.ok (.granted false), Crowd.semaphore pool spins)
  /-- So does an attempt that is under way, at its next access to the count. -/
  givesUp : 0 < allGuards plan held stored pool →
    ∀ {c : Circumstance} {i : Nat} {state : σ} {phase : Phase} {resume : Nat → σ}
      {next : Crowd Nat Kernel.Request δ σ},
      pool.threads[i]? = some ⟨state, .calling phase⟩ → plan state = .call tryLock resume →
      (∀ tokens, phase ≠ .done tokens) →
      (Crowd.machine Kernel.Counter.kernel spins plan).advance c i pool = some next →
      next.threads[i]? = some ⟨state, .calling (.done 0)⟩ ∧ next.shared = pool.shared
  /-- When no call is under way and there is no guard, the lock is seen to be free, and its one
  token is in the count. -/
  free : (∀ thread ∈ pool.threads, thread.mode = .idle) → allGuards plan held stored pool = 0 →
    isLocked (Crowd.semaphore pool spins) = false ∧ pool.shared.count.toInt = 1 ∧
      pool.shared.kernel = 0

/-- A lock is seen to be held if its count has no token. -/
theorem isLocked_iff {κ : Type} {s : Semaphore κ} : isLocked s = true ↔ s.count.toInt ≤ 0 := by
  rw [isLocked, beq_iff_eq, Semaphore.available, Count.available]
  by_cases hpos : 0 < s.count
  · have hcount := Count.pos_iff.mp hpos
    have hamount := Count.amount_of_nonneg (Int.le_of_lt hcount)
    rw [if_pos hpos]
    omega
  · have hcount := mt Count.pos_iff.mpr hpos
    rw [if_neg hpos]
    exact ⟨fun _ => by omega, fun _ => rfl⟩

/-- An attempt that finds no token is over. -/
theorem considered_of_nonpos {count : Int64} (hcount : count.toInt ≤ 0) (spins : Nat) :
    Phase.considered spins .one .attempt count = .done 0 :=
  if_neg (mt Count.pos_iff.mp (Int.not_lt.mpr hcount))

/-- An attempt on a count without tokens fails. -/
theorem tryLock_of_nonpos {κ : Type} {s : Semaphore κ} (hcount : s.count.toInt ≤ 0)
    (serve : Server κ) : s.call serve tryLock = (.ok (.granted false), s) := by
  have hmoves : s.movesFor = 2 * s.spins + 254 + 1 + 1 := rfl
  simp only [Semaphore.call, hmoves, tryLock, Phase.ofCall, Semaphore.run, Phase.move,
    Cell.Access.perform, considered_of_nonpos hcount, Semaphore.noted, Option.toList,
    List.append_nil, Except.map, Call.answer, Nat.lt_irrefl, decide_false]

/-- Where an attempt to take the lock stands before it is over. -/
theorem phase_of_tryLock {phase : Phase} (h : tryLock.Comes phase)
    (hbusy : ∀ tokens, phase ≠ .done tokens) :
    phase = .look .one .attempt ∨ ∃ seen, phase = .grab .one .attempt seen := by
  rcases h with rfl | hvisits
  · exact .inl rfl
  · cases phase with
    | look demand purpose =>
      cases purpose with
      | attempt =>
        cases hvisits
        exact .inl rfl
      | opening patience => cases hvisits
      | topUp =>
        obtain ⟨max, patience, -, -, hcall⟩ := hvisits
        cases hcall
    | grab demand purpose seen =>
      cases purpose with
      | attempt =>
        cases hvisits
        exact .inr ⟨seen, rfl⟩
      | opening patience => cases hvisits
      | topUp =>
        obtain ⟨max, patience, -, -, hcall⟩ := hvisits
        cases hcall
    | spin | spinGrab | enlist | park => cases hvisits.2
    | recheck | claim | withdraw =>
      obtain ⟨-, timeout, hcall⟩ := hvisits
      cases hcall
    | raise | failed => exact absurd hvisits id
    | post count =>
      obtain ⟨count, -, hcall⟩ := hvisits
      cases hcall
    | done tokens => exact absurd rfl (hbusy tokens)

/-- An attempt that accesses a count without tokens is over, and leaves the count as it is. -/
theorem onward_tryLock {spins : Nat} {count left : Int64} {phase after : Phase}
    (h : Phase.Onward spins count phase after left)
    (hphase : phase = .look .one .attempt ∨ ∃ seen, phase = .grab .one .attempt seen)
    (hcount : count.toInt ≤ 0) (hlow : -(Count.limit : Int) ≤ count.toInt) :
    after = .done 0 ∧ left = count := by
  rcases hphase with rfl | ⟨seen, rfl⟩
  · cases h with
    | look => exact ⟨considered_of_nonpos hcount spins, rfl⟩
    | broke => omega
  · cases h with
    | grab _ _ hpos => omega
    | miss => exact ⟨considered_of_nonpos hcount spins, rfl⟩
    | broke => omega

/-- An attempt that is not over accesses the count next. -/
theorem move_of_tryLock {phase : Phase} (hsound : phase.Sound)
    (hphase : phase = .look .one .attempt ∨ ∃ seen, phase = .grab .one .attempt seen)
    (spins : Nat) : ∃ access next, phase.move spins = .access access next := by
  rcases hphase with rfl | ⟨seen, rfl⟩
  · exact ⟨_, _, rfl⟩
  · obtain ⟨rest, hleft, -⟩ := Demand.one.exists_left hsound
    simp only [Phase.move, hleft, Phase.exchangeFor]
    exact ⟨_, _, rfl⟩

/-- An attempt that is under way where the count has no token is over in its next step, which
changes nothing. -/
theorem tryLock_step {plan : Plan δ σ} {spins : Nat} {c : Circumstance}
    {before after : Thread σ Kernel.Request} {shared shared' : Shared Nat δ} {phase : Phase}
    (h : Crowd.Course spins plan c before shared after shared') (hsound : before.mode.Sound)
    (hmode : before.mode = .calling phase)
    (hphase : phase = .look .one .attempt ∨ ∃ seen, phase = .grab .one .attempt seen)
    (hcount : shared.count.toInt ≤ 0) (hlow : -(Count.limit : Int) ≤ shared.count.toInt) :
    after = ⟨before.state, .calling (.done 0)⟩ ∧ shared' = shared := by
  rw [hmode] at hsound
  obtain ⟨access, next, hmoves⟩ := move_of_tryLock hsound hphase spins
  cases h with
  | access same access next hsame hmove =>
    obtain rfl := Mode.calling.inj (hmode.symm.trans hsame)
    have honward := Phase.onward_of_access hmove hsound (c.chance == .mishap) shared.count
    obtain ⟨hover, hleft⟩ := onward_tryLock honward hphase hcount hlow
    rw [hover, hleft]
    exact ⟨rfl, rfl⟩
  | start call resume hidle => cases hmode.symm.trans hidle
  | touch change hidle => cases hmode.symm.trans hidle
  | request same _ _ _ _ hsame hmove | finish same _ _ _ hsame hmove | fail same _ hsame hmove =>
    obtain rfl := Mode.calling.inj (hmode.symm.trans hsame)
    cases hmoves.symm.trans hmove

namespace Locking

variable {plan : Plan δ σ} {held : σ → Nat} {stored : δ → Nat} {spins : Nat}
  {pool next : Crowd Nat Kernel.Request δ σ}

/-- While there is a guard, the count has no token. -/
theorem count_nonpos (h : Locking plan held stored pool)
    (hsome : 0 < allGuards plan held stored pool) : pool.shared.count.toInt ≤ 0 := by
  have hsingle := h.single
  omega

/-- An attempt to take the lock gives up at its next access to a count without tokens. -/
theorem givesUp (h : Locking plan held stored pool) (hcount : pool.shared.count.toInt ≤ 0)
    {c : Circumstance} {i : Nat} {state : σ} {phase : Phase} {resume : Nat → σ}
    (hi : pool.threads[i]? = some ⟨state, .calling phase⟩)
    (hplan : plan state = .call tryLock resume) (hbusy : ∀ tokens, phase ≠ .done tokens)
    (hstep : (Crowd.machine Kernel.Counter.kernel spins plan).advance c i pool = some next) :
    next.threads[i]? = some ⟨state, .calling (.done 0)⟩ ∧ next.shared = pool.shared := by
  obtain ⟨before, after, shared, hbefore, hmove, rfl⟩ := Machine.advance_eq_some_iff.mp hstep
  obtain ⟨hsound, hfollows⟩ := h.proper before (List.mem_of_getElem? hbefore)
  have hcourse := Crowd.course_of_step hmove hsound.whole
  obtain rfl := Option.some.inj (hi.symm.trans hbefore)
  obtain ⟨call, resume', hplan', hcomes⟩ := hfollows
  obtain ⟨rfl, -⟩ : call = tryLock ∧ resume' = resume := by simpa using hplan'.symm.trans hplan
  obtain ⟨hlt, -⟩ := List.getElem?_eq_some_iff.mp hi
  obtain ⟨rfl, rfl⟩ := tryLock_step hcourse hsound rfl (phase_of_tryLock hcomes hbusy) hcount
    h.count_range.1
  exact ⟨List.getElem?_set_self hlt, rfl⟩

/-- Where no call is under way and there is no guard, the token is in the count. -/
theorem count_eq_one (h : Locking plan held stored pool)
    (hidle : ∀ thread ∈ pool.threads, thread.mode = .idle)
    (hnone : allGuards plan held stored pool = 0) :
    pool.shared.count.toInt = 1 ∧ pool.shared.kernel = 0 := by
  have hresting : ∀ thread ∈ pool.threads,
      thread.mode.atRest = true ∨ thread.mode.asleep = true := fun thread hthread => by
    rw [hidle thread hthread]
    exact .inl rfl
  obtain ⟨hregistered, hpending⟩ := Accounted.total_of_asleep hresting
  have hsleepers : (pool.threads.countP fun thread => thread.mode.asleep) = 0 :=
    List.countP_eq_zero.mpr fun thread hthread => by
      rw [hidle thread hthread]
      exact Bool.false_ne_true
  have hwaiters := h.waiters
  have hsingle := h.single
  omega

/-- No two threads have guards. -/
theorem one (h : Locking plan held stored pool) {i j : Nat} {a b : Thread σ Kernel.Request}
    (hi : pool.threads[i]? = some a) (hj : pool.threads[j]? = some b)
    (ha : 0 < guards plan held a) (hb : 0 < guards plan held b) : i = j := by
  by_contra hne
  have hboth := add_le_total (guards plan held) hi hj hne
  have hsingle := h.single
  rw [allGuards] at hsingle
  omega

/-- Threads that stop without a guard, and that wait for the lock only without one, go on until
all of them have stopped. If nobody could, the lock would be free, and nobody would wait for it. -/
theorem goes_on (h : Locking plan held stored pool) (hguarded : Guarded plan held stored)
    (hstored : stored pool.shared.data = 0)
    (hnone : ∀ thread ∈ pool.threads,
      Finished plan thread ∨ thread.mode = .calling (.park .one .forever) →
        guards plan held thread = 0)
    (hunfinished : ∃ thread ∈ pool.threads, ¬Finished plan thread) (c : Circumstance) :
    ∃ i next, (Crowd.machine Kernel.Counter.kernel spins plan).advance c i pool = some next := by
  by_contra hstuck
  have hblocked : ∀ thread ∈ pool.threads, Finished plan thread ∨
      (thread.mode = .calling (.park .one .forever) ∧ pool.shared.kernel = 0) := by
    intro thread hthread
    obtain ⟨i, hi⟩ := List.mem_iff_getElem?.mp hthread
    obtain ⟨hsound, hfollows⟩ := h.proper thread hthread
    have hstep : Crowd.step Kernel.Counter.kernel spins plan c i thread pool.shared = none := by
      by_contra hmoves
      obtain ⟨⟨after, shared⟩, hmove⟩ := Option.ne_none_iff_exists'.mp hmoves
      exact hstuck ⟨i, _, Machine.advance_eq_some_iff.mpr ⟨thread, after, shared, hi, hmove, rfl⟩⟩
    exact blocked_cases hguarded hsound hfollows hstep
  obtain ⟨sleeper, hsleeper, hnotyet⟩ := hunfinished
  obtain ⟨hparked, hempty⟩ := (hblocked sleeper hsleeper).resolve_left hnotyet
  obtain ⟨hregistered, hpending⟩ := Accounted.total_of_asleep fun thread hthread => by
    rcases hblocked thread hthread with ⟨hidle, -⟩ | ⟨hasleep, -⟩
    · exact .inl (hidle ▸ rfl)
    · exact .inr (hasleep ▸ rfl)
  have hsome : 0 < pool.threads.countP fun thread => thread.mode.asleep :=
    List.countP_pos_iff.mpr ⟨sleeper, hsleeper, hparked ▸ rfl⟩
  have hguards : allGuards plan held stored pool = 0 := by
    rw [allGuards, hstored, Nat.zero_add]
    exact Crowd.total_eq_zero fun thread hthread =>
      hnone thread hthread ((hblocked thread hthread).imp_right And.left)
  have hwaiters := h.waiters
  have hsingle := h.single
  omega

/-- A lock keeps what it promises. -/
theorem excludes (h : Locking plan held stored pool) : Excludes plan held stored spins pool := by
  have hsingle := h.single
  have hcount (hsome : 0 < allGuards plan held stored pool) :
      (Crowd.semaphore pool spins).count.toInt ≤ 0 := h.count_nonpos hsome
  refine ⟨by omega, h.one, fun hsome => ?_, fun hsome => ?_,
    fun hsome {c i state phase resume next} => ?_, fun hidle hnone => ?_⟩
  · exact isLocked_iff.mpr (hcount hsome)
  · exact tryLock_of_nonpos (hcount hsome) _
  · exact h.givesUp (h.count_nonpos hsome)
  · obtain ⟨hcount, hkernel⟩ := h.count_eq_one hidle hnone
    refine ⟨?_, hcount, hkernel⟩
    rw [← Bool.not_eq_true, isLocked_iff, Crowd.semaphore, hcount]
    decide

end Locking

end WordSync.Benaphore
