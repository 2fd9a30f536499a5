import Mathlib.Algebra.BigOperators.Ring.List
import Mathlib.Algebra.Ring.Nat
import WordSync.Proofs.Benaphore.Exclusion
import WordSync.Proofs.Recording

/-!
# Adding under the lock

Threads that add to a shared sum under a lock read and write it in separate steps. What a thread
has read is still the sum when it writes, because nobody else has a guard in between. So no
addition is lost, in whatever order the threads make their steps, and they can always go on until
all of them have finished.
-/

namespace WordSync.Benaphore

open Semaphore

/-- Whether a thread has the lock at a step of its round. -/
def CountingStep.held : CountingStep → Nat
  | .outside => 0
  | .failed => 0
  | _ => 1

/-- One if a thread has added to the sum in its round. -/
def CountingStep.added : CountingStep → Nat
  | .written => 1
  | .counting _ => 1
  | .leaving => 1
  | _ => 0

/-- One if a thread has counted the lock in its round. -/
def CountingStep.counted : CountingStep → Nat
  | .leaving => 1
  | _ => 0

namespace Counting

/-- The guards that a thread has between two calls. -/
def held (thread : Counting) : Nat := thread.step.held

/-- What a thread has still to add to the sum. -/
def remaining (thread : Counting) : Nat :=
  thread.number.toNat * (thread.rounds - thread.step.added)

/-- How often a thread has still to count the lock. -/
def uncounted (thread : Counting) : Nat := thread.rounds - thread.step.counted

variable {add : Adder} {thread : Counting} {tally : Tally}

/-- The calls of a thread that adds under the lock. -/
theorem plan_call_cases {call : Call} {resume : Nat → Counting}
    (h : plan add thread = .call call resume) :
    (thread.step = .outside ∧ 0 < thread.rounds ∧ call = lock ∧
        resume = fun _ => ⟨thread.number, thread.rounds, .holding⟩) ∨
      (thread.step = .leaving ∧ call = unlock ∧
        resume = fun _ => ⟨thread.number, thread.rounds - 1, .outside⟩) ∨
      (thread.step = .refused ∧ call = unlock ∧
        resume = fun _ => ⟨thread.number, thread.rounds, .failed⟩) := by
  obtain ⟨number, rounds, step⟩ := thread
  cases step with
  | outside =>
    cases rounds with
    | zero => cases h
    | succ rounds =>
      cases h
      exact .inl ⟨rfl, Nat.succ_pos _, rfl, rfl⟩
  | leaving =>
    cases h
    exact .inr (.inl ⟨rfl, rfl, rfl⟩)
  | refused =>
    cases h
    exact .inr (.inr ⟨rfl, rfl, rfl⟩)
  | read value =>
    simp only [plan] at h
    split at h <;> cases h
  | holding | failed | written | counting => cases h

/-- A thread that adds under the lock touches the sum only with a guard, which it keeps. -/
theorem held_of_touch {change : Tally → Tally × Counting} (h : plan add thread = .touch change) :
    thread.held = 1 ∧ ∀ tally, (change tally).2.held = 1 := by
  obtain ⟨number, rounds, step⟩ := thread
  cases step with
  | outside =>
    cases rounds with
    | zero => cases h
    | succ rounds => cases h
  | read value =>
    simp only [plan] at h
    split at h <;> cases h <;> exact ⟨rfl, fun _ => rfl⟩
  | holding | written | counting =>
    cases h
    exact ⟨rfl, fun _ => rfl⟩
  | leaving | refused | failed => cases h

/-- A thread that adds under the lock uses it as it should. -/
theorem guarded (add : Adder) : Guarded (plan add) held fun _ : Tally => 0 := by
  refine ⟨fun {_ call resume} hplan => ?_, fun {_ resume} hplan => ?_, fun {_ resume} hplan => ?_,
    fun {_ resume} hplan => ?_, fun {_ change} hplan data => ?_⟩
  · rcases plan_call_cases hplan with ⟨-, -, rfl, -⟩ | ⟨-, rfl, -⟩ | ⟨-, rfl, -⟩
    · exact .inl rfl
    · exact .inr (.inr rfl)
    · exact .inr (.inr rfl)
  · rcases plan_call_cases hplan with ⟨hstep, -, -, rfl⟩ | ⟨-, hcall, -⟩ | ⟨-, hcall, -⟩
    · rw [held, held, hstep]
      rfl
    · cases hcall
    · cases hcall
  · rcases plan_call_cases hplan with ⟨-, -, hcall, -⟩ | ⟨-, hcall, -⟩ | ⟨-, hcall, -⟩
    all_goals cases hcall
  · rcases plan_call_cases hplan with ⟨-, -, hcall, -⟩ | ⟨hstep, -, rfl⟩ | ⟨hstep, -, rfl⟩
    · cases hcall
    · rw [held, held, hstep]
      rfl
    · rw [held, held, hstep]
      rfl
  · obtain ⟨hbefore, hafter⟩ := held_of_touch hplan
    rw [hbefore, hafter data]

/-- What a thread knows that adds under the lock, if no sum is ever refused. -/
structure Sane (tally : Tally) (thread : Counting) : Prop where
  /-- In a round there is a round to be made. -/
  rounds_pos : thread.step ≠ .outside → 0 < thread.rounds
  /-- No sum was refused. -/
  accepted : thread.step ≠ .refused ∧ thread.step ≠ .failed
  /-- What it has read is the sum. -/
  read_eq : ∀ value, thread.step = .read value → value = tally.value
  /-- How often it has read that the lock was taken is how often it was. -/
  counting_eq : ∀ locks, thread.step = .counting locks → locks = tally.locks

/-- A thread that knows nothing of the sum may see another one. -/
theorem Sane.of_not_touch (h : Sane tally thread)
    (hquiet : ∀ change, plan .wrapping thread ≠ .touch change) (other : Tally) :
    Sane other thread := by
  refine ⟨h.rounds_pos, h.accepted, fun value hstep => ?_, fun locks hstep => ?_⟩
  · exact absurd (by simp only [plan, hstep, Adder.wrapping]) (hquiet fun tally =>
      (⟨value + thread.number, tally.locks⟩, ⟨thread.number, thread.rounds, .written⟩))
  · exact absurd (by simp only [plan, hstep]) (hquiet fun tally =>
      (⟨tally.value, locks + 1⟩, ⟨thread.number, thread.rounds, .leaving⟩))

/-- A call leaves what a thread has still to do as it is. -/
theorem Sane.call (h : Sane tally thread) {call : Call} {resume : Nat → Counting}
    (hplan : plan .wrapping thread = .call call resume) (tokens : Nat) :
    Sane tally (resume tokens) ∧ (resume tokens).remaining = thread.remaining ∧
      (resume tokens).uncounted = thread.uncounted := by
  rcases plan_call_cases hplan with ⟨hstep, hrounds, -, rfl⟩ | ⟨hstep, -, rfl⟩ | ⟨hstep, -, -⟩
  · refine ⟨⟨fun _ => hrounds, ⟨nofun, nofun⟩, nofun, nofun⟩, ?_, ?_⟩
    · rw [remaining, remaining, hstep]
      rfl
    · rw [uncounted, uncounted, hstep]
      rfl
  · refine ⟨⟨fun hne => absurd rfl hne, ⟨nofun, nofun⟩, nofun, nofun⟩, ?_, ?_⟩
    · rw [remaining, remaining, hstep]
      rfl
    · rw [uncounted, uncounted, hstep]
      rfl
  · exact absurd hstep h.accepted.1

/-- What a thread adds to the sum and to the number of locks is what it has less to do. -/
theorem Sane.touch (h : Sane tally thread) {change : Tally → Tally × Counting}
    (hplan : plan .wrapping thread = .touch change) :
    Sane (change tally).1 (change tally).2 ∧
      (change tally).1.value + .ofNat (change tally).2.remaining =
        tally.value + .ofNat thread.remaining ∧
      (change tally).1.locks + (change tally).2.uncounted = tally.locks + thread.uncounted := by
  obtain ⟨number, rounds, step⟩ := thread
  cases step with
  | outside =>
    cases rounds with
    | zero => cases hplan
    | succ rounds => cases hplan
  | holding =>
    cases hplan
    have hrounds := h.rounds_pos nofun
    exact ⟨⟨fun _ => hrounds, ⟨nofun, nofun⟩, fun _ hread => (CountingStep.read.inj hread).symm,
      nofun⟩, rfl, rfl⟩
  | read value =>
    cases hplan
    have hrounds : 0 < rounds := h.rounds_pos nofun
    obtain rfl : value = tally.value := h.read_eq value rfl
    refine ⟨⟨fun _ => hrounds, ⟨nofun, nofun⟩, nofun, nofun⟩, ?_, rfl⟩
    -- The round that is done now is the number that has been added.
    have hround : number.toNat * rounds = number.toNat + number.toNat * (rounds - 1) := by
      rw [Nat.mul_sub_one, Nat.add_sub_cancel' (Nat.le_mul_of_pos_right _ hrounds)]
    show tally.value + number + .ofNat (number.toNat * (rounds - 1)) =
      tally.value + .ofNat (number.toNat * rounds)
    rw [hround, UInt64.ofNat_add, UInt64.ofNat_toNat, UInt64.add_assoc]
  | written =>
    cases hplan
    have hrounds := h.rounds_pos nofun
    exact ⟨⟨fun _ => hrounds, ⟨nofun, nofun⟩, nofun,
      fun _ hcounting => (CountingStep.counting.inj hcounting).symm⟩, rfl, rfl⟩
  | counting locks =>
    cases hplan
    have hrounds : 0 < rounds := h.rounds_pos nofun
    obtain rfl : locks = tally.locks := h.counting_eq locks rfl
    refine ⟨⟨fun _ => hrounds, ⟨nofun, nofun⟩, nofun, nofun⟩, rfl, ?_⟩
    show tally.locks + 1 + (rounds - 1) = tally.locks + rounds
    omega
  | leaving => cases hplan
  | refused => cases hplan
  | failed => cases hplan

/-- A thread that has stopped has nothing left to do and no guard. -/
theorem Sane.of_stop (h : Sane tally thread) (hstop : plan .wrapping thread = .stop) :
    thread.remaining = 0 ∧ thread.uncounted = 0 ∧ thread.held = 0 := by
  obtain ⟨number, rounds, step⟩ := thread
  cases step with
  | outside =>
    cases rounds with
    | zero => exact ⟨Nat.mul_zero _, rfl, rfl⟩
    | succ rounds => cases hstop
  | failed => exact absurd rfl h.accepted.2
  | _ => cases hstop

variable {spins i : Nat} {c : Circumstance}
variable {before after : Thread Counting Kernel.Request} {shared shared' : Shared Nat Tally}

/-- One step of a thread keeps what it knows, and what it adds is what it has less to do. It
changes the shared data only where it has a guard. -/
theorem Sane.step (h : Sane shared.data before.state)
    (hcourse : Crowd.Course spins (plan .wrapping) c before shared after shared') :
    Sane shared'.data after.state ∧
      shared'.data.value + .ofNat after.state.remaining =
        shared.data.value + .ofNat before.state.remaining ∧
      shared'.data.locks + after.state.uncounted =
        shared.data.locks + before.state.uncounted ∧
      (shared'.data = shared.data ∨ before.mode = .idle ∧ before.state.held = 1) := by
  cases hcourse with
  | start | access | request | fail => exact ⟨h, rfl, rfl, .inl rfl⟩
  | touch change hmode hplan =>
    obtain ⟨hsane, hvalue, hlocks⟩ := h.touch hplan
    exact ⟨hsane, hvalue, hlocks, .inr ⟨hmode, (held_of_touch hplan).1⟩⟩
  | finish phase tokens call resume hmode hmoves hplan =>
    obtain ⟨hsane, hremaining, huncounted⟩ := h.call hplan tokens
    exact ⟨hsane, by rw [hremaining], by rw [huncounted], .inl rfl⟩

/-- A thread that could touch the shared data has a guard. -/
theorem guards_of_touch (hfollows : before.Follows (plan add))
    {change : Tally → Tally × Counting} (hplan : plan add before.state = .touch change) :
    guards (plan add) held before = 1 := by
  obtain ⟨state, mode⟩ := before
  have hheld : held state = 1 := (held_of_touch hplan).1
  cases mode with
  | idle => exact hheld
  | calling phase =>
    obtain ⟨call, resume, hcall, -⟩ := hfollows
    cases hcall.symm.trans hplan
  | requesting phase stage => exact absurd hfollows id
  | broken fault =>
    obtain ⟨-, resume, hcall⟩ := hfollows
    cases hcall.symm.trans hplan

/-- A thread that sleeps for the lock has no guard. -/
theorem guards_of_asleep (hfollows : before.Follows (plan add))
    (hasleep : before.mode = .calling (.park .one .forever)) :
    guards (plan add) held before = 0 := by
  obtain ⟨state, mode⟩ := before
  obtain rfl : mode = .calling (.park .one .forever) := hasleep
  obtain ⟨call, resume, hplan, hcomes⟩ := hfollows
  have hcall : call = lock := by
    rcases hcomes.cases with ⟨-, hvisits⟩ | ⟨_, -, -, hraise⟩ | ⟨-, hfailed⟩
    · exact hvisits
    · cases hraise
    · cases hfailed
  rw [guards_lock hplan (.inl hcall)]
  rcases plan_call_cases hplan with ⟨hstep, -⟩ | ⟨-, hunlock, -⟩ | ⟨-, hunlock, -⟩
  · rw [held, hstep]
    rfl
  · cases hcall.symm.trans hunlock
  · cases hcall.symm.trans hunlock

end Counting

/-! ## All additions arrive -/

/-- What holds at any time of threads that add under the lock. What is in the sum and what the
threads have still to add make up `value`, and how often the lock was counted and is still to be
counted makes up `locks`. -/
structure Counted (value : UInt64) (locks : Nat)
    (pool : Crowd Nat Kernel.Request Tally Counting) : Prop where
  /-- They use the lock as they should. -/
  locking : Locking (Counting.plan .wrapping) Counting.held (fun _ => 0) pool
  /-- What every thread has read is right. -/
  sane : ∀ thread ∈ pool.threads, Counting.Sane pool.shared.data thread.state
  /-- No addition is lost. -/
  value_eq : pool.shared.data.value +
    .ofNat (Crowd.total (fun thread => thread.state.remaining) pool.threads) = value
  /-- No count is lost. -/
  locks_eq : pool.shared.data.locks +
    Crowd.total (fun thread => thread.state.uncounted) pool.threads = locks

namespace Counted

variable {value : UInt64} {locks spins : Nat}
variable {pool next : Crowd Nat Kernel.Request Tally Counting}

/-- Where one thread changes the shared data, all others know nothing of them: a thread that does
could touch them, but then it would have a guard as well. -/
theorem sane_set (h : Counted value locks pool) {i : Nat}
    {before after : Thread Counting Kernel.Request} {data : Tally}
    (hi : pool.threads[i]? = some before) (hafter : Counting.Sane data after.state)
    (hdata : data = pool.shared.data ∨ before.mode = .idle ∧ before.state.held = 1) :
    ∀ thread ∈ pool.threads.set i after, Counting.Sane data thread.state := by
  rcases hdata with rfl | ⟨hidle, hheld⟩
  · exact Pool.forall_mem_set h.sane hafter
  · intro thread hthread
    obtain ⟨j, hj⟩ := List.mem_iff_getElem?.mp hthread
    rcases Pool.thread_cases hj with ⟨rfl, rfl⟩ | ⟨hne, hj⟩
    · exact hafter
    · have hmem := List.mem_of_getElem? hj
      refine (h.sane thread hmem).of_not_touch (fun change hplan => hne ?_) data
      have hholds := Counting.guards_of_touch (h.locking.proper thread hmem).2 hplan
      have hguard : guards (Counting.plan .wrapping) Counting.held before = 1 := by
        obtain ⟨state, mode⟩ := before
        obtain rfl : mode = .idle := hidle
        exact hheld
      exact h.locking.one hj hi (by omega) (by omega)

/-- At first nothing has been added. -/
theorem start {threads rounds : Nat} {crowd : Crowd Nat Kernel.Request Tally Counting}
    (hfew : threads ≤ Count.limit)
    (hcrowd : Crowd.assemble Kernel.Counter.kernel 1 (Tally.mk value 0)
      ((List.range threads).map fun i => Counting.mk (.ofNat i) rounds .outside) = .ok crowd) :
    Counted (value + .ofNat (rounds * (List.range threads).sum)) (threads * rounds) crowd := by
  obtain ⟨-, rfl⟩ := Crowd.assemble_eq_ok hcrowd
  refine ⟨.start hcrowd ?_ rfl ?_, ?_, ?_, ?_⟩
  · rwa [List.length_map, List.length_range]
  · intro state hstate
    obtain ⟨i, -, rfl⟩ := List.mem_map.mp hstate
    rfl
  · intro thread hthread
    obtain ⟨state, hstate, rfl⟩ := List.mem_map.mp hthread
    obtain ⟨i, -, rfl⟩ := List.mem_map.mp hstate
    exact ⟨fun hne => absurd rfl hne, ⟨nofun, nofun⟩, nofun, nofun⟩
  · have hnumber : ∀ i ∈ List.range threads, (UInt64.ofNat i).toNat * rounds = rounds * i := by
      intro i hi
      have hlimit : Count.limit < UInt64.size := by decide
      have hbelow := List.mem_range.mp hi
      rw [UInt64.toNat_ofNat_of_lt' (by omega), Nat.mul_comm]
    rw [total_around, List.map_map]
    have hsum : ((List.range threads).map fun i => (UInt64.ofNat i).toNat * rounds).sum =
        rounds * (List.range threads).sum := by
      rw [List.map_congr_left hnumber, List.sum_map_mul_left, List.map_id']
    exact congrArg (fun total => value + UInt64.ofNat total) hsum
  · rw [total_around, List.map_map]
    have hsum : ((List.range threads).map fun _ => rounds).sum = threads * rounds := by
      rw [List.map_const', List.sum_replicate_nat, List.length_range]
    exact (Nat.zero_add _).trans hsum

/-- Every step keeps what has been added and what is still to be added. -/
theorem advance (h : Counted value locks pool) {c : Circumstance} {i : Nat}
    (hstep : (Crowd.machine Kernel.Counter.kernel spins (Counting.plan .wrapping)).advance
      c i pool = some next) : Counted value locks next := by
  have hlocking := h.locking.advance (Counting.guarded .wrapping) hstep
  obtain ⟨before, after, shared, hi, hmove, rfl⟩ := Machine.advance_eq_some_iff.mp hstep
  have hmem := List.mem_of_getElem? hi
  have hcourse := Crowd.course_of_step hmove (h.locking.proper before hmem).1.whole
  obtain ⟨hsane, hvalue, hlocks, hdata⟩ := (h.sane before hmem).step hcourse
  have hremaining := Crowd.total_set (fun thread => thread.state.remaining) hi after
  have huncounted := Crowd.total_set (fun thread => thread.state.uncounted) hi after
  refine ⟨hlocking, h.sane_set hi hsane hdata, ?_, ?_⟩
  · have hsum := congrArg UInt64.ofNat hremaining
    simp only [UInt64.ofNat_add] at hsum
    have hbefore := h.value_eq
    dsimp only at hvalue ⊢
    grind
  · have hbefore := h.locks_eq
    dsimp only at hlocks ⊢
    omega

/-- When all threads have finished, all additions have arrived. -/
theorem of_finished (h : Counted value locks pool)
    (hfinished : ∀ thread ∈ pool.threads, Finished (Counting.plan .wrapping) thread) :
    pool.shared.data = ⟨value, locks⟩ := by
  have hstop {thread : Thread Counting Kernel.Request} (hthread : thread ∈ pool.threads) :=
    (h.sane thread hthread).of_stop (hfinished thread hthread).2
  have hvalue := h.value_eq
  have hlocks := h.locks_eq
  rw [Crowd.total_eq_zero fun thread hthread => (hstop hthread).1, show UInt64.ofNat 0 = 0 from rfl,
    UInt64.add_zero] at hvalue
  rw [Crowd.total_eq_zero fun thread hthread => (hstop hthread).2.1, Nat.add_zero] at hlocks
  rw [← hvalue, ← hlocks]

/-- Under any circumstance some thread can go on, until all have finished. -/
theorem goes_on (h : Counted value locks pool)
    (hunfinished : ∃ thread ∈ pool.threads, ¬Finished (Counting.plan .wrapping) thread)
    (c : Circumstance) :
    ∃ i next, (Crowd.machine Kernel.Counter.kernel spins (Counting.plan .wrapping)).advance
      c i pool = some next := by
  refine h.locking.goes_on (Counting.guarded .wrapping) rfl (fun thread hthread hends => ?_)
    hunfinished c
  rcases hends with ⟨hidle, hstop⟩ | hasleep
  · obtain ⟨-, -, hheld⟩ := (h.sane thread hthread).of_stop hstop
    obtain ⟨state, mode⟩ := thread
    obtain rfl : mode = .idle := hidle
    exact hheld
  · exact Counting.guards_of_asleep (h.locking.proper thread hthread).2 hasleep

end Counted

/-- What threads can count on that add under the lock, if `goal` is what they are to share in the
end. -/
structure Arrives (spins : Nat) (goal : Tally) (pool : Crowd Nat Kernel.Request Tally Counting) :
    Prop where
  /-- When all of them have finished, no addition and no count is lost. -/
  data_eq : (∀ thread ∈ pool.threads, Finished (Counting.plan .wrapping) thread) →
    pool.shared.data = goal
  /-- Until then some thread can go on, under any circumstance. -/
  goes_on : (∃ thread ∈ pool.threads, ¬Finished (Counting.plan .wrapping) thread) →
    ∀ c, ∃ i next, (Crowd.machine Kernel.Counter.kernel spins (Counting.plan .wrapping)).advance
      c i pool = some next

/-- A semaphore with one token is a lock. Whatever threads do that use it as one, and in whatever
order they make their steps, no two of them have a guard; while there is one, the lock is seen to
be held and attempts to take it fail; and when no call is under way and there is no guard, the
lock is seen to be free and its token is in the count. So if thread `i` of a number of threads adds
`i` to a sum under the lock, round after round, they can always go on until all have finished, and
then every addition has arrived and every round has been counted. -/
theorem lock_excludes (spins : Nat) :
    (∀ {δ σ : Type} {plan : Plan δ σ} {held : σ → Nat} {stored : δ → Nat} {data : δ}
        {states : List σ} {crowd pool : Crowd Nat Kernel.Request δ σ},
      Guarded plan held stored →
      Crowd.assemble Kernel.Counter.kernel 1 data states = .ok crowd →
      states.length ≤ Count.limit → stored data = 0 → (∀ state ∈ states, held state = 0) →
      (Crowd.machine Kernel.Counter.kernel spins plan).Reaches crowd pool →
        Excludes plan held stored spins pool) ∧
      ∀ {threads rounds : Nat} {value : UInt64}
          {crowd pool : Crowd Nat Kernel.Request Tally Counting},
        threads ≤ Count.limit →
        Crowd.assemble Kernel.Counter.kernel 1 (Tally.mk value 0)
          ((List.range threads).map fun i => Counting.mk (.ofNat i) rounds .outside) = .ok crowd →
        (Crowd.machine Kernel.Counter.kernel spins (Counting.plan .wrapping)).Reaches crowd pool →
          Arrives spins ⟨value + .ofNat (rounds * (List.range threads).sum), threads * rounds⟩
            pool := by
  constructor
  · intro δ σ plan held stored data states crowd pool hguarded hcrowd hfew hdata hstates hrun
    exact (Locking.of_reaches hguarded hcrowd hfew hdata hstates hrun).excludes
  · intro threads rounds value crowd pool hfew hcrowd hrun
    have hcounted : Counted (value + .ofNat (rounds * (List.range threads).sum))
        (threads * rounds) pool := by
      induction hrun with
      | refl => exact .start hfew hcrowd
      | tail c i _ hstep ih => exact ih.advance hstep
    exact ⟨hcounted.of_finished, hcounted.goes_on⟩

/-- One thread has the lock and has read the sum; the other sleeps for it. -/
def contended : Crowd Nat Kernel.Request Tally Counting :=
  ⟨⟨-1, 0, ⟨18446744073709551615, 0⟩⟩,
    [⟨⟨0, 1, .outside⟩, .calling (.park .one .forever)⟩,
      ⟨⟨1, 1, .read 18446744073709551615⟩, .idle⟩]⟩

/-- Both threads have finished, and the sum has wrapped around. -/
def counted : Crowd Nat Kernel.Request Tally Counting :=
  ⟨⟨1, 0, ⟨0, 2⟩⟩, [⟨⟨0, 0, .outside⟩, .idle⟩, ⟨⟨1, 0, .outside⟩, .idle⟩]⟩

theorem lock_excludes_contended :
    ∃ crowd : Crowd Nat Kernel.Request Tally Counting,
      Guarded (Counting.plan .wrapping) Counting.held (fun _ : Tally => 0) ∧
      Crowd.assemble Kernel.Counter.kernel 1 (Tally.mk 18446744073709551615 0)
        ((List.range 2).map fun i => Counting.mk (.ofNat i) 1 .outside) = .ok crowd ∧
      2 ≤ Count.limit ∧
      (∀ state ∈ (List.range 2).map fun i => Counting.mk (.ofNat i) 1 .outside, state.held = 0) ∧
      (Crowd.machine Kernel.Counter.kernel 0 (Counting.plan .wrapping)).Reaches crowd contended ∧
      (Crowd.machine Kernel.Counter.kernel 0 (Counting.plan .wrapping)).Reaches crowd counted ∧
      Excludes (Counting.plan .wrapping) Counting.held (fun _ => 0) 0 contended ∧
      allGuards (Counting.plan .wrapping) Counting.held (fun _ => 0) contended = 1 ∧
      Arrives 0 ⟨18446744073709551615 + .ofNat (1 * (List.range 2).sum), 2 * 1⟩ contended ∧
      (∃ thread ∈ contended.threads, ¬Finished (Counting.plan .wrapping) thread) ∧
      Arrives 0 ⟨18446744073709551615 + .ofNat (1 * (List.range 2).sum), 2 * 1⟩ counted ∧
      (∀ thread ∈ counted.threads, Finished (Counting.plan .wrapping) thread) := by
  have hcrowd : Crowd.assemble Kernel.Counter.kernel 1 (Tally.mk 18446744073709551615 0)
      ((List.range 2).map fun i => Counting.mk (.ofNat i) 1 .outside) =
        .ok (Crowd.around Kernel.Request ⟨1, 0, 0, []⟩ (Tally.mk 18446744073709551615 0)
          ((List.range 2).map fun i => Counting.mk (.ofNat i) 1 .outside)) := rfl
  have hlimit : 2 ≤ Count.limit := by decide
  have hfree : ∀ state ∈ (List.range 2).map fun i => Counting.mk (.ofNat i) 1 .outside,
      state.held = 0 := List.forall_mem_map.mpr fun _ _ => rfl
  have hcontended : (Crowd.machine Kernel.Counter.kernel 0 (Counting.plan .wrapping)).Reaches
      (Crowd.around Kernel.Request ⟨1, 0, 0, []⟩ (Tally.mk 18446744073709551615 0)
        ((List.range 2).map fun i => Counting.mk (.ofNat i) 1 .outside)) contended :=
    Machine.run_reaches ([1, 1, 1, 1, 1, 0, 0, 0].map fun i => (Circumstance.usual, i)) rfl
  have hcounted : (Crowd.machine Kernel.Counter.kernel 0 (Counting.plan .wrapping)).Reaches
      (Crowd.around Kernel.Request ⟨1, 0, 0, []⟩ (Tally.mk 18446744073709551615 0)
        ((List.range 2).map fun i => Counting.mk (.ofNat i) 1 .outside)) counted :=
    hcontended.trans (Machine.run_reaches
      ([1, 1, 1, 1, 1, 1, 0, 0, 1, 0, 0, 0, 0, 0, 0, 0].map fun i => (Circumstance.usual, i)) rfl)
  have hwaiting : ∃ thread ∈ contended.threads, ¬Finished (Counting.plan .wrapping) thread :=
    ⟨_, List.mem_cons_self .., fun hfinished => nomatch hfinished.1⟩
  have hfinished : ∀ thread ∈ counted.threads, Finished (Counting.plan .wrapping) thread := by
    simp only [counted, List.forall_mem_cons]
    exact ⟨⟨rfl, rfl⟩, ⟨rfl, rfl⟩, fun _ hthread => absurd hthread List.not_mem_nil⟩
  have hguarded := Counting.guarded .wrapping
  obtain ⟨hexcludes, hadds⟩ := lock_excludes 0
  exact ⟨_, hguarded, hcrowd, hlimit, hfree, hcontended, hcounted,
    hexcludes hguarded hcrowd hlimit rfl hfree hcontended, rfl,
    hadds hlimit hcrowd hcontended, hwaiting, hadds hlimit hcrowd hcounted, hfinished⟩

end WordSync.Benaphore
