import Mathlib.Algebra.Order.BigOperators.Group.List
import Mathlib.Algebra.Order.Group.Nat
import WordSync.Proofs.Semaphore.Ledger

/-!
# Waiters whose time is over

A waiter whose time is over looks at the count until it has either withdrawn or taken its token
from the kernel. The loop has no measure of its own: what a waiter does about a count that is not
negative is to ask the kernel, which changes nothing if there is no token. That the loop comes to
an end is owed to all other threads. Such a count means that there is a token for every waiter, in
the kernel or on its way there, and a token that is there stays there for the waiter, whoever else
takes one.
-/

namespace WordSync.Semaphore

/-- What a waiter whose time is over has asked for. -/
def Mode.withdrawing {π : Type} : Mode π → Option Demand
  | .calling (.recheck demand) => some demand
  | .calling (.claim demand) => some demand
  | .calling (.withdraw demand _) => some demand
  | _ => none

variable {π δ σ : Type} {spins : Nat} {plan : Plan δ σ} {demand : Demand}

/-- A waiter whose time is over is still a waiter. -/
theorem Mode.registered_of_withdrawing {mode : Mode π} (h : mode.withdrawing = some demand) :
    mode.share Phase.registered = 1 := by
  cases mode with
  | calling phase =>
    cases phase with
    | recheck => rfl
    | claim => rfl
    | withdraw => rfl
    | _ => cases h
  | _ => cases h

namespace Crowd

/-! ## The steps of the loop -/

variable {c : Circumstance} {i : Nat} {state : σ} {shared : Shared Nat δ}

/-- The loop begins with a look at the count. -/
theorem step_recheck : step Kernel.Counter.kernel spins plan c i
    ⟨state, .calling (.recheck demand)⟩ shared =
      some (⟨state, .calling (if (0 : Int64) ≤ shared.count then (Phase.claim demand : Turn)
        else Phase.withdraw demand shared.count).phase⟩, shared) := rfl

/-- If the count is not negative, a token is on its way. -/
theorem step_recheck_of_nonneg (hcount : 0 ≤ shared.count.toInt) :
    step Kernel.Counter.kernel spins plan c i ⟨state, .calling (.recheck demand)⟩ shared =
      some (⟨state, .calling (.claim demand)⟩, shared) := by
  rw [step_recheck, if_pos (Count.nonneg_iff.mpr hcount)]

/-- If the count is negative, there are waiters without a token. -/
theorem step_recheck_of_neg (hcount : shared.count.toInt < 0) :
    step Kernel.Counter.kernel spins plan c i ⟨state, .calling (.recheck demand)⟩ shared =
      some (⟨state, .calling (.withdraw demand shared.count)⟩, shared) := by
  rw [step_recheck, if_neg (mt Count.nonneg_iff.mp (by omega))]

/-- A waiter that asks the kernel is given a token if there is one. -/
theorem step_claim_of_succ {tokens : Nat} (hkernel : shared.kernel = tokens + 1) :
    step Kernel.Counter.kernel spins plan c i ⟨state, .calling (.claim demand)⟩ shared =
      some (⟨state, .calling (Phase.granted demand)⟩, { shared with kernel := tokens }) := by
  simp only [step, Phase.move, stepRequest, Kernel.Counter.kernel, id_eq, hkernel,
    Kernel.Counter.step, if_true]

/-- A waiter withdraws by an exchange that adds one, if the count is what it has seen. -/
theorem step_withdraw_of_neg (hcount : shared.count.toInt < 0) :
    ∃ raised : Int64, raised.toInt = shared.count.toInt + 1 ∧
      step Kernel.Counter.kernel spins plan c i
          ⟨state, .calling (.withdraw demand shared.count)⟩ shared =
        some (⟨state, .calling (.done 0)⟩, { shared with count := raised }) := by
  obtain ⟨raised, hadd, hraised⟩ := Count.exists_raised hcount
  refine ⟨raised, hraised, ?_⟩
  simp only [step, Phase.move, hadd, Phase.exchangeFor, Cell.Access.perform, if_true]

/-- A waiter that goes back to look again has asked a kernel without tokens, or has found another
count than the one that it had seen. -/
theorem cause_of_step {phase : Phase} {after : Thread σ Kernel.Request} {shared' : Shared Nat δ}
    (hstep : step Kernel.Counter.kernel spins plan c i ⟨state, .calling phase⟩ shared =
      some (after, shared'))
    (hsound : phase.Sound) (hafter : after.mode = .calling (.recheck demand)) :
    (phase = .claim demand → shared.kernel = 0) ∧
      ∀ seen, phase = .withdraw demand seen → shared.count ≠ seen := by
  constructor
  · rintro rfl
    cases hkernel : shared.kernel with
    | zero => rfl
    | succ tokens =>
      rw [step_claim_of_succ hkernel, Option.some.injEq, Prod.mk.injEq] at hstep
      obtain ⟨rfl, -⟩ := hstep
      obtain hsame : Phase.granted demand = .recheck demand := Mode.calling.inj hafter
      have hregistered := (Phase.holds_granted demand).registered_eq
      rw [hsame] at hregistered
      cases hregistered
  · rintro seen rfl rfl
    obtain ⟨raised, -, hdone⟩ := step_withdraw_of_neg hsound
    rw [hdone, Option.some.injEq, Prod.mk.injEq] at hstep
    obtain ⟨rfl, -⟩ := hstep
    cases hafter

end Crowd

namespace Accounted

variable {κ : Type} {initial : Nat} {i : Nat} {pool : Accounted Nat Kernel.Request δ σ}
  {thread : Thread σ Kernel.Request}

/-- Neither are more tokens outstanding nor do more threads wait than the count can hold. -/
def Contained (initial : Nat) (pool : Accounted κ π δ σ) : Prop :=
  Bounded initial pool ∧ pool.registered ≤ Count.limit

instance (initial : Nat) : DecidablePred (Contained (κ := κ) (π := π) (δ := δ) (σ := σ) initial) :=
  fun _ => inferInstanceAs (Decidable (_ ∧ _))

/-- Tokens and waiters are accounted for in every run of any number of threads in which the count
can hold them. -/
theorem Conserved.of_reaches {met : Accounted Nat Kernel.Request δ σ} (h : Conserved initial pool)
    (hrun : (Crowd.ledgered Kernel.Counter.kernel spins plan).ReachesWithin (Contained initial)
      pool met) : Conserved initial met :=
  hrun.keeps h fun _ _ _ _ hbefore hconserved hstep hafter =>
    hconserved.advance (hconserved.neg_limit_le_count hbefore.2) hstep hafter.1

/-- Where a count is not negative, every waiter has a token in the kernel or on its way there. -/
theorem Conserved.one_le_of_nonneg (h : Conserved initial pool)
    (hi : pool.threads[i]? = some thread) (hmode : thread.mode.withdrawing = some demand)
    (hcount : 0 ≤ pool.count) : 1 ≤ pool.kernel + pool.pending := by
  have hone : thread.share Phase.registered ≤ pool.registered :=
    List.le_sum_of_mem (List.mem_map_of_mem (List.mem_of_getElem? hi))
  have hwaiters := h.waiters
  rw [Thread.share, Mode.registered_of_withdrawing hmode] at hone
  omega

/-- What a waiter whose time is over can count on when it begins another pass through its loop. -/
structure OnePass (initial spins : Nat) (plan : Plan δ σ) (pool : Accounted Nat Kernel.Request δ σ)
    (i : Nat) (state : σ) (demand : Demand) : Prop where
  /-- If the count is not negative and no signal is under way to the kernel, then two steps of
  its own lead it to a token of the kernel. -/
  claims : pool.pending = 0 → 0 ≤ pool.count → ∀ c c' : Circumstance,
    ∃ next : Accounted Nat Kernel.Request δ σ,
      (Crowd.ledgered Kernel.Counter.kernel spins plan).run [(c, i), (c', i)] pool = some next ∧
      next.threads[i]? = some ⟨state, .calling (Phase.granted demand)⟩ ∧
      pool.kernel = next.kernel + 1 ∧ next.count = pool.count
  /-- If the count is negative, then two steps of its own lead it to the end of its call, with
  one added to the count. -/
  withdraws : pool.count < 0 → ∀ c c' : Circumstance,
    ∃ next : Accounted Nat Kernel.Request δ σ,
      (Crowd.ledgered Kernel.Counter.kernel spins plan).run [(c, i), (c', i)] pool = some next ∧
      next.threads[i]? = some ⟨state, .calling (.done 0)⟩ ∧
      next.kernel = pool.kernel ∧ next.count = pool.count + 1
  /-- Whatever other threads do between these two steps, the waiter goes back to begin another
  pass only if they have changed the count, or if a signal is under way to the kernel. -/
  repeats : ∀ {c c' : Circumstance} {first met next : Accounted Nat Kernel.Request δ σ},
    (Crowd.ledgered Kernel.Counter.kernel spins plan).advance c i pool = some first →
    ((Crowd.ledgered Kernel.Counter.kernel spins plan).without i).ReachesWithin
      (Contained initial) first met →
    (Crowd.ledgered Kernel.Counter.kernel spins plan).advance c' i met = some next →
    next.threads[i]? = some ⟨state, .calling (.recheck demand)⟩ →
    met.count ≠ pool.count ∨ 0 < met.pending

/-- One step of a thread of a pool. -/
theorem advance_of_step (spins : Nat) (plan : Plan δ σ) {c : Circumstance}
    {after : Thread σ Kernel.Request} {shared : Shared Nat δ} (hi : pool.threads[i]? = some thread)
    (hstep : Crowd.step Kernel.Counter.kernel spins plan c i thread pool.shared.1 =
      some (after, shared)) :
    ∃ next : Accounted Nat Kernel.Request δ σ,
      (Crowd.ledgered Kernel.Counter.kernel spins plan).advance c i pool = some next ∧
      next.threads[i]? = some after ∧ next.shared.1 = shared := by
  obtain ⟨hlt, -⟩ := List.getElem?_eq_some_iff.mp hi
  exact ⟨_, Machine.observed_advance_eq_some_iff.mpr ⟨thread, after, shared, hi, hstep, rfl⟩,
    List.getElem?_set_self hlt, rfl⟩

/-- Two steps of one thread, the second of which begins where the first ends. -/
theorem run_of_steps (spins : Nat) (plan : Plan δ σ) {c c' : Circumstance}
    {middle last : Thread σ Kernel.Request} {shared : Shared Nat δ}
    (hi : pool.threads[i]? = some thread)
    (hfirst : Crowd.step Kernel.Counter.kernel spins plan c i thread pool.shared.1 =
      some (middle, pool.shared.1))
    (hsecond : Crowd.step Kernel.Counter.kernel spins plan c' i middle pool.shared.1 =
      some (last, shared)) :
    ∃ next : Accounted Nat Kernel.Request δ σ,
      (Crowd.ledgered Kernel.Counter.kernel spins plan).run [(c, i), (c', i)] pool = some next ∧
      next.threads[i]? = some last ∧ next.shared.1 = shared := by
  obtain ⟨first, hadvance, hmiddle, hshared⟩ := advance_of_step spins plan hi hfirst
  rw [← hshared] at hsecond
  obtain ⟨next, hadvance', hlast, hleft⟩ := advance_of_step spins plan hmiddle hsecond
  exact ⟨next, by rw [Machine.run_cons hadvance, Machine.run_cons hadvance', Machine.run], hlast,
    hleft⟩

/-- The thread behind a step of a pool. -/
theorem step_of_advance {c : Circumstance} {next : Accounted Nat Kernel.Request δ σ}
    {after : Thread σ Kernel.Request} (hi : pool.threads[i]? = some thread)
    (hadvance : (Crowd.ledgered Kernel.Counter.kernel spins plan).advance c i pool = some next)
    (hafter : next.threads[i]? = some after) :
    Crowd.step Kernel.Counter.kernel spins plan c i thread pool.shared.1 =
      some (after, next.shared.1) := by
  obtain ⟨before, last, shared, hbefore, hstep, rfl⟩ :=
    Machine.observed_advance_eq_some_iff.mp hadvance
  obtain ⟨hlt, -⟩ := List.getElem?_eq_some_iff.mp hi
  obtain rfl : before = thread := Option.some.inj (hbefore.symm.trans hi)
  rw [List.getElem?_set_self hlt, Option.some.injEq] at hafter
  rw [← hafter]
  exact hstep

/-- A waiter whose time is over is done in one pass, unless it is disturbed. -/
theorem Conserved.onePass {state : σ} (h : Conserved initial pool)
    (hcontained : Contained initial pool)
    (hi : pool.threads[i]? = some ⟨state, .calling (.recheck demand)⟩) :
    pool.OnePass initial spins plan i state demand := by
  constructor
  · intro hpending hcount c c'
    have hsome := h.one_le_of_nonneg hi rfl hcount
    obtain ⟨tokens, htokens⟩ : ∃ tokens, pool.kernel = tokens + 1 :=
      Nat.exists_eq_succ_of_ne_zero (by omega)
    obtain ⟨next, hrun, hnext, hshared⟩ := run_of_steps spins plan hi
      (Crowd.step_recheck_of_nonneg hcount) (Crowd.step_claim_of_succ htokens)
    refine ⟨next, hrun, hnext, ?_, ?_⟩
    · rw [kernel, kernel, hshared]
      exact htokens
    · rw [count, count, hshared]
  · intro hcount c c'
    obtain ⟨raised, hraised, hdone⟩ := Crowd.step_withdraw_of_neg hcount
    obtain ⟨next, hrun, hnext, hshared⟩ := run_of_steps spins plan hi
      (Crowd.step_recheck_of_neg hcount) hdone
    refine ⟨next, hrun, hnext, ?_, ?_⟩
    · rw [kernel, kernel, hshared]
    · rw [count, count, hshared]
      exact hraised
  · intro c c' first met next hfirst hothers hsecond hback
    obtain ⟨hreach, hthread⟩ := hothers.of_without
    have hmet := h.of_reaches (hreach.head c i hcontained hfirst)
    by_cases hcount : 0 ≤ pool.count
    · obtain ⟨_, hadvance, hclaim, -⟩ := advance_of_step spins plan hi
        (Crowd.step_recheck_of_nonneg hcount)
      obtain rfl := Option.some.inj (hadvance.symm.trans hfirst)
      rw [hclaim] at hthread
      have hempty := (Crowd.cause_of_step (step_of_advance hthread hsecond hback) trivial rfl).1 rfl
      by_cases hsame : met.count = pool.count
      · -- The count still promises a token to the waiter, which the kernel does not have yet.
        have hsome := hmet.one_le_of_nonneg hthread rfl (by omega)
        refine .inr ?_
        rw [kernel, hempty] at hsome
        omega
      · exact .inl hsame
    · have hneg : pool.shared.1.count.toInt < 0 := Int.not_le.mp hcount
      obtain ⟨_, hadvance, hwithdraw, -⟩ := advance_of_step spins plan hi
        (Crowd.step_recheck_of_neg hneg)
      obtain rfl := Option.some.inj (hadvance.symm.trans hfirst)
      rw [hwithdraw] at hthread
      have hother := (Crowd.cause_of_step (step_of_advance hthread hsecond hback) hneg rfl).2 _ rfl
      exact .inl (mt Int64.toInt_inj.mp hother)

/-- The loop of a waiter whose time is over does not run for its own sake, in every run of every
crowd in which the count can hold the tokens that are outstanding and the threads that wait. If
the count is not negative, a token is in the kernel or on its way there. From the head of the loop
one undisturbed pass ends it: the waiter takes a token from the kernel, or withdraws. It begins
another pass only after a change of the count by another thread, or before a signal under way has
reached the kernel. -/
theorem withdrawal_settles {data : δ} {states : List σ} {crowd : Crowd Nat Kernel.Request δ σ}
    (hcrowd : Crowd.assemble Kernel.Counter.kernel initial data states = .ok crowd)
    (hrun : (Crowd.ledgered Kernel.Counter.kernel spins plan).ReachesWithin (Contained initial)
      (crowd.noted Ledger.empty) pool)
    (hi : pool.threads[i]? = some thread) (hmode : thread.mode.withdrawing = some demand) :
    (0 ≤ pool.count → 1 ≤ pool.kernel + pool.pending) ∧
      (thread.mode = .calling (.recheck demand) →
        pool.OnePass initial spins plan i thread.state demand) := by
  have hconserved := (Conserved.start hcrowd).of_reaches hrun
  refine ⟨hconserved.one_le_of_nonneg hi hmode, fun hhead => ?_⟩
  obtain ⟨state, mode⟩ := thread
  obtain rfl : mode = .calling (.recheck demand) := hhead
  exact hconserved.onePass hrun.meets hi

/-- A waiter has run out of time, and before it looks at the count again a signal of three tokens
has handed one of them to the kernel. -/
def overdue : Accounted Nat Kernel.Request Unit Script :=
  ⟨(⟨2, 1, ()⟩, ⟨3, 0⟩),
    [⟨.ofCalls [.acquire .one (.within (.ofNanos 0))], .calling (.recheck .one)⟩,
      ⟨.ofCalls [.signal 3], .calling (.done 0)⟩]⟩

theorem withdrawal_settles_overdue :
    ∃ (crowd : Crowd Nat Kernel.Request Unit Script) (thread : Thread Script Kernel.Request),
      Crowd.assemble Kernel.Counter.kernel 0 () (overdue.threads.map Thread.state) = .ok crowd ∧
      (Crowd.ledgered Kernel.Counter.kernel 0 (Script.plan Unit)).ReachesWithin (Contained 0)
        (crowd.noted Ledger.empty) overdue ∧
      overdue.threads[0]? = some thread ∧ thread.mode.withdrawing = some .one ∧
      thread.mode = .calling (.recheck .one) ∧
      (0 ≤ overdue.count → 1 ≤ overdue.kernel + overdue.pending) ∧
      overdue.OnePass 0 0 (Script.plan Unit) 0 thread.state .one ∧
      overdue.pending = 0 ∧ 0 ≤ overdue.count := by
  have hcrowd : Crowd.assemble Kernel.Counter.kernel 0 ()
      (overdue.threads.map Thread.state) = .ok (Crowd.around Kernel.Request ⟨0, 0, 0, []⟩ ()
        (overdue.threads.map Thread.state)) := rfl
  have hrun : (Crowd.ledgered Kernel.Counter.kernel 0 (Script.plan Unit)).ReachesWithin
      (Contained 0) (Pool.noted (Crowd.around Kernel.Request ⟨0, 0, 0, []⟩ ()
        (overdue.threads.map Thread.state)) Ledger.empty) overdue :=
    Machine.runWithin_reaches
      [(.usual, 0), (.usual, 0), (.usual, 0), (.expired, 0), (.usual, 1), (.usual, 1),
        (.usual, 1)] rfl
  obtain ⟨htoken, hpass⟩ := withdrawal_settles hcrowd hrun (i := 0) rfl rfl
  exact ⟨_, _, hcrowd, hrun, rfl, rfl, rfl, htoken, hpass rfl, rfl, by decide⟩

end Accounted

end WordSync.Semaphore
