import WordSync.Proofs.Semaphore.Conservation

/-!
# Waiters and wake-ups

Every registered thread waits for a token of its own: one that the count owes it, one that is in
the kernel, or one that a signal is about to put there. It registers where it finds no token, and
stays registered until it takes one from the kernel or withdraws. A signal hands the kernel as
many tokens as there are waiters without one, as far as its own tokens go. So a thread sleeps for
good only where no token is left that it could have.
-/

namespace WordSync.Semaphore

/-- A thread that sleeps in the kernel until it is given a token. -/
def Mode.asleep {π : Type} : Mode π → Bool
  | .calling (.park _ .forever) => true
  | _ => false

/-- A thread that is not in a call, or whose call is over. -/
def Mode.atRest {π : Type} : Mode π → Bool
  | .idle => true
  | .calling (.done _) => true
  | .calling (.failed _) => true
  | .broken _ => true
  | _ => false

namespace Accounted

variable {κ π δ σ : Type}

/-- The waiters for whom there is no token yet, neither in the kernel nor on the way there. -/
def unserved (pool : Accounted Nat π δ σ) : Nat := pool.registered - (pool.kernel + pool.pending)

/-- The number of threads that sleep in the kernel until they are given a token. -/
def sleepers (pool : Accounted κ π δ σ) : Nat :=
  pool.threads.countP fun thread => thread.mode.asleep

/-- Nothing can happen any more without a new call: the kernel has no token, and every call that
is not over sleeps there. -/
structure Stuck (pool : Accounted Nat π δ σ) : Prop where
  /-- There is no token in the kernel. -/
  empty : pool.kernel = 0
  /-- Every thread is at rest or asleep. -/
  asleep : ∀ thread ∈ pool.threads, thread.mode.atRest = true ∨ thread.mode.asleep = true

/-- How the waiters of a pool come and go by one step. -/
inductive Turnover (pool next : Accounted Nat π δ σ) : Prop where
  /-- There are as many waiters as before. -/
  | still (hwaiters : next.registered = pool.registered)
  /-- A thread subtracts one from a count without tokens, and becomes a waiter. -/
  | enlist (hwaiters : next.registered = pool.registered + 1) (hcount : pool.count ≤ 0)
      (hless : next.count = pool.count - 1) (hkernel : next.kernel = pool.kernel)
  /-- A waiter takes a token from the kernel. -/
  | receive (hwaiters : pool.registered = next.registered + 1) (hcount : next.count = pool.count)
      (hkernel : pool.kernel = next.kernel + 1)
  /-- A waiter adds one to a negative count, and withdraws. -/
  | withdraw (hwaiters : pool.registered = next.registered + 1) (hcount : pool.count < 0)
      (hmore : next.count = pool.count + 1) (hkernel : next.kernel = pool.kernel)

/-- What the signals of a pool do for its waiters. -/
structure SignalsServe (spins : Nat) (plan : Plan δ σ)
    (pool : Accounted Nat Kernel.Request δ σ) : Prop where
  /-- A signal that raises the count goes on to hand the kernel one token for every waiter
  without one, as far as its own tokens go. -/
  raise : ∀ {i amount : Nat} {thread : Thread σ Kernel.Request},
    pool.threads[i]? = some thread → thread.mode = .calling (.raise amount) →
      ∀ c : Circumstance, ∃ next : Accounted Nat Kernel.Request δ σ,
        (Crowd.ledgered Kernel.Counter.kernel spins plan).advance c i pool = some next ∧
          next.threads[i]? =
            some ⟨thread.state, .calling (Phase.posting (min amount pool.unserved))⟩
  /-- A signal that hands tokens to the kernel hands over all of them in one step. -/
  post : ∀ {i tokens : Nat} {thread : Thread σ Kernel.Request},
    pool.threads[i]? = some thread → thread.mode = .calling (.post tokens) →
      ∀ c : Circumstance, ∃ next : Accounted Nat Kernel.Request δ σ,
        (Crowd.ledgered Kernel.Counter.kernel spins plan).advance c i pool = some next ∧
          next.kernel = pool.kernel + tokens

/-- A thread at rest is no waiter and a sleeping one is; neither has anything to post. -/
theorem share_of_asleep {mode : Mode π} (h : mode.atRest = true ∨ mode.asleep = true) :
    mode.share Phase.registered = (if mode.asleep then 1 else 0) ∧
      mode.share Phase.pending = 0 := by
  cases mode with
  | idle => exact ⟨rfl, rfl⟩
  | broken fault => exact ⟨rfl, rfl⟩
  | requesting phase stage => simp only [Mode.atRest, Mode.asleep, Bool.false_eq_true, or_self] at h
  | calling phase =>
    cases phase with
    | done tokens => exact ⟨rfl, rfl⟩
    | failed fault => exact ⟨rfl, rfl⟩
    | park demand patience =>
      cases patience with
      | forever => exact ⟨rfl, rfl⟩
      | within timeout => simp only [Mode.atRest, Mode.asleep, Bool.false_eq_true, or_self] at h
    | _ => simp only [Mode.atRest, Mode.asleep, Bool.false_eq_true, or_self] at h

/-- Where every thread is at rest or asleep, the sleepers are the only waiters and no signal is
under way. -/
theorem total_of_asleep {threads : List (Thread σ π)}
    (h : ∀ thread ∈ threads, thread.mode.atRest = true ∨ thread.mode.asleep = true) :
    Crowd.total (Thread.share Phase.registered) threads =
        (threads.countP fun thread => thread.mode.asleep) ∧
      Crowd.total (Thread.share Phase.pending) threads = 0 := by
  induction threads with
  | nil => exact ⟨rfl, rfl⟩
  | cons thread threads ih =>
    obtain ⟨hregistered, hpending⟩ := share_of_asleep (h thread (List.mem_cons_self ..))
    obtain ⟨ihregistered, ihpending⟩ := ih fun t ht => h t (List.mem_cons_of_mem _ ht)
    simp only [Crowd.total] at ihregistered ihpending
    simp only [Crowd.total, List.map_cons, List.sum_cons, List.countP_cons, Thread.share,
      hregistered, hpending, ihregistered, ihpending]
    exact ⟨Nat.add_comm _ _, trivial⟩

namespace Balanced

variable {initial spins : Nat} {plan : Plan δ σ} {pool : Accounted Nat Kernel.Request δ σ}

/-- A thread becomes a waiter only by subtracting one from a count without tokens. It stops being
one only by taking a token from the kernel, or by adding one to a negative count. -/
theorem turnover {c : Circumstance} {i : Nat} {next : Accounted Nat Kernel.Request δ σ}
    (h : Balanced initial pool)
    (hstep : (Crowd.ledgered Kernel.Counter.kernel spins plan).advance c i pool = some next)
    (hbounded : Bounded initial next) : pool.Turnover next := by
  obtain ⟨before, after, shared, hi, hcase, hnext⟩ := h.exists_step hstep hbounded
  have htotal : next.registered + before.mode.share Phase.registered =
      pool.registered + after.mode.share Phase.registered := by
    rw [hnext]
    exact Crowd.total_set (Thread.share Phase.registered) hi after
  subst hnext
  rcases hcase.effect with ⟨tokens, hbefore, hafter, _⟩ | heffect
  · simp only [hbefore, hafter, Mode.share, Phase.registered] at htotal
    exact .still htotal
  · have hcases := heffect.registered_cases
    simp only [Mode.stock] at hcases
    rcases hcases with hsame | ⟨hbefore, hafter, hcount, hless, hkernel⟩ |
      ⟨hbefore, hafter, hcount, hkernel⟩ | ⟨hbefore, hafter, hcount, hmore, hkernel⟩
    · exact .still (by omega)
    · exact .enlist (by omega) hcount hless hkernel
    · exact .receive (by omega) hcount hkernel
    · exact .withdraw (by omega) hcount hmore hkernel

/-- The waiters without a token are those that the count owes one. -/
theorem unserved_eq (h : Balanced initial pool) : pool.unserved = (-pool.count).toNat := by
  have hwaiters := h.waiters
  simp only [unserved]
  omega

/-- Signals serve the waiters of a balanced pool. -/
theorem signalsServe (h : Balanced initial pool) (plan : Plan δ σ) :
    pool.SignalsServe spins plan := by
  constructor
  · intro i amount thread hi hraise c
    have hlow := h.neg_limit_le_count
    have hserved :
        min (min amount Count.limit) (-pool.count).toNat = min amount pool.unserved := by
      rw [h.unserved_eq]
      omega
    obtain ⟨turn, hmove, hturn⟩ := Phase.raise_move spins amount hlow
    rw [← count, hserved] at hturn
    have hstep := Crowd.step_access Kernel.Counter.kernel plan hraise hmove c i pool.shared.1
    refine ⟨_, Machine.observed_advance_eq_some_iff.mpr ⟨thread, _, _, hi, hstep, rfl⟩, ?_⟩
    obtain ⟨hlt, _⟩ := List.getElem?_eq_some_iff.mp hi
    simp only [List.getElem?_set_self hlt, Cell.Access.perform, hturn]
  · intro i tokens thread hi hpost c
    have hstep : (Crowd.machine Kernel.Counter.kernel spins plan).step c i thread pool.shared.1 =
        some (⟨thread.state, .calling (.done 0)⟩,
          { pool.shared.1 with kernel := pool.shared.1.kernel + tokens }) := by
      simp only [Crowd.machine, Crowd.step, hpost, Phase.move, Crowd.stepRequest]
      rfl
    exact ⟨_, Machine.observed_advance_eq_some_iff.mpr ⟨thread, _, _, hi, hstep, rfl⟩, rfl⟩

/-- Where only sleepers are left, the count says how many they are. -/
theorem sleepers_eq (h : Balanced initial pool) (hstuck : pool.Stuck) :
    (pool.sleepers : Int) = max 0 (-pool.count) := by
  obtain ⟨hregistered, hpending⟩ := total_of_asleep hstuck.asleep
  have hempty := hstuck.empty
  have hwaiters := h.waiters
  simp only [registered, pending, hregistered, hpending] at hwaiters
  simp only [sleepers]
  omega

/-- Where only sleepers are left, they sleep because every token has been taken. -/
theorem tokens_taken (h : Balanced initial pool) (hstuck : pool.Stuck) (hsome : 0 < pool.sleepers) :
    pool.count < 0 ∧ initial + pool.ledger.signalled = pool.ledger.acquired := by
  have hsleepers := h.sleepers_eq hstuck
  have hempty := hstuck.empty
  have htokens := h.tokens
  obtain ⟨_, hpending⟩ := total_of_asleep hstuck.asleep
  simp only [pending, hpending] at htokens
  omega

end Balanced

variable {initial spins : Nat} {plan : Plan δ σ}

/-- Waiters are accounted for in every run of every crowd, and no wake-up is lost. There is one
waiter for each token that the count owes, that is in the kernel or that is on the way there; a
waiter comes only to a count without tokens, and goes only with a token or by withdrawing; signals
serve as many waiters as they have tokens for; and where only sleepers are left, they are
as many as the count says, and there is no token that they could have. -/
theorem waiters_accounted {data : δ} {states : List σ} {crowd : Crowd Nat Kernel.Request δ σ}
    {pool : Accounted Nat Kernel.Request δ σ}
    (hcrowd : Crowd.assemble Kernel.Counter.kernel initial data states = .ok crowd)
    (hfew : states.length ≤ Count.limit)
    (hrun : (Crowd.ledgered Kernel.Counter.kernel spins plan).ReachesWithin (Bounded initial)
      (crowd.noted Ledger.empty) pool) :
    (pool.registered : Int) = max 0 (-pool.count) + pool.kernel + pool.pending ∧
      (∀ (c : Circumstance) (i : Nat) (next : Accounted Nat Kernel.Request δ σ),
        (Crowd.ledgered Kernel.Counter.kernel spins plan).advance c i pool = some next →
          Bounded initial next → pool.Turnover next) ∧
      pool.SignalsServe spins plan ∧
      pool.kernel ≤ pool.registered ∧
      (pool.Stuck → (pool.sleepers : Int) = max 0 (-pool.count) ∧
        (0 < pool.sleepers →
          pool.count < 0 ∧ initial + pool.ledger.signalled = pool.ledger.acquired)) := by
  have hbalanced := Balanced.of_reaches hcrowd hfew hrun
  have hwaiters := hbalanced.waiters
  exact ⟨hwaiters, fun _ _ _ => hbalanced.turnover, hbalanced.signalsServe plan, by omega,
    fun hstuck => ⟨hbalanced.sleepers_eq hstuck, hbalanced.tokens_taken hstuck⟩⟩

/-- Two threads have gone to sleep, and a signal of one token has woken the second of them. -/
def forsaken : Accounted Nat Kernel.Request Unit Script :=
  ⟨(⟨-1, 0, ()⟩, ⟨1, 1⟩),
    [⟨.ofCalls [.acquire .one .forever], .calling (.park .one .forever)⟩,
      ⟨.ofCalls [.acquire .one .forever], .calling (.done 1)⟩,
      ⟨.ofCalls [.signal 1], .calling (.done 0)⟩]⟩

theorem waiters_accounted_forsaken :
    ∃ crowd : Crowd Nat Kernel.Request Unit Script,
      Crowd.assemble Kernel.Counter.kernel 0 () (forsaken.threads.map Thread.state) = .ok crowd ∧
      3 ≤ Count.limit ∧
      (Crowd.ledgered Kernel.Counter.kernel 0 (Script.plan Unit)).ReachesWithin (Bounded 0)
        (crowd.noted Ledger.empty) forsaken ∧
      (forsaken.registered : Int) =
        max 0 (-forsaken.count) + forsaken.kernel + forsaken.pending ∧
      (∀ (c : Circumstance) (i : Nat) (next : Accounted Nat Kernel.Request Unit Script),
        (Crowd.ledgered Kernel.Counter.kernel 0 (Script.plan Unit)).advance c i forsaken =
          some next → Bounded 0 next → forsaken.Turnover next) ∧
      forsaken.SignalsServe 0 (Script.plan Unit) ∧
      forsaken.kernel ≤ forsaken.registered ∧
      (forsaken.Stuck → (forsaken.sleepers : Int) = max 0 (-forsaken.count) ∧
        (0 < forsaken.sleepers → forsaken.count < 0 ∧
          0 + forsaken.ledger.signalled = forsaken.ledger.acquired)) ∧
      forsaken.Stuck ∧ forsaken.sleepers = 1 := by
  have hcrowd : Crowd.assemble Kernel.Counter.kernel 0 ()
      (forsaken.threads.map Thread.state) = .ok (Crowd.around Kernel.Request ⟨0, 0, 0, []⟩ ()
        (forsaken.threads.map Thread.state)) := rfl
  have hrun : (Crowd.ledgered Kernel.Counter.kernel 0 (Script.plan Unit)).ReachesWithin (Bounded 0)
      (Pool.noted (Crowd.around Kernel.Request ⟨0, 0, 0, []⟩ ()
        (forsaken.threads.map Thread.state)) Ledger.empty) forsaken :=
    Machine.runWithin_reaches
      [(.usual, 0), (.usual, 0), (.usual, 0), (.usual, 1), (.usual, 1), (.usual, 1), (.usual, 2),
        (.usual, 2), (.usual, 2), (.usual, 1)] rfl
  obtain ⟨hwaiters, hturnover, hserve, hkernel, hstuck⟩ :=
    waiters_accounted hcrowd (by decide) hrun
  exact ⟨_, hcrowd, by decide, hrun, hwaiters, hturnover, hserve, hkernel, hstuck,
    ⟨rfl, by decide⟩, rfl⟩

end Accounted

end WordSync.Semaphore
