import Mathlib.Algebra.BigOperators.Group.List.Basic
import Mathlib.Algebra.GroupWithZero.Nat
import WordSync.Proofs.Observation
import WordSync.Proofs.Semaphore.Course
import WordSync.Proofs.Semaphore.Moves

/-!
# The ledger of a crowd

A ledger is kept of the tokens that signals add to the count and of those that calls take, over
the whole of a run. `Conserved` ties it to the count, to the kernel and to where the threads
stand. It holds of a new crowd and is kept by every step of every thread, as long as the count
does not wrap. Above, it cannot wrap while no more tokens are outstanding than it can hold; below,
it cannot wrap if there are few threads, which makes a conserved pool a `Balanced` one.
-/

namespace WordSync.Semaphore

variable {κ π δ σ : Type}

/-- A number that only calls have, for the thread of the call. A thread without a call has
none. -/
def Mode.share (number : Phase → Nat) : Mode π → Nat
  | .idle => 0
  | .calling phase => number phase
  | .requesting phase _ => number phase
  | .broken _ => 0

/-- A number that only calls have, for a thread. -/
def Thread.share (number : Phase → Nat) (thread : Thread σ π) : Nat := thread.mode.share number

/-- What a thread knows about the count is right. No thread is in the middle of a request, as
requests to the plain counter are over at once. -/
def Mode.Sound : Mode π → Prop
  | .calling phase => phase.Sound
  | .requesting _ _ => False
  | _ => True

/-- A thread that knows nothing false is not in the middle of a request. -/
theorem Mode.Sound.whole {mode : Mode π} (h : mode.Sound) (phase : Phase) (stage : π) :
    mode ≠ .requesting phase stage := by
  rintro rfl
  exact h

/-- The stock of a semaphore and the call of a thread. -/
def Mode.stock (mode : Mode π) (shared : Shared Nat δ) : Stock :=
  ⟨shared.count.toInt, shared.kernel, mode.share Phase.held, mode.share Phase.registered,
    mode.share Phase.pending⟩

/-- The tokens that have come and gone in a run. -/
structure Ledger where
  /-- The tokens that signals have added to the count. -/
  signalled : Nat
  /-- The tokens that calls have taken. -/
  acquired : Nat
  deriving DecidableEq

namespace Ledger

/-- The ledger of a run that has not begun. -/
def empty : Ledger := ⟨0, 0⟩

/-- The ledger after a step of a thread. A signal adds its tokens in the step that raises the
count; a call has taken by a step what it holds more than before. -/
def note : Observer (Shared κ δ) (Thread σ π) Ledger := fun _ before after ledger =>
  ⟨ledger.signalled + before.1.mode.share Phase.raising,
    ledger.acquired + (after.1.mode.share Phase.held - before.1.mode.share Phase.held)⟩

end Ledger

/-- A crowd with its ledger. -/
abbrev Accounted (κ π δ σ : Type) := Pool (Shared κ δ × Ledger) (Thread σ π)

namespace Crowd

/-- The machine of a crowd that keeps a ledger. -/
def ledgered (kernel : Kernel κ π) (spins : Nat) (plan : Plan δ σ) :
    Machine Circumstance (Shared κ δ × Ledger) (Thread σ π) :=
  (machine kernel spins plan).observed Ledger.note

/-- The sum of a number over all threads. -/
def total (number : Thread σ π → Nat) (threads : List (Thread σ π)) : Nat :=
  (threads.map number).sum

/-- Threads of which none has anything have nothing in sum. -/
theorem total_eq_zero {number : Thread σ π → Nat} {threads : List (Thread σ π)}
    (h : ∀ thread ∈ threads, number thread = 0) : total number threads = 0 :=
  List.sum_eq_zero (List.forall_mem_map.mpr h)

/-- Threads without calls have nothing in sum that only calls have. -/
theorem total_idle (number : Phase → Nat) (states : List σ) :
    total (Thread.share number) (states.map fun state => (⟨state, .idle⟩ : Thread σ π)) = 0 :=
  total_eq_zero (List.forall_mem_map.mpr fun _ _ => rfl)

/-- When one thread is replaced, the sum changes by what that thread has. -/
theorem total_set (number : Thread σ π → Nat) {threads : List (Thread σ π)} {i : Nat}
    {before : Thread σ π} (hi : threads[i]? = some before) (after : Thread σ π) :
    total number (threads.set i after) + number before = total number threads + number after := by
  induction threads generalizing i with
  | nil => cases hi
  | cons thread threads ih =>
    cases i with
    | zero =>
      cases hi
      simp only [total, List.set_cons_zero, List.map_cons, List.sum_cons]
      omega
    | succ i =>
      have := ih hi
      simp only [total, List.set_cons_succ, List.map_cons, List.sum_cons] at this ⊢
      omega

/-- Where only threads of a kind have anything, and no more than one each, all threads together
have no more than there are threads of that kind. -/
theorem total_le_countP {number : Thread σ π → Nat} {kind : Thread σ π → Bool}
    {threads : List (Thread σ π)} (h : ∀ thread ∈ threads, number thread ≤ (kind thread).toNat) :
    total number threads ≤ threads.countP kind := by
  induction threads with
  | nil => exact Nat.le_refl 0
  | cons thread threads ih =>
    have hone := h thread (List.mem_cons_self ..)
    have hrest := ih fun t ht => h t (List.mem_cons_of_mem _ ht)
    simp only [total, List.map_cons, List.sum_cons, List.countP_cons] at hrest ⊢
    cases hkind : kind thread with
    | true =>
      simp only [hkind, Bool.toNat_true] at hone
      simp only [if_true]
      omega
    | false =>
      simp only [hkind, Bool.toNat_false] at hone
      simp only [Bool.false_eq_true, if_false]
      omega

/-- No more threads are registered than there are. -/
theorem total_registered_le (threads : List (Thread σ π)) :
    total (Thread.share Phase.registered) threads ≤ threads.length := by
  rw [← List.countP_true]
  refine total_le_countP fun thread _ => ?_
  cases hmode : thread.mode with
  | idle | broken => simp only [Thread.share, hmode, Mode.share, Nat.zero_le]
  | calling phase | requesting phase =>
    simp only [Thread.share, hmode, Mode.share]
    exact phase.registered_le_one

/-- What one step of a thread can do over the plain counter. -/
inductive Step (plan : Plan δ σ) (before : Thread σ Kernel.Request) (shared : Shared Nat δ) :
    Thread σ Kernel.Request → Shared Nat δ → Prop where
  /-- Begin a call. -/
  | start (call : Call) (resume : Nat → σ) (hmode : before.mode = .idle)
      (hplan : plan before.state = .call call resume) :
      Step plan before shared ⟨before.state, .calling (.ofCall call)⟩ shared
  /-- Look at the shared data and change it. -/
  | touch (change : δ → δ × σ) (hmode : before.mode = .idle)
      (hplan : plan before.state = .touch change) :
      Step plan before shared ⟨(change shared.data).2, .idle⟩
        { shared with data := (change shared.data).1 }
  /-- Make a move of a call. -/
  | move (phase next : Phase) (count : Int64) (kernel : Nat)
      (hmode : before.mode = .calling phase)
      (hleads : phase.Leads shared.count shared.kernel phase.raising next count kernel) :
      Step plan before shared ⟨before.state, .calling next⟩ ⟨count, kernel, shared.data⟩
  /-- End a call and go on from what it took. -/
  | finish (tokens : Nat) (call : Call) (resume : Nat → σ)
      (hmode : before.mode = .calling (.done tokens))
      (hplan : plan before.state = .call call resume) :
      Step plan before shared ⟨resume tokens, .idle⟩ shared
  /-- Break off. -/
  | fail (fault : Fault) (hmode : before.mode = .calling (.failed fault)) :
      Step plan before shared ⟨before.state, .broken fault⟩ shared

/-- Every step is one of those, if what the thread knows is right and the count is not about to
wrap. -/
theorem step_cases {spins : Nat} {plan : Plan δ σ} {c : Circumstance} {i : Nat}
    {before after : Thread σ Kernel.Request} {shared shared' : Shared Nat δ}
    (hstep : step Kernel.Counter.kernel spins plan c i before shared = some (after, shared'))
    (hsound : before.mode.Sound) (hlow : -(Count.limit : Int) ≤ shared.count.toInt)
    (hhigh : shared.count.toInt + before.mode.share Phase.raising ≤ Count.limit) :
    Step plan before shared after shared' := by
  cases course_of_step hstep hsound.whole with
  | start call resume hmode hplan => exact .start call resume hmode hplan
  | touch change hmode hplan => exact .touch change hmode hplan
  | access phase access next hmode hmove =>
    rw [hmode] at hsound hhigh
    exact .move phase _ _ _ hmode (Phase.access_leads hmove hsound _ hlow hhigh)
  | request phase request next granted tokens hmode hmove hserve =>
    exact .move phase _ _ _ hmode (Phase.request_leads hmove hserve shared.count)
  | finish phase tokens call resume hmode hmove hplan =>
    rw [hmode] at hsound
    rcases Phase.finish_cases hmove hsound with ⟨_, rfl, htokens⟩ | ⟨fault, rfl, hfault⟩
    · cases htokens
      exact .finish tokens call resume hmode hplan
    · cases hfault
  | fail phase fault hmode hmove =>
    rw [hmode] at hsound
    rcases Phase.finish_cases hmove hsound with ⟨tokens, rfl, htokens⟩ | ⟨_, rfl, hfault⟩
    · cases htokens
    · cases hfault
      exact .fail fault hmode

namespace Step

variable {plan : Plan δ σ} {before after : Thread σ Kernel.Request} {shared shared' : Shared Nat δ}

/-- What a thread knows after a step is right. -/
theorem sound (h : Step plan before shared after shared') : after.mode.Sound := by
  cases h with
  | start call => exact (Phase.holds_ofCall call).sound
  | touch => trivial
  | move phase next count kernel hmode hleads => exact hleads.1
  | finish => trivial
  | fail => trivial

/-- What a step does to the stock, apart from the tokens that a call hands out at its end. -/
theorem effect (h : Step plan before shared after shared') :
    (∃ tokens, before.mode = .calling (.done tokens) ∧ after.mode = .idle ∧ shared' = shared) ∨
      Effect (before.mode.stock shared) (before.mode.share Phase.raising)
        (after.mode.stock shared') := by
  cases h with
  | start call resume hmode =>
    have hafter := Phase.holds_ofCall call
    refine .inr (.still ?_ ?_)
    · simp only [hmode, Mode.share]
    · simp only [Mode.stock, hmode, Mode.share, hafter.held_eq, hafter.registered_eq,
        hafter.pending_eq]
  | touch change hmode =>
    refine .inr (.still ?_ ?_)
    · simp only [hmode, Mode.share]
    · simp only [Mode.stock, hmode, Mode.share]
  | move phase next count kernel hmode hleads =>
    simp only [hmode, Mode.share]
    exact .inr hleads.2
  | finish tokens call resume hmode => exact .inl ⟨tokens, hmode, rfl, rfl⟩
  | fail fault hmode =>
    refine .inr (.still ?_ ?_)
    · simp only [hmode, Mode.share, Phase.raising]
    · simp only [Mode.stock, hmode, Mode.share, Phase.held, Phase.registered, Phase.pending]

/-- Waiters come and go with the tokens that they wait for. -/
theorem waiters (h : Step plan before shared after shared') :
    (after.mode.share Phase.registered : Int) -
        (max 0 (-shared'.count.toInt) + shared'.kernel + after.mode.share Phase.pending) =
      before.mode.share Phase.registered -
        (max 0 (-shared.count.toInt) + shared.kernel + before.mode.share Phase.pending) := by
  rcases h.effect with ⟨tokens, hbefore, hafter, rfl⟩ | heffect
  · simp only [hbefore, hafter, Mode.share, Phase.registered, Phase.pending]
  · exact heffect.waiters

/-- Tokens come from signals and go to calls; otherwise they only change their place. -/
theorem tokens (h : Step plan before shared after shared') :
    (before.mode.share Phase.raising : Int) +
        (max 0 shared.count.toInt + shared.kernel + before.mode.share Phase.pending) =
      (after.mode.share Phase.held - before.mode.share Phase.held : Nat) +
        (max 0 shared'.count.toInt + shared'.kernel + after.mode.share Phase.pending) := by
  rcases h.effect with ⟨tokens, hbefore, hafter, rfl⟩ | heffect
  · simp only [hbefore, hafter, Mode.share, Phase.raising, Phase.pending]
    omega
  · have htokens := heffect.tokens
    have hheld := heffect.held_le
    simp only [Mode.stock] at htokens hheld
    omega

/-- Over all threads together, waiters come and go with the tokens that they wait for. -/
theorem waiters_set (h : Step plan before shared after shared') {i : Nat}
    {threads : List (Thread σ Kernel.Request)} (hi : threads[i]? = some before)
    (hwaiters : (total (Thread.share Phase.registered) threads : Int) =
      max 0 (-shared.count.toInt) + shared.kernel + total (Thread.share Phase.pending) threads) :
    (total (Thread.share Phase.registered) (threads.set i after) : Int) =
      max 0 (-shared'.count.toInt) + shared'.kernel +
        total (Thread.share Phase.pending) (threads.set i after) := by
  have hbalance := h.waiters
  have hregistered := total_set (Thread.share Phase.registered) hi after
  have hpending := total_set (Thread.share Phase.pending) hi after
  simp only [Thread.share] at hregistered hpending hwaiters ⊢
  omega

end Step

/-- A new crowd stands around a semaphore whose tokens are all in the count. -/
theorem assemble_eq_ok {initial : Nat} {data : δ} {states : List σ}
    {crowd : Crowd Nat Kernel.Request δ σ}
    (h : assemble Kernel.Counter.kernel initial data states = .ok crowd) :
    (Int64.ofNat initial).toInt = initial ∧
      crowd = around Kernel.Request ⟨.ofNat initial, 0, 0, []⟩ data states := by
  by_cases hlimit : Count.limit < initial
  · simp only [assemble, Semaphore.create, if_pos hlimit, Bind.bind, Except.bind,
      reduceCtorEq] at h
  · simp only [assemble, Semaphore.create, if_neg hlimit, Kernel.Counter.kernel, Bind.bind,
      Except.bind, Pure.pure, Except.pure, Except.ok.injEq] at h
    exact ⟨Int64.toInt_ofNat_of_lt (by simp only [Count.limit] at hlimit; omega), h.symm⟩

/-- The step in which a signal raises the count. -/
theorem step_raise {kernel : Kernel κ π} {spins : Nat} {plan : Plan δ σ} {c : Circumstance}
    {i amount : Nat} {before after : Thread σ π} {shared shared' : Shared κ δ}
    (hstep : step kernel spins plan c i before shared = some (after, shared'))
    (hraise : before.mode = .calling (.raise amount))
    (hlow : -(Count.limit : Int) ≤ shared.count.toInt) :
    after.mode =
      .calling (Phase.posting (min (min amount Count.limit) (-shared.count.toInt).toNat)) := by
  obtain ⟨next, hmove, hnext⟩ := Phase.raise_move spins amount hlow
  rw [step_access kernel plan hraise hmove, Option.some.injEq, Prod.mk.injEq] at hstep
  obtain ⟨rfl, -⟩ := hstep
  exact congrArg Mode.calling hnext

/-- Neither before nor after the step in which it raises the count has a signal taken tokens. -/
theorem held_of_raising {spins : Nat} {plan : Plan δ σ} {c : Circumstance} {i : Nat}
    {before after : Thread σ Kernel.Request} {shared shared' : Shared Nat δ}
    (hstep : step Kernel.Counter.kernel spins plan c i before shared = some (after, shared'))
    (hsound : before.mode.Sound) (hraising : before.mode.share Phase.raising ≠ 0)
    (hlow : -(Count.limit : Int) ≤ shared.count.toInt) :
    before.mode.share Phase.held = 0 ∧ after.mode.share Phase.held = 0 := by
  obtain ⟨state, mode⟩ := before
  cases mode with
  | calling phase =>
    cases phase with
    | raise amount =>
      rw [step_raise hstep rfl hlow]
      exact ⟨rfl, congrArg Stock.held (Phase.stock_posting _ shared.count 0)⟩
    | _ => exact absurd rfl hraising
  | requesting phase stage => exact absurd hsound id
  | idle => exact absurd rfl hraising
  | broken fault => exact absurd rfl hraising

end Crowd

namespace Accounted

/-- The count of the semaphore, as an integer. -/
def count (pool : Accounted κ π δ σ) : Int := pool.shared.1.count.toInt

/-- The ledger. -/
def ledger (pool : Accounted κ π δ σ) : Ledger := pool.shared.2

/-- The tokens in the plain counter. -/
def kernel (pool : Accounted Nat π δ σ) : Nat := pool.shared.1.kernel

/-- The number of threads that are registered as waiters. -/
def registered (pool : Accounted κ π δ σ) : Nat :=
  Crowd.total (Thread.share Phase.registered) pool.threads

/-- The tokens that signals have added to the count for waiters and not yet handed to the
kernel. -/
def pending (pool : Accounted κ π δ σ) : Nat :=
  Crowd.total (Thread.share Phase.pending) pool.threads

/-- The tokens that the semaphore began with or that were signalled, less those taken, are no
more than the count can hold. -/
def Bounded (initial : Nat) (pool : Accounted κ π δ σ) : Prop :=
  initial + pool.ledger.signalled ≤ pool.ledger.acquired + Count.limit

instance (initial : Nat) : DecidablePred (Bounded (κ := κ) (π := π) (δ := δ) (σ := σ) initial) :=
  fun _ => inferInstanceAs (Decidable (_ ≤ _))

/-- The count has room for what a signal brings, unless that makes too many tokens outstanding.
Here `rest` is the number of tokens on the way to the kernel. -/
theorem count_add_raising_le_of_bounded {initial i rest : Nat} {pool : Accounted Nat π δ σ}
    {before after : Thread σ π} {shared : Shared Nat δ}
    (htokens : (initial : Int) + pool.ledger.signalled =
      pool.ledger.acquired + max 0 pool.count + pool.kernel + rest)
    (hheld : before.mode.share Phase.raising ≠ 0 → after.mode.share Phase.held = 0)
    (hbounded : Bounded initial
      ⟨(shared, Ledger.note i (before, pool.shared.1) (after, shared) pool.ledger),
        pool.threads.set i after⟩) :
    pool.count + before.mode.share Phase.raising ≤ Count.limit := by
  simp only [Bounded, ledger, Ledger.note] at hbounded
  simp only [ledger, kernel, count] at htokens ⊢
  -- The bound on the ledger behind the step keeps the count from wrapping in the step itself.
  by_cases hraising : before.mode.share Phase.raising = 0
  · have := Count.toInt_range pool.shared.1.count
    omega
  · have := hheld hraising
    omega

/-- What holds of the count, the kernel, the threads and the ledger at any time, however many
threads there are, as long as the count does not wrap. -/
structure Conserved (initial : Nat) (pool : Accounted Nat Kernel.Request δ σ) : Prop where
  /-- What every thread knows is right. -/
  sound : ∀ thread ∈ pool.threads, thread.mode.Sound
  /-- Every waiter waits for a token that the count owes, that is in the kernel, or that is on
  the way there. -/
  waiters : (pool.registered : Int) = max 0 (-pool.count) + pool.kernel + pool.pending
  /-- Every token that was there or came is with a call, on offer, in the kernel, or on the way
  there. -/
  tokens : (initial : Int) + pool.ledger.signalled =
    pool.ledger.acquired + max 0 pool.count + pool.kernel + pool.pending

namespace Conserved

variable {initial spins : Nat} {plan : Plan δ σ}

/-- In a new crowd nothing has come, gone, or registered. -/
theorem start {data : δ} {states : List σ} {crowd : Crowd Nat Kernel.Request δ σ}
    (hcrowd : Crowd.assemble Kernel.Counter.kernel initial data states = .ok crowd) :
    Conserved initial (crowd.noted Ledger.empty) := by
  obtain ⟨hcount, rfl⟩ := Crowd.assemble_eq_ok hcrowd
  refine ⟨?_, ?_, ?_⟩
  · intro thread hthread
    obtain ⟨state, _, rfl⟩ := List.mem_map.mp hthread
    trivial
  · simp only [registered, pending, count, kernel, Pool.noted, Crowd.around, Crowd.total_idle,
      hcount]
    omega
  · simp only [pending, count, kernel, ledger, Ledger.empty, Pool.noted, Crowd.around,
      Crowd.total_idle, hcount]
    omega

/-- A count is no lower than the number of waiters allows. -/
theorem neg_limit_le_count {pool : Accounted Nat Kernel.Request δ σ} (h : Conserved initial pool)
    (hwaiting : pool.registered ≤ Count.limit) : -(Count.limit : Int) ≤ pool.count := by
  have hwaiters := h.waiters
  omega

/-- The count has room for what a signal brings, unless that makes too many tokens outstanding. -/
theorem count_add_raising_le {c : Circumstance} {i : Nat}
    {pool : Accounted Nat Kernel.Request δ σ} {before after : Thread σ Kernel.Request}
    {shared : Shared Nat δ} (h : Conserved initial pool)
    (hlow : -(Count.limit : Int) ≤ pool.count) (hi : pool.threads[i]? = some before)
    (hstep : Crowd.step Kernel.Counter.kernel spins plan c i before pool.shared.1 =
      some (after, shared))
    (hbounded : Bounded initial
      ⟨(shared, Ledger.note i (before, pool.shared.1) (after, shared) pool.ledger),
        pool.threads.set i after⟩) :
    pool.count + before.mode.share Phase.raising ≤ Count.limit := by
  have hsound := h.sound before (List.mem_of_getElem? hi)
  exact count_add_raising_le_of_bounded h.tokens
    (fun hraising => (Crowd.held_of_raising hstep hsound hraising hlow).2) hbounded

/-- A step is one of those that `Crowd.Step` lists, unless it makes too many tokens
outstanding. -/
theorem exists_step {c : Circumstance} {i : Nat} {pool next : Accounted Nat Kernel.Request δ σ}
    (h : Conserved initial pool) (hlow : -(Count.limit : Int) ≤ pool.count)
    (hstep : (Crowd.ledgered Kernel.Counter.kernel spins plan).advance c i pool = some next)
    (hbounded : Bounded initial next) :
    ∃ before after shared, pool.threads[i]? = some before ∧
      Crowd.Step plan before pool.shared.1 after shared ∧
      next = ⟨(shared, Ledger.note i (before, pool.shared.1) (after, shared) pool.ledger),
        pool.threads.set i after⟩ := by
  obtain ⟨before, after, shared, hi, hmove, rfl⟩ := Machine.observed_advance_eq_some_iff.mp hstep
  have hsound := h.sound before (List.mem_of_getElem? hi)
  have hhigh := h.count_add_raising_le hlow hi hmove hbounded
  exact ⟨before, after, shared, hi, Crowd.step_cases hmove hsound hlow hhigh, rfl⟩

/-- Every step keeps all of this, unless it makes too many tokens outstanding. -/
theorem advance {c : Circumstance} {i : Nat} {pool next : Accounted Nat Kernel.Request δ σ}
    (h : Conserved initial pool) (hlow : -(Count.limit : Int) ≤ pool.count)
    (hstep : (Crowd.ledgered Kernel.Counter.kernel spins plan).advance c i pool = some next)
    (hbounded : Bounded initial next) : Conserved initial next := by
  obtain ⟨before, after, shared, hi, hcase, rfl⟩ := h.exists_step hlow hstep hbounded
  have hmoved := hcase.tokens
  have hpending := Crowd.total_set (Thread.share Phase.pending) hi after
  have htokens := h.tokens
  simp only [Thread.share] at hpending
  simp only [ledger, kernel, count, pending] at htokens
  refine ⟨Pool.forall_mem_set h.sound hcase.sound, ?_, ?_⟩
  · exact hcase.waiters_set hi h.waiters
  · simp only [pending, count, kernel, ledger, Ledger.note]
    omega

end Conserved

/-- What holds at any time of a pool of few threads. As none of them is registered more than once,
its count does not wrap below. -/
structure Balanced (initial : Nat) (pool : Accounted Nat Kernel.Request δ σ) : Prop
    extends Conserved initial pool where
  /-- There are no more threads than the count can tell apart. -/
  few : pool.threads.length ≤ Count.limit

namespace Balanced

variable {initial spins : Nat} {plan : Plan δ σ}

/-- A new crowd is balanced. -/
theorem start {data : δ} {states : List σ} {crowd : Crowd Nat Kernel.Request δ σ}
    (hcrowd : Crowd.assemble Kernel.Counter.kernel initial data states = .ok crowd)
    (hfew : states.length ≤ Count.limit) : Balanced initial (crowd.noted Ledger.empty) := by
  have hconserved := Conserved.start hcrowd
  obtain ⟨-, rfl⟩ := Crowd.assemble_eq_ok hcrowd
  refine ⟨hconserved, ?_⟩
  simpa only [Pool.noted, Crowd.around, List.length_map] using hfew

/-- A balanced count is no lower than the number of threads allows. -/
theorem neg_limit_le_count {pool : Accounted Nat Kernel.Request δ σ}
    (h : Balanced initial pool) : -(Count.limit : Int) ≤ pool.count :=
  h.toConserved.neg_limit_le_count (Nat.le_trans (Crowd.total_registered_le pool.threads) h.few)

/-- A step of a balanced pool is one of those that `Crowd.Step` lists, unless it makes too many
tokens outstanding. -/
theorem exists_step {c : Circumstance} {i : Nat} {pool next : Accounted Nat Kernel.Request δ σ}
    (h : Balanced initial pool)
    (hstep : (Crowd.ledgered Kernel.Counter.kernel spins plan).advance c i pool = some next)
    (hbounded : Bounded initial next) :
    ∃ before after shared, pool.threads[i]? = some before ∧
      Crowd.Step plan before pool.shared.1 after shared ∧
      next = ⟨(shared, Ledger.note i (before, pool.shared.1) (after, shared) pool.ledger),
        pool.threads.set i after⟩ :=
  h.toConserved.exists_step h.neg_limit_le_count hstep hbounded

/-- Every step keeps the balance, unless it makes too many tokens outstanding. -/
theorem advance {c : Circumstance} {i : Nat} {pool next : Accounted Nat Kernel.Request δ σ}
    (h : Balanced initial pool)
    (hstep : (Crowd.ledgered Kernel.Counter.kernel spins plan).advance c i pool = some next)
    (hbounded : Bounded initial next) : Balanced initial next := by
  have hconserved := h.toConserved.advance h.neg_limit_le_count hstep hbounded
  obtain ⟨before, after, shared, -, -, rfl⟩ := h.exists_step hstep hbounded
  refine ⟨hconserved, ?_⟩
  simpa only [List.length_set] using h.few

end Balanced

end Accounted

end WordSync.Semaphore
