import Mathlib.Algebra.Order.BigOperators.Group.List
import Mathlib.Algebra.Order.Group.Nat
import WordSync.Proofs.Kernel.Posix
import WordSync.Proofs.Semaphore.Passage
import WordSync.Proofs.Semaphore.Visits

/-!
# Tokens in a semaphore of the system

A signal hands its tokens to the system one by one, and waiters take them while it does. So the
value of the system semaphore and the tokens that signals have still to put in are counted
together: what they add up to, and what the count owes, is the number of waiters. A signal of
the system fails only where the value is at its limit, and then there would be more waiters than
that. `Accounted.Covered` is the invariant that says so, kept by every step of every thread.
-/

namespace WordSync.Semaphore

open Kernel.Posix (Stage)

variable {δ σ : Type}

/-- The tokens that a thread has still to hand to the system, before and while it does so. -/
def Mode.owed : Mode Stage → Nat
  | .calling phase => phase.pending
  | .requesting _ stage => stage.owed
  | _ => 0

/-- The tokens that a thread has still to hand to the system. -/
def Thread.owed (thread : Thread σ Stage) : Nat := thread.mode.owed

/-- The stock of a semaphore of the system and of a thread. -/
def Mode.funds (mode : Mode Stage) (shared : Shared Nat δ) : Stock :=
  ⟨shared.count.toInt, shared.kernel, mode.share Phase.held, mode.share Phase.registered,
    mode.owed⟩

/-- Whether what a thread does next is a call that waits for tokens, and does not only attempt to
take some. -/
def Plan.waits (plan : Plan δ σ) (state : σ) : Bool :=
  match plan state with
  | .call (.acquire _ _) _ => true
  | _ => false

/-- Whether a thread is in a call that waits for tokens. -/
def Thread.acquiring {π : Type} (plan : Plan δ σ) (thread : Thread σ π) : Bool :=
  match thread.mode with
  | .calling _ => plan.waits thread.state
  | .requesting _ _ => plan.waits thread.state
  | _ => false

/-- A thread in a state of its plan may be at a phase of a call. -/
def Plan.Comes (plan : Plan δ σ) (state : σ) (phase : Phase) : Prop :=
  ∃ call resume, plan state = .call call resume ∧ call.Comes phase

/-- A thread is where its plan, its call and its request lead, and what it knows about the count
is right. It has not broken off because of the kernel. -/
def Thread.Fit (spins : Nat) (plan : Plan δ σ) (thread : Thread σ Stage) : Prop :=
  match thread.mode with
  | .idle => True
  | .calling phase => phase.Sound ∧ plan.Comes thread.state phase
  | .requesting phase stage => plan.Comes thread.state phase ∧
      ∃ request next, phase.move spins = .request request next ∧ stage.Serves request
  | .broken fault => ∀ reason, fault ≠ .kernel reason

namespace Phase

variable {spins : Nat} {phase : Phase} {request : Kernel.Request} {next : Bool → Turn}

/-- A call has nothing else to hand to the system than what it signals there. -/
theorem pending_of_request (hmove : phase.move spins = .request request next) :
    (Stage.ofRequest request).Serves request ∧
      (Stage.ofRequest request).owed = phase.pending := by
  rcases request_cases hmove with ⟨demand, patience, rfl⟩ | ⟨demand, rfl⟩ | ⟨count, rfl⟩
  · cases patience <;> cases hmove <;> exact ⟨trivial, rfl⟩
  · cases hmove
    exact ⟨trivial, rfl⟩
  · cases hmove
    exact ⟨trivial, rfl⟩

/-- A call that makes a request is not about to raise the count, and knows nothing about it. -/
theorem raising_of_request (hmove : phase.move spins = .request request next) :
    phase.raising = 0 ∧ phase.Sound := by
  rcases request_cases hmove with ⟨demand, patience, rfl⟩ | ⟨demand, rfl⟩ | ⟨count, rfl⟩ <;>
    exact ⟨rfl, trivial⟩

/-- What a step of a request of the system does for the call that made it, with a `value` of the
semaphore and with `owed` tokens to put in. -/
inductive Gets (phase : Phase) (request : Kernel.Request) (next : Bool → Turn) (count : Int64)
    (value owed : Nat) : Kernel.Progress Stage → Nat → Prop where
  /-- It goes on with the request. -/
  | wait {stage : Stage} (hserves : stage.Serves request) (howed : stage.owed = owed) :
      Gets phase request next count value owed (.working stage) value
  /-- It puts one token in. -/
  | post {stage : Stage} (hserves : stage.Serves request) (howed : stage.owed + 1 = owed) :
      Gets phase request next count value owed (.working stage) (value + 1)
  /-- It has its answer. -/
  | answer {granted : Bool} {left : Nat} (hsound : (next granted).phase.Sound)
      (heffect : Effect ⟨count.toInt, value, phase.held, phase.registered, owed⟩ 0
        ((next granted).phase.stock count left)) :
      Gets phase request next count value owed (.answered granted) left

/-- A request that takes a token is one of a waiter. -/
theorem waits_of_takes (hmove : phase.move spins = .request request next) {stage : Stage}
    (hserves : stage.Serves request) (htakes : stage.Takes) :
    ∃ demand, (next true).phase = granted demand ∧ phase.registered = 1 ∧ phase.held = 0 ∧
      phase.pending = 0 := by
  rcases request_cases hmove with ⟨demand, patience, rfl⟩ | ⟨demand, rfl⟩ | ⟨count, rfl⟩
  · cases patience <;> cases hmove <;> exact ⟨demand, rfl, rfl, rfl, rfl⟩
  · cases hmove
    exact ⟨demand, rfl, rfl, rfl, rfl⟩
  · cases hmove
    cases stage with
    | posting left => exact absurd htakes id
    | _ => exact absurd hserves id

/-- A waiter whose request was not granted looks at the count again. -/
theorem recheck_of_request (hmove : phase.move spins = .request request next)
    (hrequest : request = .tryWait ∨ ∃ timeout, request = .timedWait timeout) :
    ∃ demand, (next false).phase = .recheck demand ∧ phase.registered = 1 ∧ phase.held = 0 := by
  rcases request_cases hmove with ⟨demand, patience, rfl⟩ | ⟨demand, rfl⟩ | ⟨count, rfl⟩
  · cases patience with
    | forever =>
      cases hmove
      rcases hrequest with hrequest | ⟨timeout, hrequest⟩ <;> cases hrequest
    | within timeout =>
      cases hmove
      exact ⟨demand, rfl, rfl, rfl⟩
  · cases hmove
    exact ⟨demand, rfl, rfl, rfl⟩
  · cases hmove
    rcases hrequest with hrequest | ⟨timeout, hrequest⟩ <;> cases hrequest

/-- A signal that has handed its tokens to the system is over. -/
theorem done_of_request {count : Nat} (hmove : phase.move spins = .request (.signal count) next)
    (granted : Bool) :
    (next granted).phase = .done 0 ∧ phase.registered = 0 ∧ phase.held = 0 := by
  rcases request_cases hmove with ⟨demand, patience, rfl⟩ | ⟨demand, rfl⟩ | ⟨count, rfl⟩
  · cases patience <;> cases hmove
  · cases hmove
  · cases hmove
    exact ⟨rfl, rfl, rfl⟩

/-- A waiter whose request was not granted has moved no token. -/
theorem Gets.refused (hmove : phase.move spins = .request request next)
    (hrequest : request = .tryWait ∨ ∃ timeout, request = .timedWait timeout) {count : Int64}
    {value owed : Nat} (howed : owed = 0) :
    phase.Gets request next count value owed (.answered false) value := by
  obtain ⟨demand, hnext, hregistered, hheld⟩ := recheck_of_request hmove hrequest
  refine .answer ?_ (.still rfl ?_)
  · rw [hnext]
    trivial
  · rw [hnext, hregistered, hheld, howed]
    rfl

/-- A request of the system never fails, as long as there is room for the tokens that it puts
in. -/
theorem gets_of_goes (hmove : phase.move spins = .request request next) {c : Circumstance}
    {stage : Stage} {value left : Nat} {progress : Kernel.Progress Stage}
    (hserves : stage.Serves request) (hgoes : stage.Goes c value progress left)
    (hroom : stage.owed ≠ 0 → value < Kernel.Posix.limit) (count : Int64) :
    phase.Gets request next count value stage.owed progress left := by
  cases hgoes with
  | take htakes hvalue =>
    rw [Stage.owed_of_takes htakes]
    obtain ⟨demand, hnext, hregistered, hheld, hpending⟩ := waits_of_takes hmove hserves htakes
    obtain ⟨hsound, heffect⟩ : phase.Leads count value 0 (granted demand) count left :=
      receive_leads hregistered hheld hpending hvalue demand
    rw [← hnext] at hsound heffect
    rw [stock, hpending] at heffect
    exact .answer hsound heffect
  | again htakes hchance => exact .wait hserves rfl
  | refuse hvalue =>
    cases request with
    | tryWait => exact .refused hmove (.inl rfl) rfl
    | _ => exact absurd hserves id
  | expire hnormal hchance =>
    cases request with
    | timedWait timeout => exact .refused hmove (.inr ⟨timeout, rfl⟩) rfl
    | _ => exact absurd hserves id
  | time timeout hnormal =>
    cases request with
    | timedWait _ => exact .wait hnormal rfl
    | _ => exact absurd hserves id
  | post tokens hvalue =>
    cases request with
    | signal _ => exact .post trivial rfl
    | _ => exact absurd hserves id
  | posted =>
    cases request with
    | signal _ =>
      obtain ⟨hnext, hregistered, hheld⟩ := done_of_request hmove true
      refine .answer ?_ (.still rfl ?_)
      · rw [hnext]
        trivial
      · rw [hnext, hregistered, hheld]
        rfl
    | _ => exact absurd hserves id
  | full tokens hvalue => exact absurd (hroom (Nat.succ_ne_zero tokens)) (Nat.not_lt.mpr hvalue)
  | invalid hnormal =>
    cases request with
    | timedWait _ => exact absurd hserves hnormal
    | _ => exact absurd hserves id

end Phase

/-- Only a call that waits for tokens comes to be registered. -/
theorem Call.Comes.acquire_of_registered {call : Call} {phase : Phase} (h : call.Comes phase)
    (hregistered : phase.registered ≠ 0) : ∃ demand patience, call = .acquire demand patience := by
  rcases h.cases with hvisits | ⟨count, -, -, rfl⟩ | ⟨-, rfl⟩
  · cases phase with
    | park demand patience => exact ⟨demand, patience, hvisits.2⟩
    | recheck demand | claim demand | withdraw demand seen =>
      obtain ⟨-, timeout, rfl⟩ := hvisits
      exact ⟨demand, .within timeout, rfl⟩
    | _ => exact absurd rfl hregistered
  · exact absurd rfl hregistered
  · exact absurd rfl hregistered

/-- A thread that is registered is in a call that waits for tokens. -/
theorem Plan.Comes.registered_le {plan : Plan δ σ} {state : σ} {phase : Phase}
    (h : plan.Comes state phase) : phase.registered ≤ (plan.waits state).toNat := by
  by_cases hregistered : phase.registered = 0
  · omega
  · obtain ⟨call, resume, hplan, hcomes⟩ := h
    obtain ⟨demand, patience, rfl⟩ := hcomes.acquire_of_registered hregistered
    have hwaits : plan.waits state = true := by simp only [Plan.waits, hplan]
    rw [hwaits]
    exact phase.registered_le_one

namespace Thread.Fit

variable {spins : Nat} {plan : Plan δ σ} {thread : Thread σ Stage}

/-- A thread that is about to raise the count has not yet done anything else. -/
theorem exists_raise (h : thread.Fit spins plan) (hraising : thread.mode.share Phase.raising ≠ 0) :
    ∃ amount, thread.mode = .calling (.raise amount) := by
  obtain ⟨state, mode⟩ := thread
  cases mode with
  | calling phase =>
    cases phase with
    | raise amount => exact ⟨amount, rfl⟩
    | _ => exact absurd rfl hraising
  | requesting phase stage =>
    obtain ⟨-, request, next, hmove, -⟩ := h
    exact absurd (Phase.raising_of_request hmove).1 hraising
  | idle => exact absurd rfl hraising
  | broken fault => exact absurd rfl hraising

/-- Every registered thread is in a call that waits for tokens. -/
theorem registered_le (h : thread.Fit spins plan) :
    thread.share Phase.registered ≤ (thread.acquiring plan).toNat := by
  obtain ⟨state, mode⟩ := thread
  cases mode with
  | idle => exact Nat.zero_le _
  | calling phase => exact h.2.registered_le
  | requesting phase stage => exact h.1.registered_le
  | broken fault => exact Nat.zero_le _

/-- A thread in the middle of a request is at a stage of it, and owes what the stage owes. -/
theorem of_stands {phase : Phase} {request : Kernel.Request} {next : Bool → Turn}
    {stage : Stage} (h : thread.Fit spins plan)
    (hstands : thread.mode.Stands Kernel.Posix.kernel phase request stage)
    (hmove : phase.move spins = .request request next) (shared : Shared Nat δ) :
    plan.Comes thread.state phase ∧ stage.Serves request ∧
      thread.mode.share Phase.raising = 0 ∧ thread.mode.funds shared =
        ⟨shared.count.toInt, shared.kernel, phase.held, phase.registered, stage.owed⟩ := by
  have hraising := (Phase.raising_of_request hmove).1
  obtain ⟨state, mode⟩ := thread
  rcases hstands with ⟨rfl, rfl⟩ | rfl
  · obtain ⟨hserves, howed⟩ := Phase.pending_of_request hmove
    refine ⟨h.2, hserves, hraising, ?_⟩
    simp only [Mode.funds, Mode.share, Mode.owed, Kernel.Posix.kernel, howed]
  · obtain ⟨hcomes, request', next', hmove', hserves⟩ := h
    obtain ⟨rfl, -⟩ := Move.request.inj (hmove.symm.trans hmove')
    exact ⟨hcomes, hserves, hraising, rfl⟩

end Thread.Fit

namespace Crowd

/-- What a step of a thread does with tokens over a semaphore of the system. -/
inductive Handles (before : Thread σ Stage) (shared : Shared Nat δ)
    (after : Thread σ Stage) (shared' : Shared Nat δ) : Prop where
  /-- It hands out what the call has taken. -/
  | close (tokens : Nat) (hbefore : before.mode = .calling (.done tokens))
      (hafter : after.mode = .idle) (hshared : shared' = shared)
  /-- It has one of the effects that a move of a call has. -/
  | move (heffect : Effect (before.mode.funds shared) (before.mode.share Phase.raising)
      (after.mode.funds shared'))
  /-- It puts one token into the system. -/
  | post (hraising : before.mode.share Phase.raising = 0)
      (howed : before.mode.owed = after.mode.owed + 1)
      (hafter : after.mode.funds shared' = { before.mode.funds shared with
        kernel := shared.kernel + 1, pending := after.mode.owed })

variable {spins : Nat} {plan : Plan δ σ} {c : Circumstance} {i : Nat}
  {before after : Thread σ Stage} {shared shared' : Shared Nat δ}

/-- Every step keeps a thread fit and handles tokens in one of these ways, if the count is not
about to wrap and the system has room for the tokens that the thread puts in. -/
theorem fit_and_handles
    (hstep : step Kernel.Posix.kernel spins plan c i before shared = some (after, shared'))
    (hfit : before.Fit spins plan) (hlow : -(Count.limit : Int) ≤ shared.count.toInt)
    (hhigh : shared.count.toInt + before.mode.share Phase.raising ≤ Count.limit)
    (hroom : before.owed ≠ 0 → shared.kernel < Kernel.Posix.limit) :
    after.Fit spins plan ∧ Handles before shared after shared' := by
  obtain ⟨state, mode⟩ := before
  cases passage_of_step hstep with
  | start call resume hmode hplan =>
    obtain rfl : mode = .idle := hmode
    have hafter := Phase.holds_ofCall call
    refine ⟨⟨hafter.sound, call, resume, hplan, .inl rfl⟩, .move (.still rfl ?_)⟩
    simp only [Mode.funds, Mode.share, Mode.owed, hafter.held_eq, hafter.registered_eq,
      hafter.pending_eq]
  | touch change hmode hplan =>
    obtain rfl : mode = .idle := hmode
    exact ⟨trivial, .move (.still rfl rfl)⟩
  | access phase access next hmode hmove =>
    obtain rfl : mode = .calling phase := hmode
    obtain ⟨hsound, call, resume, hplan, hcomes⟩ := hfit
    obtain ⟨hafter, heffect⟩ :
        phase.AccessLeads access next (c.chance == .mishap) shared.count shared.kernel :=
      Phase.access_leads hmove hsound _ hlow hhigh
    have hvisits := Phase.visits_of_access hmove hcomes hsound (c.chance == .mishap) hlow
    exact ⟨⟨hafter, call, resume, hplan, .inr hvisits⟩, .move heffect⟩
  | request phase request next stage progress left hstands hmove hserve =>
    obtain ⟨hcomes, hserves, hraising, hfunds⟩ := hfit.of_stands hstands hmove shared
    have howed : mode.owed = stage.owed := congrArg Stock.pending hfunds
    have hgoes := Stage.goes_of_step hserve
    rw [Thread.owed, howed] at hroom
    have hgets := Phase.gets_of_goes hmove hserves hgoes hroom shared.count
    generalize hstageOwed : stage.owed = owed at hgets hfunds howed
    cases hgets with
    | wait hserves' howed' =>
      refine ⟨⟨hcomes, request, next, hmove, hserves'⟩, .move (.still hraising ?_)⟩
      rw [hfunds, ← howed']
      rfl
    | post hserves' howed' =>
      refine ⟨⟨hcomes, request, next, hmove, hserves'⟩, .post hraising ?_ ?_⟩
      · exact howed.trans howed'.symm
      · rw [hfunds]
        rfl
    | answer hsound heffect =>
      obtain ⟨call, resume, hplan, hcomes'⟩ := hcomes
      have hvisits := Phase.visits_of_request hmove hcomes'
      refine ⟨⟨hsound, call, resume, hplan, .inr (hvisits _)⟩, .move ?_⟩
      rw [hfunds, hraising]
      exact heffect
  | finish phase tokens call resume hmode hmove hplan =>
    obtain rfl : mode = .calling phase := hmode
    rcases Phase.finish_cases hmove hfit.1 with ⟨_, rfl, htokens⟩ | ⟨fault, rfl, hfault⟩
    · cases htokens
      exact ⟨trivial, .close tokens rfl rfl rfl⟩
    · cases hfault
  | fail phase fault hmode hmove =>
    obtain rfl : mode = .calling phase := hmode
    obtain ⟨hsound, call, resume, hplan, hcomes⟩ := hfit
    rcases Phase.finish_cases hmove hsound with ⟨tokens, rfl, htokens⟩ | ⟨_, rfl, hfault⟩
    · cases htokens
    · cases hfault
      refine ⟨?_, .move (.still rfl rfl)⟩
      rcases hcomes.cases with hvisits | ⟨count, -, -, hraise⟩ | ⟨-, hfailed⟩
      · exact absurd hvisits id
      · cases hraise
      · cases hfailed
        rintro reason ⟨⟩

namespace Handles

/-- Waiters come and go with the tokens that they wait for. -/
theorem waiters (h : Handles before shared after shared') :
    (after.mode.share Phase.registered : Int) -
        (max 0 (-shared'.count.toInt) + shared'.kernel + after.mode.owed) =
      before.mode.share Phase.registered -
        (max 0 (-shared.count.toInt) + shared.kernel + before.mode.owed) := by
  cases h with
  | close tokens hbefore hafter hshared =>
    subst hshared
    simp only [hbefore, hafter, Mode.share, Mode.owed, Phase.registered, Phase.pending]
  | move heffect => exact heffect.waiters
  | post hraising howed hafter =>
    simp only [Mode.funds, Stock.mk.injEq] at hafter
    omega

/-- Tokens come from signals and go to calls; otherwise they only change their place. -/
theorem tokens (h : Handles before shared after shared') :
    (before.mode.share Phase.raising : Int) +
        (max 0 shared.count.toInt + shared.kernel + before.mode.owed) =
      (after.mode.share Phase.held - before.mode.share Phase.held : Nat) +
        (max 0 shared'.count.toInt + shared'.kernel + after.mode.owed) := by
  cases h with
  | close tokens hbefore hafter hshared =>
    subst hshared
    simp only [hbefore, hafter, Mode.share, Mode.owed, Phase.raising, Phase.pending]
    omega
  | move heffect =>
    have htokens := heffect.tokens
    have hheld := heffect.held_le
    simp only [Mode.funds] at htokens hheld
    omega
  | post hraising howed hafter =>
    simp only [Mode.funds, Stock.mk.injEq] at hafter
    omega

end Handles

/-- A new crowd over a semaphore of the system stands around a semaphore whose tokens are all in
the count. -/
theorem assemble_posix {initial : Nat} (hinitial : initial ≤ Count.limit) (data : δ)
    (states : List σ) :
    assemble Kernel.Posix.kernel initial data states =
      .ok (around Stage ⟨.ofNat initial, 0, 0, []⟩ data states) := by
  have hlimit : ¬Count.limit < initial := Nat.not_lt.mpr hinitial
  simp only [assemble, Semaphore.create, if_neg hlimit]
  rfl

end Crowd

namespace Accounted

/-- The tokens that signals have still to put into the system. -/
def owed (pool : Accounted Nat Stage δ σ) : Nat := Crowd.total Thread.owed pool.threads

/-- The number of threads that are in a call that waits for tokens. -/
def acquirers {κ π : Type} (plan : Plan δ σ) (pool : Accounted κ π δ σ) : Nat :=
  pool.threads.countP (Thread.acquiring plan)

/-- There are not too many tokens outstanding, and no more threads wait for tokens than there can
be tokens in the system. -/
structure Moderate {κ π : Type} (initial : Nat) (plan : Plan δ σ) (pool : Accounted κ π δ σ) :
    Prop where
  /-- The count can hold the tokens that are outstanding. -/
  bounded : Bounded initial pool
  /-- The system can hold one token for each thread that waits for tokens. -/
  acquirers_le : pool.acquirers plan ≤ Kernel.Posix.limit

instance {κ π : Type} (initial : Nat) (plan : Plan δ σ) :
    DecidablePred (Moderate (κ := κ) (π := π) initial plan) := fun pool =>
  decidable_of_iff (Bounded initial pool ∧ pool.acquirers plan ≤ Kernel.Posix.limit)
    ⟨fun h => ⟨h.1, h.2⟩, fun h => ⟨h.bounded, h.acquirers_le⟩⟩

/-- What holds of the count, the system, the threads and the ledger at any time. -/
structure Covered (initial spins : Nat) (plan : Plan δ σ) (pool : Accounted Nat Stage δ σ) :
    Prop where
  /-- Every thread is where it may be. -/
  fit : ∀ thread ∈ pool.threads, thread.Fit spins plan
  /-- Every waiter waits for a token that the count owes, that is in the system, or that a signal
  has still to put there. -/
  waiters : (pool.registered : Int) = max 0 (-pool.count) + pool.kernel + pool.owed
  /-- Every token that was there or came is with a call, on offer, in the system, or on the way
  there. -/
  tokens : (initial : Int) + pool.ledger.signalled =
    pool.ledger.acquired + max 0 pool.count + pool.kernel + pool.owed

namespace Covered

variable {initial spins : Nat} {plan : Plan δ σ}

/-- In a new crowd nothing has come, gone, or registered. -/
theorem start (hinitial : initial ≤ Count.limit) (data : δ) (states : List σ) :
    Covered initial spins plan (Pool.noted
      (Crowd.around Stage ⟨.ofNat initial, 0, 0, []⟩ data states) Ledger.empty) := by
  have hcount : (Int64.ofNat initial).toInt = initial :=
    Int64.toInt_ofNat_of_lt (by simp only [Count.limit] at hinitial; omega)
  have howed : Crowd.total Thread.owed
      (states.map fun state => (⟨state, .idle⟩ : Thread σ Stage)) = 0 :=
    Crowd.total_eq_zero fun thread hthread => by
      obtain ⟨state, -, rfl⟩ := List.mem_map.mp hthread
      rfl
  refine ⟨?_, ?_, ?_⟩
  · intro thread hthread
    obtain ⟨state, -, rfl⟩ := List.mem_map.mp hthread
    trivial
  · simp only [registered, owed, count, kernel, Pool.noted, Crowd.around, Crowd.total_idle,
      howed, hcount]
    omega
  · simp only [owed, count, kernel, ledger, Ledger.empty, Pool.noted, Crowd.around, howed, hcount]
    omega

variable {pool : Accounted Nat Stage δ σ}

/-- There are no more waiters than threads that wait for tokens. -/
theorem registered_le (h : Covered initial spins plan pool) :
    pool.registered ≤ pool.acquirers plan :=
  Crowd.total_le_countP fun thread hthread => (h.fit thread hthread).registered_le

/-- The tokens in the system and those that are still to come are no more than the waiters. -/
theorem kernel_add_owed_le (h : Covered initial spins plan pool) :
    pool.kernel + pool.owed ≤ pool.registered := by
  have hwaiters := h.waiters
  omega

/-- A count is no lower than the number of waiters allows. -/
theorem neg_limit_le_count (h : Covered initial spins plan pool)
    (hacquirers : pool.acquirers plan ≤ Kernel.Posix.limit) :
    -(Count.limit : Int) ≤ pool.count := by
  have hwaiters := h.waiters
  have hregistered := h.registered_le
  simp only [Kernel.Posix.limit, Count.limit] at hacquirers ⊢
  omega

/-- The count has room for what a signal brings, unless that makes too many tokens outstanding. -/
theorem count_add_raising_le {c : Circumstance} {i : Nat} {before after : Thread σ Stage}
    {shared : Shared Nat δ} (h : Covered initial spins plan pool)
    (hlow : -(Count.limit : Int) ≤ pool.count) (hi : pool.threads[i]? = some before)
    (hstep : Crowd.step Kernel.Posix.kernel spins plan c i before pool.shared.1 =
      some (after, shared))
    (hbounded : Bounded initial
      ⟨(shared, Ledger.note i (before, pool.shared.1) (after, shared) pool.ledger),
        pool.threads.set i after⟩) :
    pool.count + before.mode.share Phase.raising ≤ Count.limit := by
  have hfit := h.fit before (List.mem_of_getElem? hi)
  refine count_add_raising_le_of_bounded h.tokens (fun hraising => ?_) hbounded
  obtain ⟨amount, hraise⟩ := hfit.exists_raise hraising
  rw [Crowd.step_raise hstep hraise hlow]
  exact congrArg Stock.held (Phase.stock_posting _ shared.count 0)

/-- There is room in the system for every token that a thread has still to put there. -/
theorem room (h : Covered initial spins plan pool)
    (hacquirers : pool.acquirers plan ≤ Kernel.Posix.limit) {i : Nat}
    {thread : Thread σ Stage} (hi : pool.threads[i]? = some thread) :
    thread.owed ≠ 0 → pool.kernel < Kernel.Posix.limit := by
  intro howed
  have hle : thread.owed ≤ pool.owed :=
    List.le_sum_of_mem (List.mem_map_of_mem (List.mem_of_getElem? hi))
  have hwaiters := h.kernel_add_owed_le
  have hregistered := h.registered_le
  omega

/-- Every step keeps all of this, as long as the pool is moderate. -/
theorem advance {c : Circumstance} {i : Nat} {next : Accounted Nat Stage δ σ}
    (h : Covered initial spins plan pool) (hpool : Moderate initial plan pool)
    (hstep : (Crowd.ledgered Kernel.Posix.kernel spins plan).advance c i pool = some next)
    (hnext : Moderate initial plan next) : Covered initial spins plan next := by
  obtain ⟨before, after, shared, hi, hmove, rfl⟩ := Machine.observed_advance_eq_some_iff.mp hstep
  have hlow := h.neg_limit_le_count hpool.acquirers_le
  have hhigh := h.count_add_raising_le hlow hi hmove hnext.bounded
  have hfit := h.fit before (List.mem_of_getElem? hi)
  obtain ⟨hafter, hhandles⟩ :=
    Crowd.fit_and_handles hmove hfit hlow hhigh (h.room hpool.acquirers_le hi)
  have hwaited := hhandles.waiters
  have hmoved := hhandles.tokens
  have hregistered := Crowd.total_set (Thread.share Phase.registered) hi after
  have howed := Crowd.total_set Thread.owed hi after
  have hwaiters := h.waiters
  have htokens := h.tokens
  simp only [Thread.share] at hregistered
  simp only [Thread.owed] at howed
  simp only [registered, ledger, kernel, count, owed] at hwaiters htokens
  refine ⟨Pool.forall_mem_set h.fit hafter, ?_, ?_⟩
  · simp only [registered, owed, count, kernel]
    omega
  · simp only [owed, count, kernel, ledger, Ledger.note]
    omega

end Covered

variable {initial spins : Nat} {plan : Plan δ σ}

/-- A semaphore of the system never fails a crowd. It can be made, and in every run with no more
tokens outstanding than the count can hold and no more threads waiting for tokens than the system
can hold tokens, no thread breaks off because of it, whatever the threads do, for how long they
wait, and in whatever order their steps are made. The value of the system semaphore and the
tokens that signals have still to put there are at no time more than the waiters. -/
theorem system_never_fails (hinitial : initial ≤ Count.limit) (data : δ) (states : List σ) :
    ∃ crowd : Crowd Nat Stage δ σ,
      Crowd.assemble Kernel.Posix.kernel initial data states = .ok crowd ∧
      ∀ pool : Accounted Nat Stage δ σ,
        (Crowd.ledgered Kernel.Posix.kernel spins plan).ReachesWithin
          (Moderate initial plan) (crowd.noted Ledger.empty) pool →
        (∀ thread ∈ pool.threads, ∀ fault, thread.mode ≠ .broken (.kernel fault)) ∧
          pool.kernel + pool.owed ≤ pool.registered := by
  refine ⟨_, Crowd.assemble_posix hinitial data states, fun pool hrun => ?_⟩
  have hcovered : Covered initial spins plan pool :=
    hrun.keeps (Covered.start hinitial data states) fun _ _ _ _ hpool h hstep hnext =>
      h.advance hpool hstep hnext
  refine ⟨fun thread hthread fault hbroken => ?_, hcovered.kernel_add_owed_le⟩
  have hfit := hcovered.fit thread hthread
  simp only [Thread.Fit, hbroken] at hfit
  exact hfit fault rfl

/-- A signal of two tokens has put the first of them into the system, for two waiters. The second
of them has been interrupted while it waits for a limited time. -/
def halfway : Accounted Nat Stage Unit Script :=
  ⟨(⟨0, 1, ()⟩, ⟨2, 0⟩),
    [⟨.ofCalls [.acquire .one .forever], .calling (.park .one .forever)⟩,
      ⟨.ofCalls [.acquire .one (.within (.ofParts 1 0))],
        .requesting (.park .one (.within (.ofParts 1 0))) (.waitingUntil ⟨1, 0⟩)⟩,
      ⟨.ofCalls [.signal 2], .requesting (.post 2) (.posting 1)⟩]⟩

theorem system_never_fails_halfway :
    0 ≤ Count.limit ∧ ∃ crowd : Crowd Nat Stage Unit Script,
      Crowd.assemble Kernel.Posix.kernel 0 () (halfway.threads.map Thread.state) = .ok crowd ∧
      (Crowd.ledgered Kernel.Posix.kernel 0 (Script.plan Unit)).ReachesWithin
        (Moderate 0 (Script.plan Unit)) (crowd.noted Ledger.empty) halfway ∧
      (∀ thread ∈ halfway.threads, ∀ fault, thread.mode ≠ .broken (.kernel fault)) ∧
      halfway.kernel + halfway.owed ≤ halfway.registered ∧
      halfway.kernel = 1 ∧ halfway.owed = 1 ∧ halfway.registered = 2 := by
  obtain ⟨crowd, hcrowd, hall⟩ := @system_never_fails Unit Script 0 0 (Script.plan Unit)
    (Nat.zero_le Count.limit) () (halfway.threads.map Thread.state)
  have hrun : (Crowd.ledgered Kernel.Posix.kernel 0 (Script.plan Unit)).ReachesWithin
      (Moderate 0 (Script.plan Unit)) (crowd.noted Ledger.empty) halfway := by
    obtain rfl : Crowd.around Stage ⟨0, 0, 0, []⟩ ()
        (halfway.threads.map Thread.state) = crowd := Except.ok.inj hcrowd
    exact Machine.runWithin_reaches
      [(.usual, 0), (.usual, 0), (.usual, 0), (.usual, 1), (.usual, 1), (.usual, 1), (.usual, 1),
        (⟨.mishap, .zero, 0⟩, 1), (.usual, 2), (.usual, 2), (.usual, 2)] rfl
  obtain ⟨hfaults, hwaiters⟩ := hall halfway hrun
  exact ⟨Nat.zero_le _, crowd, hcrowd, hrun, hfaults, hwaiters, rfl, rfl, rfl⟩

end Accounted

end WordSync.Semaphore
