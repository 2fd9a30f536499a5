import WordSync.Proofs.Semaphore.Ledger

/-!
# Conservation of tokens

A semaphore neither makes nor loses tokens, whatever its threads do and in whatever order they
do it. A token that the semaphore began with, or that a signal has added, is with a call that
has taken it, on offer in the count, in the kernel, or on its way from the count to the kernel.
The count itself is the difference of what came and what went, less the waiters, and never wraps.
What went is no fiction of the ledger: it is what the calls report to their threads.
-/

namespace WordSync.Semaphore

/-- `plan.Books worth` if the states of a plan are worth what the calls on the way to them have
taken: the worth grows by the tokens that a call ends with, and by nothing else. -/
structure Plan.Books {δ σ : Type} (plan : Plan δ σ) (worth : σ → Nat) : Prop where
  /-- The tokens of a call are entered. -/
  call : ∀ {state : σ} {call : Call} {resume : Nat → σ}, plan state = .call call resume →
    ∀ tokens, worth (resume tokens) = worth state + tokens
  /-- A look at the shared data enters nothing. -/
  touch : ∀ {state : σ} {change : δ → δ × σ}, plan state = .touch change →
    ∀ data, worth (change data).2 = worth state

/-- The tokens that the calls of a script have reported. -/
def Script.taken (script : Script) : Nat := (script.made.map Prod.snd).sum

/-- A script keeps books. -/
theorem Script.books (δ : Type) : (Script.plan δ).Books Script.taken := by
  constructor
  · rintro ⟨_ | ⟨first, rest⟩, made⟩ call resume hplan tokens
    · cases hplan
    · cases hplan
      simp only [Script.taken, List.map_cons, List.sum_cons]
      omega
  · rintro ⟨_ | ⟨first, rest⟩, made⟩ change hplan data
    · cases hplan
    · cases hplan

/-- What the state of a thread is worth, with the tokens that its call holds. -/
def Thread.worth {π σ : Type} (worth : σ → Nat) (thread : Thread σ π) : Nat :=
  worth thread.state + thread.mode.share Phase.held

/-- A thread gains by a step what its call takes in it. -/
theorem Crowd.Step.worth {δ σ : Type} {plan : Plan δ σ} {before after : Thread σ Kernel.Request}
    {shared shared' : Shared Nat δ} {worth : σ → Nat} (hbooks : plan.Books worth)
    (h : Crowd.Step plan before shared after shared') :
    after.worth worth = before.worth worth +
      (after.mode.share Phase.held - before.mode.share Phase.held) := by
  simp only [Thread.worth]
  cases h with
  | start call resume hmode =>
    simp only [hmode, Mode.share, (Phase.holds_ofCall call).held_eq]
  | touch change hmode hplan =>
    simp only [hmode, Mode.share, hbooks.touch hplan]
  | move phase next count kernel hmode hleads =>
    have hheld : phase.held ≤ next.held := hleads.2.held_le
    simp only [hmode, Mode.share]
    omega
  | finish tokens call resume hmode hplan =>
    simp only [hmode, Mode.share, Phase.held, hbooks.call hplan]
    omega
  | fail fault hmode =>
    simp only [hmode, Mode.share, Phase.held]

namespace Accounted

variable {δ σ : Type} {initial spins : Nat} {plan : Plan δ σ}

/-- Every pool that a new crowd can reach is balanced. -/
theorem Balanced.of_reaches {data : δ} {states : List σ} {crowd : Crowd Nat Kernel.Request δ σ}
    {pool : Accounted Nat Kernel.Request δ σ}
    (hcrowd : Crowd.assemble Kernel.Counter.kernel initial data states = .ok crowd)
    (hfew : states.length ≤ Count.limit)
    (hrun : (Crowd.ledgered Kernel.Counter.kernel spins plan).ReachesWithin (Bounded initial)
      (crowd.noted Ledger.empty) pool) : Balanced initial pool :=
  hrun.keeps (Balanced.start hcrowd hfew) fun _ _ _ _ _ hbalanced hstep hbounded =>
    hbalanced.advance hstep hbounded

/-- The count is what came in less what went out and less the waiters. -/
theorem Balanced.count_eq {pool : Accounted Nat Kernel.Request δ σ} (h : Balanced initial pool) :
    pool.count =
      initial + pool.ledger.signalled - pool.ledger.acquired - pool.registered := by
  have hwaiters := h.waiters
  have htokens := h.tokens
  omega

/-- The ledger agrees with the books of the threads: what calls have taken is what they reported
at their ends and what those still under way hold. -/
theorem acquired_eq {worth : σ → Nat} (hbooks : plan.Books worth) {data : δ}
    {states : List σ} {crowd : Crowd Nat Kernel.Request δ σ}
    {pool : Accounted Nat Kernel.Request δ σ}
    (hcrowd : Crowd.assemble Kernel.Counter.kernel initial data states = .ok crowd)
    (hfew : states.length ≤ Count.limit)
    (hrun : (Crowd.ledgered Kernel.Counter.kernel spins plan).ReachesWithin (Bounded initial)
      (crowd.noted Ledger.empty) pool) :
    Crowd.total (Thread.worth worth) pool.threads =
      Crowd.total (Thread.worth worth) crowd.threads + pool.ledger.acquired := by
  induction hrun with
  | refl => rfl
  | tail c i hreach hstep hbounded ih =>
    have hbalanced := Balanced.of_reaches hcrowd hfew hreach
    obtain ⟨before, after, shared, hi, hcase, rfl⟩ := hbalanced.exists_step hstep hbounded
    have htotal := Crowd.total_set (Thread.worth worth) hi after
    have hworth := hcase.worth hbooks
    simp only [ledger, Ledger.note] at ih ⊢
    omega

/-- Tokens are conserved in every run of every crowd, and the count does not wrap: as a signed
number it is what began and was signalled, less what was taken, less the waiters. What was taken
is what the calls report: threads that keep books have entered it, but for the tokens that calls
under way still hold. -/
theorem tokens_conserved {data : δ} {states : List σ} {crowd : Crowd Nat Kernel.Request δ σ}
    {pool : Accounted Nat Kernel.Request δ σ}
    (hcrowd : Crowd.assemble Kernel.Counter.kernel initial data states = .ok crowd)
    (hfew : states.length ≤ Count.limit)
    (hrun : (Crowd.ledgered Kernel.Counter.kernel spins plan).ReachesWithin (Bounded initial)
      (crowd.noted Ledger.empty) pool) :
    (initial : Int) + pool.ledger.signalled =
        pool.ledger.acquired + max 0 pool.count + pool.kernel + pool.pending ∧
      pool.count =
        initial + pool.ledger.signalled - pool.ledger.acquired - pool.registered ∧
      ∀ worth : σ → Nat, plan.Books worth →
        Crowd.total (Thread.worth worth) pool.threads =
          Crowd.total (Thread.worth worth) crowd.threads + pool.ledger.acquired := by
  have hbalanced := Balanced.of_reaches hcrowd hfew hrun
  exact ⟨hbalanced.tokens, hbalanced.count_eq, fun _ hbooks =>
    acquired_eq hbooks hcrowd hfew hrun⟩

/-- A waiter without patience has run out of time when a signal of three tokens raises the
count. It sees that a token is on its way to the kernel, where there is none yet. -/
def latecomer : Accounted Nat Kernel.Request Unit Script :=
  ⟨(⟨2, 0, ()⟩, ⟨3, 0⟩),
    [⟨.ofCalls [.acquire .one (.within (.ofNanos 0))], .calling (.claim .one)⟩,
      ⟨.ofCalls [.signal 3], .calling (.post 1)⟩]⟩

theorem tokens_conserved_latecomer :
    ∃ crowd : Crowd Nat Kernel.Request Unit Script,
      Crowd.assemble Kernel.Counter.kernel 0 () (latecomer.threads.map Thread.state) = .ok crowd ∧
      2 ≤ Count.limit ∧
      (Crowd.ledgered Kernel.Counter.kernel 0 (Script.plan Unit)).ReachesWithin (Bounded 0)
        (crowd.noted Ledger.empty) latecomer ∧
      ((0 : Nat) : Int) + latecomer.ledger.signalled =
        latecomer.ledger.acquired + max 0 latecomer.count + latecomer.kernel +
          latecomer.pending ∧
      latecomer.count =
        (0 : Nat) + latecomer.ledger.signalled - latecomer.ledger.acquired -
          latecomer.registered ∧
      (Script.plan Unit).Books Script.taken ∧
      Crowd.total (Thread.worth Script.taken) latecomer.threads =
        Crowd.total (Thread.worth Script.taken) crowd.threads + latecomer.ledger.acquired := by
  have hcrowd : Crowd.assemble Kernel.Counter.kernel 0 ()
      (latecomer.threads.map Thread.state) = .ok (Crowd.around Kernel.Request ⟨0, 0, 0, []⟩ ()
        (latecomer.threads.map Thread.state)) := rfl
  have hrun : (Crowd.ledgered Kernel.Counter.kernel 0 (Script.plan Unit)).ReachesWithin (Bounded 0)
      (Pool.noted (Crowd.around Kernel.Request ⟨0, 0, 0, []⟩ ()
        (latecomer.threads.map Thread.state)) Ledger.empty) latecomer :=
    Machine.runWithin_reaches
      [(.usual, 0), (.usual, 0), (.usual, 0), (.expired, 0), (.usual, 1), (.usual, 1),
        (.usual, 0)] rfl
  obtain ⟨htokens, hcount, hreported⟩ := tokens_conserved hcrowd (by decide) hrun
  exact ⟨_, hcrowd, by decide, hrun, htokens, hcount, Script.books Unit,
    hreported Script.taken (Script.books Unit)⟩

end Accounted

end WordSync.Semaphore
