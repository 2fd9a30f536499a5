import WordSync.Semaphore.Crowd

/-!
# What a thread can do next, over any kernel semaphore

A step of a thread begins a call, touches the shared data, accesses the count, makes one step of a
request to the kernel, or ends a call. A request takes as many steps as the kernel semaphore
likes, and the threads mix between them. `Crowd.Passage` lists these cases with all that is known
in each of them, whatever the count is and whatever the call knows.
-/

namespace WordSync.Semaphore

variable {κ π δ σ : Type}

/-- Where a step of a request leaves a thread whose call made the request at `phase`. -/
def Mode.onward (phase : Phase) (next : Bool → Turn) : Kernel.Progress π → Mode π
  | .working stage => .requesting phase stage
  | .answered granted => .calling (next granted).phase
  | .broken fault => .broken (.kernel fault)

/-- A thread stands at a stage of the request that its call makes at `phase`: at the first stage,
or at a later one. -/
def Mode.Stands (kernel : Kernel κ π) (mode : Mode π) (phase : Phase) (request : Kernel.Request)
    (stage : π) : Prop :=
  (mode = .calling phase ∧ stage = kernel.start request) ∨ mode = .requesting phase stage

namespace Crowd

/-- The step of a thread whose call accesses the count. -/
theorem step_access (kernel : Kernel κ π) {spins : Nat} (plan : Plan δ σ) {phase : Phase}
    {access : Cell.Access Int64} {next : access.Reply → Turn} {thread : Thread σ π}
    (hphase : thread.mode = .calling phase) (hmove : phase.move spins = .access access next)
    (c : Circumstance) (i : Nat) (shared : Shared κ δ) :
    step kernel spins plan c i thread shared =
      some (⟨thread.state,
          .calling (next (access.perform (c.chance == .mishap) shared.count).1).phase⟩,
        { shared with count := (access.perform (c.chance == .mishap) shared.count).2 }) := by
  simp only [step, hphase, hmove]

/-- What one step of a thread does, whatever the kernel semaphore is. -/
inductive Passage (kernel : Kernel κ π) (spins : Nat) (plan : Plan δ σ) (c : Circumstance)
    (i : Nat) (before : Thread σ π) (shared : Shared κ δ) :
    Thread σ π → Shared κ δ → Prop where
  /-- Begin a call. -/
  | start (call : Call) (resume : Nat → σ) (hmode : before.mode = .idle)
      (hplan : plan before.state = .call call resume) :
      Passage kernel spins plan c i before shared
        ⟨before.state, .calling (.ofCall call)⟩ shared
  /-- Look at the shared data and change it. -/
  | touch (change : δ → δ × σ) (hmode : before.mode = .idle)
      (hplan : plan before.state = .touch change) :
      Passage kernel spins plan c i before shared ⟨(change shared.data).2, .idle⟩
        { shared with data := (change shared.data).1 }
  /-- Access the count. -/
  | access (phase : Phase) (access : Cell.Access Int64) (next : access.Reply → Turn)
      (hmode : before.mode = .calling phase) (hmove : phase.move spins = .access access next) :
      Passage kernel spins plan c i before shared
        ⟨before.state,
          .calling (next (access.perform (c.chance == .mishap) shared.count).1).phase⟩
        { shared with count := (access.perform (c.chance == .mishap) shared.count).2 }
  /-- Make one step of a request. -/
  | request (phase : Phase) (request : Kernel.Request) (next : Bool → Turn) (stage : π)
      (progress : Kernel.Progress π) (left : κ)
      (hstands : before.mode.Stands kernel phase request stage)
      (hmove : phase.move spins = .request request next)
      (hserve : kernel.step c i stage shared.kernel = some (progress, left)) :
      Passage kernel spins plan c i before shared
        ⟨before.state, .onward phase next progress⟩ { shared with kernel := left }
  /-- End a call and go on from what it took. -/
  | finish (phase : Phase) (tokens : Nat) (call : Call) (resume : Nat → σ)
      (hmode : before.mode = .calling phase) (hmove : phase.move spins = .finish (.ok tokens))
      (hplan : plan before.state = .call call resume) :
      Passage kernel spins plan c i before shared ⟨resume tokens, .idle⟩ shared
  /-- Break off. -/
  | fail (phase : Phase) (fault : Fault) (hmode : before.mode = .calling phase)
      (hmove : phase.move spins = .finish (.error fault)) :
      Passage kernel spins plan c i before shared ⟨before.state, .broken fault⟩ shared

variable {kernel : Kernel κ π} {spins : Nat} {plan : Plan δ σ} {c : Circumstance} {i : Nat}

/-- A step of a request is a step of the kernel semaphore, and leaves the rest alone. -/
theorem stepRequest_eq_some {state : σ} {phase : Phase} {next : Bool → Turn} {stage : π}
    {shared shared' : Shared κ δ} {after : Thread σ π}
    (h : stepRequest kernel c i state phase next stage shared = some (after, shared')) :
    ∃ progress left, kernel.step c i stage shared.kernel = some (progress, left) ∧
      after = ⟨state, .onward phase next progress⟩ ∧ shared' = { shared with kernel := left } := by
  unfold stepRequest at h
  cases hserve : kernel.step c i stage shared.kernel with
  | none => simp only [hserve, reduceCtorEq] at h
  | some result =>
    obtain ⟨progress, left⟩ := result
    simp only [hserve, Option.some.injEq, Prod.mk.injEq] at h
    obtain ⟨rfl, rfl⟩ := h
    refine ⟨progress, left, rfl, ?_, rfl⟩
    cases progress <;> rfl

/-- Every step is one of those. -/
theorem passage_of_step {before after : Thread σ π} {shared shared' : Shared κ δ}
    (hstep : step kernel spins plan c i before shared = some (after, shared')) :
    Passage kernel spins plan c i before shared after shared' := by
  obtain ⟨state, mode⟩ := before
  cases mode with
  | idle =>
    simp only [step] at hstep
    cases hplan : plan state with
    | call call resume =>
      simp only [hplan, Option.some.injEq, Prod.mk.injEq] at hstep
      obtain ⟨rfl, rfl⟩ := hstep
      exact .start call resume rfl hplan
    | touch change =>
      simp only [hplan, Option.some.injEq, Prod.mk.injEq] at hstep
      obtain ⟨rfl, rfl⟩ := hstep
      exact .touch change rfl hplan
    | stop => simp only [hplan, reduceCtorEq] at hstep
  | calling phase =>
    cases hmove : phase.move spins with
    | access access next =>
      rw [step_access _ _ rfl hmove, Option.some.injEq, Prod.mk.injEq] at hstep
      obtain ⟨rfl, rfl⟩ := hstep
      exact .access phase access next rfl hmove
    | request request next =>
      simp only [step, hmove] at hstep
      obtain ⟨progress, left, hserve, rfl, rfl⟩ := stepRequest_eq_some hstep
      exact .request phase request next _ progress left (.inl ⟨rfl, rfl⟩) hmove hserve
    | finish result =>
      simp only [step, hmove] at hstep
      cases result with
      | error fault =>
        simp only [Option.some.injEq, Prod.mk.injEq] at hstep
        obtain ⟨rfl, rfl⟩ := hstep
        exact .fail phase fault rfl hmove
      | ok tokens =>
        cases hplan : plan state with
        | call call resume =>
          simp only [hplan, Option.some.injEq, Prod.mk.injEq] at hstep
          obtain ⟨rfl, rfl⟩ := hstep
          exact .finish phase tokens call resume rfl hmove hplan
        | touch change => simp only [hplan, reduceCtorEq] at hstep
        | stop => simp only [hplan, reduceCtorEq] at hstep
  | requesting phase stage =>
    cases hmove : phase.move spins with
    | request request next =>
      simp only [step, hmove] at hstep
      obtain ⟨progress, left, hserve, rfl, rfl⟩ := stepRequest_eq_some hstep
      exact .request phase request next stage progress left (.inr rfl) hmove hserve
    | access access next => simp only [step, hmove, reduceCtorEq] at hstep
    | finish result => simp only [step, hmove, reduceCtorEq] at hstep
  | broken fault => simp only [step, reduceCtorEq] at hstep

end Crowd

end WordSync.Semaphore
