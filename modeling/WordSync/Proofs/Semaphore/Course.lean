import WordSync.Proofs.Kernel.Counter
import WordSync.Proofs.Semaphore.Passage

/-!
# What a thread can do next

Over the plain counter a step of a thread begins a call, touches the shared data, accesses the
count, makes a whole request to the kernel, or ends a call. `Crowd.Course` lists these cases
with all that is known in each of them, whatever the count is and whatever the call knows.
-/

namespace WordSync.Semaphore.Crowd

variable {δ σ : Type}

/-- What one step of a thread does over the plain counter. -/
inductive Course (spins : Nat) (plan : Plan δ σ) (c : Circumstance)
    (before : Thread σ Kernel.Request) (shared : Shared Nat δ) :
    Thread σ Kernel.Request → Shared Nat δ → Prop where
  /-- Begin a call. -/
  | start (call : Call) (resume : Nat → σ) (hmode : before.mode = .idle)
      (hplan : plan before.state = .call call resume) :
      Course spins plan c before shared ⟨before.state, .calling (.ofCall call)⟩ shared
  /-- Look at the shared data and change it. -/
  | touch (change : δ → δ × σ) (hmode : before.mode = .idle)
      (hplan : plan before.state = .touch change) :
      Course spins plan c before shared ⟨(change shared.data).2, .idle⟩
        { shared with data := (change shared.data).1 }
  /-- Access the count. -/
  | access (phase : Phase) (access : Cell.Access Int64) (next : access.Reply → Turn)
      (hmode : before.mode = .calling phase) (hmove : phase.move spins = .access access next) :
      Course spins plan c before shared
        ⟨before.state,
          .calling (next (access.perform (c.chance == .mishap) shared.count).1).phase⟩
        { shared with count := (access.perform (c.chance == .mishap) shared.count).2 }
  /-- Make a request, which is answered at once. -/
  | request (phase : Phase) (request : Kernel.Request) (next : Bool → Turn) (granted : Bool)
      (tokens : Nat) (hmode : before.mode = .calling phase)
      (hmove : phase.move spins = .request request next)
      (hserve : Kernel.Counter.step c request shared.kernel = some (.answered granted, tokens)) :
      Course spins plan c before shared ⟨before.state, .calling (next granted).phase⟩
        { shared with kernel := tokens }
  /-- End a call and go on from what it took. -/
  | finish (phase : Phase) (tokens : Nat) (call : Call) (resume : Nat → σ)
      (hmode : before.mode = .calling phase) (hmove : phase.move spins = .finish (.ok tokens))
      (hplan : plan before.state = .call call resume) :
      Course spins plan c before shared ⟨resume tokens, .idle⟩ shared
  /-- Break off. -/
  | fail (phase : Phase) (fault : Fault) (hmode : before.mode = .calling phase)
      (hmove : phase.move spins = .finish (.error fault)) :
      Course spins plan c before shared ⟨before.state, .broken fault⟩ shared

/-- Every step is one of those. No thread is in the middle of a request, as requests to the
plain counter are over at once. -/
theorem course_of_step {spins : Nat} {plan : Plan δ σ} {c : Circumstance} {i : Nat}
    {before after : Thread σ Kernel.Request} {shared shared' : Shared Nat δ}
    (hstep : step Kernel.Counter.kernel spins plan c i before shared = some (after, shared'))
    (hwhole : ∀ phase stage, before.mode ≠ .requesting phase stage) :
    Course spins plan c before shared after shared' := by
  cases passage_of_step hstep with
  | start call resume hmode hplan => exact .start call resume hmode hplan
  | touch change hmode hplan => exact .touch change hmode hplan
  | access phase access next hmode hmove => exact .access phase access next hmode hmove
  | request phase request next stage progress left hstands hmove hserve =>
    rcases hstands with ⟨hmode, hstart⟩ | hmode
    · obtain rfl : stage = request := hstart
      obtain ⟨granted, rfl⟩ := Kernel.Counter.step_answered hserve
      exact .request phase stage next granted left hmode hmove hserve
    · exact absurd hmode (hwhole phase stage)
  | finish phase tokens call resume hmode hmove hplan =>
    exact .finish phase tokens call resume hmode hmove hplan
  | fail phase fault hmode hmove => exact .fail phase fault hmode hmove

end WordSync.Semaphore.Crowd
