import Mathlib.Data.List.Basic
import Mathlib.Data.Set.Defs
import WordSync.Proofs.Semaphore.Forms
import WordSync.Proofs.Semaphore.Passage
import WordSync.Proofs.Simulation

/-!
# Tales of a crowd

A tale is what can be told of a run from outside, over any kernel semaphore: which calls the
threads have made and how these have ended, what they have asked of the kernel, what it has
answered, and what there was to say. The tales of a crowd do not depend on the form in which its
threads ask for single tokens, except that the calls and their answers are told in that form.
-/

namespace WordSync.Semaphore

variable {κ π δ σ : Type}

/-! ## What can be told of a run -/

/-- Something that a thread does and that can be told from outside. -/
inductive Sign where
  /-- A call has begun. -/
  | called (call : Call)
  /-- There was something to say. -/
  | noted (record : Record)
  /-- The kernel semaphore has been asked for something. -/
  | asked (request : Kernel.Request)
  /-- The kernel semaphore has answered. -/
  | answered (granted : Bool)
  /-- A call has returned. -/
  | returned (call : Call) (answer : Answer)
  /-- A call has been broken off. -/
  | broke (fault : Fault)
  deriving DecidableEq

/-- What can be told of a run that has not come to its end. -/
structure Tale (κ δ σ : Type) where
  /-- What the threads have done, each sign with the number of the thread. -/
  signs : List (Nat × Sign)
  /-- What the threads share. -/
  shared : Shared κ δ
  /-- Where the threads stand in their plans. -/
  states : List σ

namespace Crowd

/-- What can be told of one step of a request. -/
def requestSigns (kernel : Kernel κ π) (c : Circumstance) (i : Nat) (stage : π)
    (next : Bool → Turn) (k : κ) : List Sign :=
  match kernel.step c i stage k with
  | some (.answered granted, _) => .answered granted :: (next granted).record.toList.map .noted
  | some (.broken fault, _) => [.broke (.kernel fault)]
  | _ => []

/-- What can be told of one step. -/
def signs (kernel : Kernel κ π) (spins : Nat) (plan : Plan δ σ)
    (e : Moment Circumstance (Shared κ δ) (Thread σ π)) : List Sign :=
  match e.before.mode with
  | .idle =>
    match plan e.before.state with
    | .call call _ => [.called call]
    | _ => []
  | .calling phase =>
    match phase.move spins with
    | .access access next =>
      (next (access.perform (e.circumstance.chance == .mishap) e.found.count).1).record.toList.map
        .noted
    | .request request next =>
      .asked request ::
        requestSigns kernel e.circumstance e.number (kernel.start request) next e.found.kernel
    | .finish (.ok tokens) =>
      match plan e.before.state with
      | .call call _ => [.returned call (call.answer tokens)]
      | _ => []
    | .finish (.error fault) => [.broke fault]
  | .requesting phase stage =>
    match phase.move spins with
    | .request _ next =>
      requestSigns kernel e.circumstance e.number stage next e.found.kernel
    | _ => []
  | .broken _ => []

/-- What can be told of the runs of a crowd, at any time. -/
def tales (kernel : Kernel κ π) (spins : Nat) (plan : Plan δ σ) (crowd : Crowd κ π δ σ) :
    Set (Tale κ δ σ) :=
  fun tale => ∃ log pool, (machine kernel spins plan).Recorded crowd log pool ∧
    tale = ⟨log.flatMap fun e => (signs kernel spins plan e).map (e.number, ·), pool.shared,
      states pool⟩

end Crowd

/-! ## Translating crowds -/

/-- A plan whose calls are in the form for several tokens. -/
def Plan.batched (plan : Plan δ σ) : Plan δ σ := fun state =>
  match plan state with
  | .call call resume => .call call.batched resume
  | deed => deed

/-- A plan whose calls are in the form for several tokens where `pick` says so. -/
def Plan.batchedAt (pick : σ → Bool) (plan : Plan δ σ) : Plan δ σ := fun state =>
  match plan state with
  | .call call resume => .call (if pick state then call.batched else call) resume
  | deed => deed

/-- A mode of a thread whose calls are in the form for several tokens. -/
def Mode.batched : Mode π → Mode π
  | .calling phase => .calling phase.batched
  | .requesting phase stage => .requesting phase.batched stage
  | mode => mode

/-- A thread whose calls are in the form for several tokens. -/
def Thread.batched (thread : Thread σ π) : Thread σ π := ⟨thread.state, thread.mode.batched⟩

/-- What is told of a call in the form for several tokens. -/
def Sign.inBatch : Sign → Sign
  | .called call => .called call.batched
  | .returned call answer => .returned call.batched (call.inBatch answer)
  | sign => sign

/-- What is told of a run if the calls are in the form for several tokens. -/
def Tale.inBatch (tale : Tale κ δ σ) : Tale κ δ σ :=
  { tale with signs := tale.signs.map (Prod.map id Sign.inBatch) }

/-- A call that is in the form for several tokens stays as it is. -/
theorem Call.batched_batched (call : Call) : call.batched.batched = call.batched := by
  cases call with
  | attempt demand => cases demand <;> rfl
  | acquire demand patience => cases demand <;> rfl
  | signal count => rfl

/-- If the remaining calls are brought into the form for several tokens, all of them are. -/
theorem Plan.batched_batchedAt (pick : σ → Bool) (plan : Plan δ σ) :
    (plan.batchedAt pick).batched = plan.batched := by
  funext state
  simp only [batched, batchedAt]
  cases plan state with
  | call call resume =>
    dsimp only
    split
    · rw [Call.batched_batched]
    · rfl
  | touch change => rfl
  | stop => rfl

/-- A thread that is in a call is where that call may be. -/
def Thread.Fits (plan : Plan δ σ) (thread : Thread σ π) : Prop :=
  match thread.mode with
  | .calling phase => ∃ call resume, plan thread.state = .call call resume ∧ call.At phase
  | .requesting phase _ => ∃ call resume, plan thread.state = .call call resume ∧ call.At phase
  | _ => True

namespace Crowd

variable {kernel : Kernel κ π} {spins : Nat} {plan : Plan δ σ} {c : Circumstance} {i : Nat}

/-! ## Every thread is where its call may be -/

/-- A thread at a stage of a request is where its call may be. -/
theorem exists_call_of_stands {thread : Thread σ π} {phase : Phase} {request : Kernel.Request}
    {stage : π} (hfits : thread.Fits plan)
    (hstands : thread.mode.Stands kernel phase request stage) :
    ∃ call resume, plan thread.state = .call call resume ∧ call.At phase := by
  obtain ⟨state, mode⟩ := thread
  rcases hstands with ⟨rfl, -⟩ | rfl
  · exact hfits
  · exact hfits

/-- Every step leads a thread to where its call may be. -/
theorem fits_of_step {before after : Thread σ π} {shared shared' : Shared κ δ}
    (hstep : step kernel spins plan c i before shared = some (after, shared'))
    (hfits : before.Fits plan) : after.Fits plan := by
  obtain ⟨state, mode⟩ := before
  cases passage_of_step hstep with
  | start call resume hmode hplan => exact ⟨call, resume, hplan, .start call⟩
  | touch => trivial
  | access phase access next hmode hmove =>
    obtain rfl : mode = .calling phase := hmode
    obtain ⟨call, resume, hplan, hat⟩ := hfits
    exact ⟨call, resume, hplan, hat.access hmove _ _⟩
  | request phase request next stage progress left hstands hmove hserve =>
    obtain ⟨call, resume, hplan, hat⟩ := exists_call_of_stands hfits hstands
    cases progress with
    | working stage => exact ⟨call, resume, hplan, hat⟩
    | answered granted => exact ⟨call, resume, hplan, hat.request hmove granted⟩
    | broken fault => trivial
  | finish => trivial
  | fail => trivial

/-! ## Both forms make the same steps -/

/-- A request of either form is served in the same way. -/
theorem stepRequest_batched (kernel : Kernel κ π) (c : Circumstance) (i : Nat) (state : σ)
    (phase : Phase) (next : Bool → Turn) (stage : π) (shared : Shared κ δ) :
    stepRequest kernel c i state phase.batched (fun granted => (next granted).map Phase.batched)
        stage shared =
      (stepRequest kernel c i state phase next stage shared).map (Prod.map Thread.batched id) := by
  unfold stepRequest
  cases kernel.step c i stage shared.kernel with
  | none => rfl
  | some result =>
    obtain ⟨progress, k⟩ := result
    cases progress <;> rfl

/-- A thread makes the same step in both forms. -/
theorem step_batched (kernel : Kernel κ π) (spins : Nat) (c : Circumstance) (i : Nat)
    {thread : Thread σ π} (hfits : thread.Fits plan) (shared : Shared κ δ) :
    step kernel spins plan.batched c i thread.batched shared =
      (step kernel spins plan c i thread shared).map (Prod.map Thread.batched id) := by
  obtain ⟨state, mode⟩ := thread
  cases mode with
  | idle =>
    simp only [step, Thread.batched, Mode.batched, Plan.batched]
    cases plan state with
    | call call resume =>
      simp only [← Phase.batched_ofCall]
      rfl
    | touch change => rfl
    | stop => rfl
  | calling phase =>
    obtain ⟨call, resume, hplan, hat⟩ := hfits
    have hplan' : plan state = .call call resume := hplan
    simp only [step, Thread.batched, Mode.batched, Phase.move_batched spins hat.sound]
    cases phase.move spins with
    | access access next => rfl
    | request request next => exact stepRequest_batched kernel c i state phase next _ shared
    | finish result =>
      cases result with
      | error fault => rfl
      | ok tokens =>
        simp only [Move.map, Plan.batched, hplan']
        rfl
  | requesting phase stage =>
    obtain ⟨call, resume, hplan, hat⟩ := hfits
    simp only [step, Thread.batched, Mode.batched, Phase.move_batched spins hat.sound]
    cases phase.move spins with
    | access access next => rfl
    | request request next => exact stepRequest_batched kernel c i state phase next stage shared
    | finish result => rfl
  | broken fault => rfl

/-- The same is told of a request in both forms. -/
theorem requestSigns_batched (kernel : Kernel κ π) (c : Circumstance) (i : Nat) (stage : π)
    (next : Bool → Turn) (k : κ) :
    requestSigns kernel c i stage (fun granted => (next granted).map Phase.batched) k =
      (requestSigns kernel c i stage next k).map Sign.inBatch := by
  have hrecords (turn : Turn) : turn.record.toList.map Sign.noted =
      (turn.record.toList.map Sign.noted).map Sign.inBatch := by
    rw [List.map_map]
    rfl
  unfold requestSigns
  cases kernel.step c i stage k with
  | none => rfl
  | some result =>
    obtain ⟨progress, k⟩ := result
    cases progress with
    | working stage => rfl
    | answered granted => exact congrArg (.answered granted :: ·) (hrecords (next granted))
    | broken fault => rfl

/-- The same is told of a step in both forms. -/
theorem signs_batched {e : Moment Circumstance (Shared κ δ) (Thread σ π)}
    (hfits : e.before.Fits plan) :
    signs kernel spins plan.batched (e.map Thread.batched) =
      (signs kernel spins plan e).map Sign.inBatch := by
  obtain ⟨circumstance, number, ⟨state, mode⟩, found, after, left⟩ := e
  cases mode with
  | idle =>
    simp only [signs, Moment.map, Thread.batched, Mode.batched, Plan.batched]
    cases plan state <;> rfl
  | calling phase =>
    obtain ⟨call, resume, hplan, hat⟩ := hfits
    have hplan' : plan state = .call call resume := hplan
    simp only [signs, Moment.map, Thread.batched, Mode.batched,
      Phase.move_batched spins hat.sound]
    cases hmove : phase.move spins with
    | access access next =>
      simp only [Move.map, Turn.map, List.map_map]
      rfl
    | request request next =>
      exact congrArg (.asked request :: ·) (requestSigns_batched kernel _ _ _ next _)
    | finish result =>
      cases result with
      | error fault => rfl
      | ok tokens =>
        have htakes := (hat.finish hmove).2
        simp only [Move.map, Plan.batched, hplan', htakes.answer_batched]
        rfl
  | requesting phase stage =>
    obtain ⟨call, resume, hplan, hat⟩ := hfits
    simp only [signs, Moment.map, Thread.batched, Mode.batched,
      Phase.move_batched spins hat.sound]
    cases phase.move spins with
    | access access next => rfl
    | request request next => exact requestSigns_batched kernel _ _ _ next _
    | finish result => rfl
  | broken fault => rfl

/-! ## Both forms have the same tales -/

/-- The signs of a recorded run in the form for several tokens. -/
theorem flatMap_signs_batched {log : List (Moment Circumstance (Shared κ δ) (Thread σ π))}
    (hfits : ∀ e ∈ log, e.before.Fits plan) :
    ((log.map (Moment.map Thread.batched)).flatMap fun e =>
        (signs kernel spins plan.batched e).map (e.number, ·)) =
      (log.flatMap fun e => (signs kernel spins plan e).map (e.number, ·)).map
        (Prod.map id Sign.inBatch) := by
  rw [List.flatMap_map, List.map_flatMap]
  refine List.flatMap_congr fun e he => ?_
  rw [signs_batched (hfits e he), List.map_map, List.map_map]
  rfl

/-- In the form for several tokens threads stand in their plans where they stand otherwise. -/
theorem states_batched (pool : Crowd κ π δ σ) : states (pool.map Thread.batched) = states pool := by
  simp only [states, Pool.map, List.map_map]
  rfl

/-- Before the first step no thread is in a call. -/
theorem around_batched (s : Semaphore κ) (data : δ) (threads : List σ) :
    (around π s data threads).map Thread.batched = around π s data threads := by
  apply Pool.map_eq_self
  intro thread hthread
  obtain ⟨state, -, rfl⟩ := List.mem_map.mp hthread
  rfl

/-- The tales of a crowd whose calls are in the form for several tokens are the tales of the
crowd, told in that form. -/
theorem tales_batched (kernel : Kernel κ π) (spins : Nat) (plan : Plan δ σ) (s : Semaphore κ)
    (data : δ) (threads : List σ) :
    tales kernel spins plan.batched (around π s data threads) =
      Set.image Tale.inBatch (tales kernel spins plan (around π s data threads)) := by
  have hstart : ∀ thread ∈ (around π s data threads : Crowd κ π δ σ).threads,
      thread.Fits plan := by
    intro thread hthread
    obtain ⟨state, -, rfl⟩ := List.mem_map.mp hthread
    trivial
  have hsame (c : Circumstance) (i : Nat) (thread : Thread σ π) (shared : Shared κ δ)
      (hfits : thread.Fits plan) :
      (machine kernel spins plan.batched).step c i thread.batched shared =
        ((machine kernel spins plan).step c i thread shared).map (Prod.map Thread.batched id) :=
    step_batched kernel spins c i hfits shared
  have hkeep (c : Circumstance) (i : Nat) (before : Thread σ π) (shared : Shared κ δ)
      (after : Thread σ π) (shared' : Shared κ δ)
      (hstep : (machine kernel spins plan).step c i before shared = some (after, shared')) :
      before.Fits plan → after.Fits plan := fits_of_step hstep
  ext tale
  constructor
  · rintro ⟨log', pool', hrun', rfl⟩
    rw [← around_batched] at hrun'
    obtain ⟨log, pool, hrun, rfl, rfl⟩ := hrun'.exists_of_map hsame hkeep hstart
    refine ⟨_, ⟨log, pool, hrun, rfl⟩, ?_⟩
    rw [flatMap_signs_batched (hrun.keeps hstart hkeep).2, states_batched]
    rfl
  · rintro ⟨_, ⟨log, pool, hrun, rfl⟩, rfl⟩
    have hrun' := hrun.map hsame hkeep hstart
    rw [around_batched] at hrun'
    refine ⟨_, _, hrun', ?_⟩
    rw [flatMap_signs_batched (hrun.keeps hstart hkeep).2, states_batched]
    rfl

end Crowd

/-- A call in the form for several tokens does what it does in the form for one. Whatever serves
the requests of a thread, both forms ask the same of the kernel in the same order, leave the same
semaphore with the same journal, and come to the same end; where the one form says whether it has
got its token, the other says how many it has got. Among other threads, over any kernel, the same
can be told of both, whether all calls of a crowd are brought into the other form or just some. -/
theorem forms_agree :
    (∀ {κ : Type} (serve : Server κ) (call : Call) (s : Semaphore κ),
      s.call serve call.batched = ((s.call serve call).1.map call.inBatch, (s.call serve call).2) ∧
        inquiries serve (.call call.batched) s = inquiries serve (.call call) s ∧
        ∀ moves, run serve moves (.ofCall call.batched) s = run serve moves (.ofCall call) s) ∧
      ∀ {κ π δ σ : Type} (kernel : Kernel κ π) (spins : Nat) (plan : Plan δ σ) (s : Semaphore κ)
        (data : δ) (states : List σ),
        Crowd.tales kernel spins plan.batched (Crowd.around π s data states) =
            Set.image Tale.inBatch
              (Crowd.tales kernel spins plan (Crowd.around π s data states)) ∧
          ∀ pick, Set.image Tale.inBatch
              (Crowd.tales kernel spins (plan.batchedAt pick) (Crowd.around π s data states)) =
            Set.image Tale.inBatch
              (Crowd.tales kernel spins plan (Crowd.around π s data states)) := by
  constructor
  · intro κ serve call s
    exact ⟨call_batched serve call s, inquiries_batched serve call s,
      fun moves => run_ofCall_batched serve moves call s⟩
  · intro κ π δ σ kernel spins plan s data states
    refine ⟨Crowd.tales_batched kernel spins plan s data states, fun pick => ?_⟩
    rw [← Crowd.tales_batched, Plan.batched_batchedAt, Crowd.tales_batched]

end WordSync.Semaphore
