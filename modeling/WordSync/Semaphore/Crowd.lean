import WordSync.Pool
import WordSync.Semaphore.Solo

/-!
# Threads that share a semaphore

Each thread follows a plan of its own: it makes calls, it may touch data that the threads share
besides the semaphore, and at some point it stops. One step of a thread is one access to the
count, one step of a request to the kernel semaphore, one touch of the shared data, or the
beginning or the end of a call. The machine lets the steps of all threads mix in any order.
-/

namespace WordSync.Semaphore

/-- What a thread does next. -/
inductive Deed (δ σ : Type) where
  /-- Make a call, and go on from the number of tokens taken. -/
  | call (call : Call) (resume : Nat → σ)
  /-- Look at the shared data and change it, in one step. -/
  | touch (change : δ → δ × σ)
  /-- Nothing more. -/
  | stop

/-- What a thread does in each of its states. -/
abbrev Plan (δ σ : Type) := σ → Deed δ σ

/-- What the threads of a crowd share. -/
structure Shared (κ δ : Type) where
  /-- The count of the semaphore. -/
  count : Int64
  /-- The kernel semaphore. -/
  kernel : κ
  /-- Everything else. -/
  data : δ

/-- What a thread is occupied with. -/
inductive Mode (π : Type) where
  /-- Between two calls. -/
  | idle
  /-- In a call. -/
  | calling (phase : Phase)
  /-- In a request to the kernel semaphore, which the call made at a phase. -/
  | requesting (phase : Phase) (stage : π)
  /-- Broken off for good. -/
  | broken (fault : Fault)
  deriving DecidableEq

/-- A thread of a crowd. -/
structure Thread (σ π : Type) where
  /-- Where it stands in its plan. -/
  state : σ
  /-- What it is occupied with. -/
  mode : Mode π

/-- A crowd of threads. -/
abbrev Crowd (κ π δ σ : Type) := Pool (Shared κ δ) (Thread σ π)

namespace Crowd

variable {κ π δ σ : Type}

/-- One step of a request that a call made at `phase`, answered to `next`. -/
def stepRequest (kernel : Kernel κ π) (c : Circumstance) (i : Nat) (state : σ) (phase : Phase)
    (next : Bool → Turn) (stage : π) (shared : Shared κ δ) :
    Option (Thread σ π × Shared κ δ) :=
  match kernel.step c i stage shared.kernel with
  | none => none
  | some (progress, k) =>
    let mode := match progress with
      | .working stage => Mode.requesting phase stage
      | .answered granted => .calling (next granted).phase
      | .broken fault => .broken (.kernel fault)
    some (⟨state, mode⟩, { shared with kernel := k })

/-- One step of a thread. -/
def step (kernel : Kernel κ π) (spins : Nat) (plan : Plan δ σ) (c : Circumstance) (i : Nat)
    (thread : Thread σ π) (shared : Shared κ δ) : Option (Thread σ π × Shared κ δ) :=
  match thread.mode with
  | .idle =>
    match plan thread.state with
    | .call call _ => some (⟨thread.state, .calling (.ofCall call)⟩, shared)
    | .touch change =>
      let (data, state) := change shared.data
      some (⟨state, .idle⟩, { shared with data := data })
    | .stop => none
  | .calling phase =>
    match phase.move spins with
    | .access access next =>
      let (reply, count) := access.perform (c.chance == .mishap) shared.count
      some (⟨thread.state, .calling (next reply).phase⟩, { shared with count := count })
    | .request request next =>
      stepRequest kernel c i thread.state phase next (kernel.start request) shared
    | .finish (.error fault) => some (⟨thread.state, .broken fault⟩, shared)
    | .finish (.ok tokens) =>
      match plan thread.state with
      | .call _ resume => some (⟨resume tokens, .idle⟩, shared)
      | _ => none
  | .requesting phase stage =>
    match phase.move spins with
    | .request _ next => stepRequest kernel c i thread.state phase next stage shared
    | _ => none
  | .broken _ => none

/-- The machine whose threads all follow `plan`, each from its own state. -/
def machine (kernel : Kernel κ π) (spins : Nat) (plan : Plan δ σ) :
    Machine Circumstance (Shared κ δ) (Thread σ π) where
  step := step kernel spins plan

/-- A crowd before its first step, around a semaphore. -/
def around (π : Type) (s : Semaphore κ) (data : δ) (states : List σ) : Crowd κ π δ σ :=
  ⟨⟨s.count, s.kernel, data⟩, states.map fun state => ⟨state, .idle⟩⟩

/-- A crowd before its first step, over a new semaphore with `initial` tokens. -/
def assemble (kernel : Kernel κ π) (initial : Nat) (data : δ) (states : List σ) :
    Except Fault (Crowd κ π δ σ) := do
  let s ← Semaphore.create kernel initial 0
  return around π s data states

/-- The states of the threads. -/
def states (crowd : Crowd κ π δ σ) : List σ := crowd.threads.map Thread.state

/-- The semaphore of a crowd, for a thread that comes when all others are gone. -/
def semaphore (crowd : Crowd κ π δ σ) (spins : Nat) : Semaphore κ :=
  ⟨crowd.shared.count, spins, crowd.shared.kernel, []⟩

/-- The first fault among the threads, in their order. -/
def fault? (crowd : Crowd κ π δ σ) : Option Fault :=
  crowd.threads.findSome? fun thread =>
    match thread.mode with
    | .broken fault => some fault
    | _ => none

end Crowd

/-- A thread that makes given calls in order. -/
structure Script where
  /-- The calls that are still to be made. -/
  todo : List Call
  /-- The calls that are over, each with the number of tokens that it took, the latest first. -/
  made : List (Call × Nat)
  deriving DecidableEq

namespace Script

/-- A script of which nothing has been made. -/
def ofCalls (calls : List Call) : Script := ⟨calls, []⟩

/-- The answers so far, in the order of the calls. -/
def answers (script : Script) : List Answer :=
  script.made.reverse.map fun (call, tokens) => call.answer tokens

/-- Make the calls of a script. -/
def plan (δ : Type) : Plan δ Script
  | ⟨[], _⟩ => .stop
  | ⟨call :: rest, made⟩ => .call call fun tokens => ⟨rest, (call, tokens) :: made⟩

end Script

end WordSync.Semaphore
