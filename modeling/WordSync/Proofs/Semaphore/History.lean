import Mathlib.Data.Set.Defs
import WordSync.Kernel.Counter
import WordSync.Proofs.Observation
import WordSync.Semaphore.Crowd

/-!
# What has happened around a semaphore

A history says which calls the threads of a crowd have made, what the calls have answered, which
requests they have made to the kernel and how these were answered. How often a call has looked
at the count, and by which accesses it has come to its tokens, is not part of it. `outcomes` are
the histories of the runs that have come to rest, with what they leave in the semaphore.
-/

namespace WordSync

/-- Whether an access makes the count that it finds wrap around. -/
def Cell.Access.wraps (access : Cell.Access Int64) (found : Int64) : Bool :=
  match access with
  | .fetchAdd n => (found + n).toInt != found.toInt + n.toInt
  | .fetchSub n => (found - n).toInt != found.toInt - n.toInt
  | _ => false

namespace Semaphore

variable {δ σ : Type}

/-- Something that happens in a call and can be told from outside. -/
inductive Event where
  /-- A call has begun. -/
  | called (call : Call)
  /-- The kernel semaphore has answered a request, with or without a token. -/
  | asked (request : Kernel.Request) (granted : Bool)
  /-- A call has returned. -/
  | returned (answer : Answer)
  /-- A call has been broken off. -/
  | broke (fault : Fault)
  deriving DecidableEq

/-- What happens in a step of a thread, which was `before` and found the semaphore as `found`. A
token has been granted if the kernel has fewer of them afterwards. -/
def Event.ofStep (spins : Nat) (plan : Plan δ σ) (before : Thread σ Kernel.Request)
    (found left : Shared Nat δ) : Option Event :=
  match before.mode with
  | .idle =>
    match plan before.state with
    | .call call _ => some (.called call)
    | _ => none
  | .calling phase =>
    match phase.move spins with
    | .access _ _ => none
    | .request request _ => some (.asked request (left.kernel < found.kernel))
    | .finish (.ok tokens) =>
      match plan before.state with
      | .call call _ => some (.returned (call.answer tokens))
      | _ => none
    | .finish (.error fault) => some (.broke fault)
  | _ => none

/-- Whether a thread makes the count that it finds wrap around. -/
def Thread.wraps (spins : Nat) (thread : Thread σ Kernel.Request) (count : Int64) : Bool :=
  match thread.mode with
  | .calling phase =>
    match phase.move spins with
    | .access access _ => access.wraps count
    | _ => false
  | _ => false

/-- What has happened in a run. -/
structure History where
  /-- The events in their order, each with the number of its thread. -/
  events : List (Nat × Event)
  /-- Whether the count has wrapped around. -/
  wrapped : Bool
  deriving DecidableEq

namespace History

/-- The history of a run that has not begun. -/
def empty : History := ⟨[], false⟩

/-- The history after a step. -/
def note (spins : Nat) (plan : Plan δ σ) :
    Observer (Shared Nat δ) (Thread σ Kernel.Request) History := fun i before after history =>
  ⟨history.events ++ ((Event.ofStep spins plan before.1 before.2 after.2).map (i, ·)).toList,
    history.wrapped || before.1.wraps spins before.2.count⟩

/-- The events of one thread in their order. -/
def of (history : History) (i : Nat) : List Event :=
  (history.events.filter (·.1 = i)).map Prod.snd

end History

/-- A crowd with its history. -/
abbrev Chronicled (δ σ : Type) := Pool (Shared Nat δ × History) (Thread σ Kernel.Request)

/-- The machine of a crowd that keeps a history. -/
def Crowd.chronicled (spins : Nat) (plan : Plan δ σ) :
    Machine Circumstance (Shared Nat δ × History) (Thread σ Kernel.Request) :=
  (machine Kernel.Counter.kernel spins plan).observed (History.note spins plan)

/-- The request to an empty kernel semaphore in which a thread is blocked. -/
def Mode.blockedIn {π : Type} : Mode π → Option Kernel.Request
  | .calling (.park _ .forever) => some .wait
  | .calling (.park _ (.within timeout)) => some (.timedWait timeout)
  | _ => none

/-- What has become of a thread. -/
structure Story (σ : Type) where
  /-- Where it stands in its plan. -/
  state : σ
  /-- Its calls and what has happened in them. -/
  events : List Event
  /-- The request in which it is blocked, if its last call is not over. -/
  blocked : Option Kernel.Request

/-- What a run has led to. -/
structure Outcome (δ σ : Type) where
  /-- What has become of each thread. -/
  stories : List (Story σ)
  /-- The count. -/
  count : Int64
  /-- The tokens in the kernel. -/
  kernel : Nat
  /-- What the threads share besides. -/
  data : δ

namespace Chronicled

/-- Every call has returned, has been broken off, or is blocked in the kernel, which has no
token. -/
def AtRest (pool : Chronicled δ σ) : Prop :=
  ∀ thread ∈ pool.threads, thread.mode = .idle ∨ (∃ fault, thread.mode = .broken fault) ∨
    (thread.mode.blockedIn.isSome ∧ pool.shared.1.kernel = 0)

/-- What a run that has led to a pool amounts to. -/
def outcome (pool : Chronicled δ σ) : Outcome δ σ where
  stories := pool.threads.mapIdx fun i thread =>
    ⟨thread.state, pool.shared.2.of i, thread.mode.blockedIn⟩
  count := pool.shared.1.count
  kernel := pool.shared.1.kernel
  data := pool.shared.1.data

end Chronicled

/-- The outcomes of the runs that come to rest without the count ever wrapping around. -/
def Crowd.outcomes (spins : Nat) (plan : Plan δ σ) (crowd : Crowd Nat Kernel.Request δ σ) :
    Set (Outcome δ σ) :=
  fun outcome => ∃ pool : Chronicled δ σ,
    (chronicled spins plan).Reaches (crowd.noted .empty) pool ∧
      pool.AtRest ∧ pool.shared.2.wrapped = false ∧ pool.outcome = outcome

end Semaphore

end WordSync
