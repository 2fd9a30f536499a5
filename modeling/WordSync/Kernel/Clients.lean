import WordSync.Kernel.Basic
import WordSync.Pool

/-!
# Threads that share a kernel semaphore

A client of a kernel semaphore makes one request after the other, and which one comes next may
depend on the answers so far. One step of a client is one step of its request, or the beginning or
the end of one; the steps of all clients mix in any order.
-/

namespace WordSync.Kernel

/-- What a client does in each of its states: the request that it makes, and how it goes on from
the answer; nothing if it stops. -/
abbrev Agenda (σ : Type) := σ → Option (Request × (Bool → σ))

/-- Make given requests in order, whatever they are answered. -/
def Agenda.inOrder : Agenda (List Request)
  | [] => none
  | request :: rest => some (request, fun _ => rest)

/-- What a client is occupied with. -/
inductive Occupation (π : Type) where
  /-- Between two requests. -/
  | idle
  /-- In a request. -/
  | requesting (stage : π)
  /-- With the answer of a request. -/
  | answered (granted : Bool)
  /-- Broken off for good. -/
  | broken (fault : Fault)
  deriving DecidableEq

/-- A client. -/
structure Client (σ π : Type) where
  /-- Where it stands in its agenda. -/
  state : σ
  /-- What it is occupied with. -/
  occupation : Occupation π

/-- Clients and the semaphore that they share. -/
abbrev Clients (κ π σ : Type) := Pool κ (Client σ π)

namespace Clients

variable {κ π σ : Type}

/-- One step of a client. -/
def step (kernel : Kernel κ π) (agenda : Agenda σ) (c : Circumstance) (i : Nat)
    (client : Client σ π) (semaphore : κ) : Option (Client σ π × κ) :=
  match client.occupation with
  | .idle =>
    match agenda client.state with
    | none => none
    | some (request, _) => some (⟨client.state, .requesting (kernel.start request)⟩, semaphore)
  | .requesting stage =>
    match kernel.step c i stage semaphore with
    | none => none
    | some (progress, semaphore) =>
      let occupation := match progress with
        | .working stage => Occupation.requesting stage
        | .answered granted => .answered granted
        | .broken fault => .broken fault
      some (⟨client.state, occupation⟩, semaphore)
  | .answered granted =>
    match agenda client.state with
    | none => none
    | some (_, resume) => some (⟨resume granted, .idle⟩, semaphore)
  | .broken _ => none

/-- The machine whose clients all follow `agenda`, each from its own state. -/
def machine (kernel : Kernel κ π) (agenda : Agenda σ) :
    Machine Circumstance κ (Client σ π) where
  step := step kernel agenda

/-- Clients before their first steps, with a new semaphore of `initial` tokens. -/
def assemble (kernel : Kernel κ π) (initial : Nat) (states : List σ) :
    Except Fault (Clients κ π σ) := do
  let semaphore ← kernel.create initial
  return ⟨semaphore, states.map fun state => ⟨state, .idle⟩⟩

end Clients

end WordSync.Kernel
