import WordSync.Semaphore.Crowd

/-!
# Benaphores

A mutual-exclusion lock made from a semaphore with one token: whoever has the token holds the
lock. A `Mutex` is such a lock together with the value that it guards. `Counting` is a plan for
threads that share the value under the lock; it reads and writes in separate steps, so that it
would lose additions if two threads ever held the lock at once. How two numbers are added is a
parameter of it. A thread whose sum is refused gives the lock back and stops there.
-/

namespace WordSync

namespace Benaphore

open Semaphore

/-- Take the lock, waiting for it. -/
def lock : Call := .acquire .one .forever

/-- Take the lock if it is free. -/
def tryLock : Call := .attempt .one

/-- Give the lock back. -/
def unlock : Call := .signal 1

/-- A new lock, which is free. -/
def create {κ π : Type} (kernel : Kernel κ π) : Except Fault (Semaphore κ) :=
  Semaphore.create kernel 1 defaultSpins

/-- Whether somebody holds the lock. -/
def isLocked {κ : Type} (gate : Semaphore κ) : Bool := gate.available == 0

end Benaphore

/-- A value behind a lock. -/
structure Mutex (κ : Type) where
  /-- The lock. -/
  gate : Semaphore κ
  /-- The value that the lock guards. -/
  value : UInt64

namespace Mutex

open Semaphore

variable {κ : Type}

/-- Make a call on the lock. -/
def onGate (serve : Server κ) (call : Call) (m : Mutex κ) : Except Fault Answer × Mutex κ :=
  let (result, gate) := m.gate.call serve call
  (result, ⟨gate, m.value⟩)

/-- Add to the value, modulo its size, unless the lock is held: the new value, or nothing. -/
def addIfFree (serve : Server κ) (n : UInt64) (m : Mutex κ) :
    Except Fault (Option UInt64) × Mutex κ :=
  match m.onGate serve Benaphore.tryLock with
  | (.ok (.granted true), m) =>
    let value := m.value + n
    let (released, m) := onGate serve Benaphore.unlock ⟨m.gate, value⟩
    (released.map fun _ => some value, m)
  | (.ok _, m) => (.ok none, m)
  | (.error fault, m) => (.error fault, m)

end Mutex

namespace Benaphore

open Semaphore

/-- A way to add two numbers: the sum, or nothing if it is refused. -/
abbrev Adder := UInt64 → UInt64 → Option UInt64

/-- The sum modulo its size. -/
def Adder.wrapping : Adder := fun a b => some (a + b)

/-- The sum, provided that it is not too large. -/
def Adder.exact : Adder := fun a b =>
  if a.toNat + b.toNat < UInt64.size then some (a + b) else none

/-- The data that threads share under the lock. -/
structure Tally where
  /-- A sum. -/
  value : UInt64
  /-- How often the lock was taken. -/
  locks : Nat
  deriving DecidableEq

/-- Where a thread stands that adds under the lock. -/
inductive CountingStep where
  /-- Without the lock. -/
  | outside
  /-- With the lock. -/
  | holding
  /-- With the lock, after reading the sum. -/
  | read (value : UInt64)
  /-- With the lock, the new sum having been refused. -/
  | refused
  /-- Without the lock, broken off after a refusal. -/
  | failed
  /-- With the lock, after writing the sum. -/
  | written
  /-- With the lock, after reading how often it was taken. -/
  | counting (locks : Nat)
  /-- With the lock, and nothing left to do with it. -/
  | leaving
  deriving DecidableEq

/-- A thread that adds a number under the lock, round after round. -/
structure Counting where
  /-- The number that it adds. -/
  number : UInt64
  /-- The rounds that are still to come, with the one under way. -/
  rounds : Nat
  /-- Where it stands in its round. -/
  step : CountingStep
  deriving DecidableEq

/-- Lock, add to the sum, count the lock, unlock. -/
def Counting.plan (add : Adder) : Plan Tally Counting := fun thread =>
  match thread.step with
  | .outside =>
    match thread.rounds with
    | 0 => .stop
    | _ + 1 => .call lock fun _ => ⟨thread.number, thread.rounds, .holding⟩
  | .holding => .touch fun tally => (tally, ⟨thread.number, thread.rounds, .read tally.value⟩)
  | .read value =>
    match add value thread.number with
    | some sum => .touch fun tally =>
      (⟨sum, tally.locks⟩, ⟨thread.number, thread.rounds, .written⟩)
    | none => .touch fun tally => (tally, ⟨thread.number, thread.rounds, .refused⟩)
  | .written => .touch fun tally =>
    (tally, ⟨thread.number, thread.rounds, .counting tally.locks⟩)
  | .counting locks => .touch fun tally =>
    (⟨tally.value, locks + 1⟩, ⟨thread.number, thread.rounds, .leaving⟩)
  | .leaving => .call unlock fun _ => ⟨thread.number, thread.rounds - 1, .outside⟩
  | .refused => .call unlock fun _ => ⟨thread.number, thread.rounds, .failed⟩
  | .failed => .stop

/-- Let thread `i` of a number of threads add `i` to a value under a lock, for a number of
rounds; then take the lock once more and look: what the threads have shared, and whether the
lock is held. A thread whose sum was refused is an overflow. -/
def countTogether {κ π : Type} (kernel : Kernel κ π) (add : Adder) (threads rounds : Nat)
    (value : UInt64) : Except Fault (Tally × Bool) := do
  let states := (List.range threads).map fun i => Counting.mk (.ofNat i) rounds .outside
  let crowd ← Crowd.assemble kernel 1 (Tally.mk value 0) states
  let machine := Crowd.machine kernel defaultSpins (Counting.plan add)
  let sweeps := (2 * defaultSpins + 64) * (threads * rounds + 1)
  let crowd := machine.settle .usual none sweeps crowd
  let failed := (Crowd.states crowd).any fun thread => thread.step == .failed
  let (locked, gate) := (Crowd.semaphore crowd defaultSpins).call (serverOf kernel) lock
  match Crowd.fault? crowd, locked with
  | some fault, _ => .error fault
  | none, .error fault => .error fault
  | none, .ok _ => if failed then .error .overflow else .ok (crowd.shared.data, isLocked gate)

end Benaphore

end WordSync
