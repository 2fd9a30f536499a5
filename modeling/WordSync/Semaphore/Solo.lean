import WordSync.Semaphore.Phase

/-!
# Semaphores and calls without interruption

A semaphore is its count, the number of times a call looks again before it registers as a
waiter, and the state of the kernel semaphore under it. Here calls run from beginning to end
without other threads between their accesses to the count. What the kernel semaphore does with a
request is a parameter, and it is handed the whole semaphore: other threads may act on it for as
long as a request lasts.
-/

namespace WordSync

/-- A semaphore over a kernel semaphore with states `κ`. -/
structure Semaphore (κ : Type) where
  /-- The count: tokens on offer, or waiters if it is negative. -/
  count : Int64
  /-- How often a call looks again before it registers as a waiter. -/
  spins : Nat
  /-- The kernel semaphore. -/
  kernel : κ
  /-- What calls have had to say. -/
  journal : Journal

namespace Semaphore

/-- How often a call looks again unless told otherwise. -/
def defaultSpins : Nat := 10000

/-- What serves requests to the kernel semaphore of a semaphore. -/
abbrev Server (κ : Type) :=
  Kernel.Request → Semaphore κ → Except Kernel.Fault Bool × Semaphore κ

variable {κ π : Type}

/-- Serve requests by a kernel semaphore that leaves the rest of the semaphore alone. A fault
that leaves a record is entered into the journal. -/
def serverOf (kernel : Kernel κ π) : Server κ := fun request s =>
  match kernel.serve request s.kernel with
  | (.ok granted, k) => (.ok granted, { s with kernel := k })
  | (.error fault, k) =>
    (.error fault, { s with kernel := k, journal := s.journal ++ fault.record?.toList })

/-- A new semaphore with `initial` tokens over a new kernel semaphore without any. -/
def create (kernel : Kernel κ π) (initial spins : Nat) : Except Fault (Semaphore κ) :=
  if Count.limit < initial then .error (.initialTooLarge initial)
  else match kernel.create 0 with
    | .ok k => .ok ⟨.ofNat initial, spins, k, []⟩
    | .error fault => .error (.kernel fault)

/-- The semaphore after a turn of a call: what the turn has to say is in the journal. -/
def noted (s : Semaphore κ) (turn : Turn) : Semaphore κ :=
  { s with journal := s.journal ++ turn.record.toList }

/-- Let a call go on from a phase for up to `moves` moves. -/
def run (serve : Server κ) : Nat → Phase → Semaphore κ → Except Fault Nat × Semaphore κ
  | 0, _, s => (.error .unfinished, s)
  | moves + 1, phase, s =>
    match phase.move s.spins with
    | .access access next =>
      let (reply, count) := access.perform false s.count
      let turn := next reply
      run serve moves turn.phase ({ s with count := count }.noted turn)
    | .request request next =>
      match serve request s with
      | (.ok granted, s) =>
        let turn := next granted
        run serve moves turn.phase (s.noted turn)
      | (.error fault, s) => (.error (.kernel fault), s)
    | .finish result => (result, s)

/-- More moves than a call makes that is served promptly: two for each look at the count, and
enough for everything else. -/
def movesFor (s : Semaphore κ) : Nat := 2 * s.spins + 256

/-- Make a call: its answer, and the semaphore afterwards. -/
def call (serve : Server κ) (call : Call) (s : Semaphore κ) :
    Except Fault Answer × Semaphore κ :=
  let (result, s) := run serve s.movesFor (.ofCall call) s
  (result.map call.answer, s)

/-- The tokens on offer. -/
def available (s : Semaphore κ) : Nat := Count.available s.count

/-- The text of a semaphore, which shows nothing of the kernel semaphore. -/
def text (s : Semaphore κ) : String :=
  Text.openRecord "LightweightSemaphore"
    [("count", toString s.count.toInt), ("spin_count", toString s.spins)]

/-- What can be asked about a semaphore. -/
inductive Question where
  /-- The tokens on offer. -/
  | available
  /-- How often a call looks again. -/
  | spins
  /-- The text. -/
  | text
  deriving DecidableEq

/-- What can be done with a semaphore. -/
inductive Action where
  /-- Make a call. -/
  | call (call : Call)
  /-- Ask a question, which leaves the semaphore alone. -/
  | ask (question : Question)
  deriving DecidableEq

/-- The calls that an action makes: one, or none. -/
def Action.calls : Action → List Call
  | .call c => [c]
  | .ask _ => []

/-- What an action answers. -/
inductive Reply where
  /-- The answer of a call. -/
  | answer (answer : Answer)
  /-- The tokens on offer. -/
  | available (tokens : Nat)
  /-- How often a call looks again. -/
  | spins (times : Nat)
  /-- The text. -/
  | text (text : String)
  deriving DecidableEq

/-- The answer to a question. -/
def ask (s : Semaphore κ) : Question → Reply
  | .available => .available s.available
  | .spins => .spins s.spins
  | .text => .text s.text

/-- Do an action: its answer, and the semaphore afterwards. -/
def act (serve : Server κ) (action : Action) (s : Semaphore κ) :
    Except Fault Reply × Semaphore κ :=
  match action with
  | .call c =>
    let (result, s) := s.call serve c
    (result.map .answer, s)
  | .ask question => (.ok (s.ask question), s)

end Semaphore

end WordSync
