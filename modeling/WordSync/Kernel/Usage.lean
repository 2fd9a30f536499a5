import WordSync.Kernel.Basic

/-!
# Using a kernel semaphore alone

A thread that has a kernel semaphore for itself makes requests one after the other, and now and
then takes all tokens that there are. A request may meet troubles at its first steps: a system
call is interrupted, or a sleeper wakes although nobody has notified it. After them its steps turn
out as they should. What comes of all uses is reported together with what entered the journal.
-/

namespace WordSync.Kernel

/-- What a thread does with a semaphore that it has for itself. -/
inductive Use where
  /-- Make a request. -/
  | request (request : Request)
  /-- Take tokens without waiting until there is none left. -/
  | drain
  deriving DecidableEq

/-- What a use comes to. -/
inductive Outcome where
  /-- A request was answered; for a request for a token, the answer says whether it was granted. -/
  | answered (granted : Bool)
  /-- So many tokens were taken. -/
  | drained (tokens : Nat)
  deriving DecidableEq

/-- The circumstances of the first steps of a request. -/
abbrev Troubles := List Circumstance

variable {κ π : Type}

/-- Serve a request of a thread that is alone. Its first steps are taken under given
circumstances, and at the others nothing goes wrong. -/
def serveAmid (kernel : Kernel κ π) (troubles : Troubles) (request : Request) (semaphore : κ) :
    Except Fault Bool × κ :=
  kernel.serveFrom (fun n => troubles.getD n .usual) (request.effort + 2 * troubles.length) 0
    (kernel.start request) semaphore

/-- Take tokens without waiting until there is none left, in at most so many attempts. Each
attempt meets its own troubles. -/
def drainAmid (kernel : Kernel κ π) : Nat → (Nat → Troubles) → κ → Except Fault Nat × κ
  | 0, _, semaphore => (.ok 0, semaphore)
  | attempts + 1, troubles, semaphore =>
    match kernel.serveAmid (troubles 0) .tryWait semaphore with
    | (.ok true, semaphore) =>
      match kernel.drainAmid attempts (fun k => troubles (k + 1)) semaphore with
      | (.ok taken, semaphore) => (.ok (taken + 1), semaphore)
      | (.error fault, semaphore) => (.error fault, semaphore)
    | (.ok false, semaphore) => (.ok 0, semaphore)
    | (.error fault, semaphore) => (.error fault, semaphore)

/-- Make one use of a semaphore. Each request of the use meets its own troubles; a drain makes at
most so many attempts. -/
def employ (kernel : Kernel κ π) (attempts : Nat) (use : Use) (troubles : Nat → Troubles)
    (semaphore : κ) : Except Fault (Outcome × κ) :=
  match use with
  | .request request =>
    match kernel.serveAmid (troubles 0) request semaphore with
    | (.ok granted, semaphore) => .ok (.answered granted, semaphore)
    | (.error fault, _) => .error fault
  | .drain =>
    match kernel.drainAmid attempts troubles semaphore with
    | (.ok tokens, semaphore) => .ok (.drained tokens, semaphore)
    | (.error fault, _) => .error fault

/-- Make uses of a semaphore in order, up to the first that fails. -/
def employAll (kernel : Kernel κ π) (attempts : Nat) :
    List Use → (Nat → Nat → Troubles) → κ → Except Fault (List Outcome × κ)
  | [], _, semaphore => .ok ([], semaphore)
  | use :: rest, troubles, semaphore => do
    let (outcome, semaphore) ← kernel.employ attempts use (troubles 0) semaphore
    let (outcomes, semaphore) ←
      kernel.employAll attempts rest (fun k => troubles (k + 1)) semaphore
    return (outcome :: outcomes, semaphore)

/-- Make a semaphore and use it: the outcomes with the semaphore that is left, or the first fault,
and the records in the journal. -/
def report (kernel : Kernel κ π) (attempts initial : Nat) (uses : List Use)
    (troubles : Nat → Nat → Troubles) : Except Fault (List Outcome × κ) × Journal :=
  let result := kernel.create initial >>= kernel.employAll attempts uses troubles
  match result with
  | .ok _ => (result, [])
  | .error fault => (result, fault.record?.toList)

/-- Without troubles a request is served as by a thread that is alone. -/
theorem serveAmid_nil (kernel : Kernel κ π) (request : Request) (semaphore : κ) :
    kernel.serveAmid [] request semaphore = kernel.serve request semaphore := rfl

/-- Without troubles the tokens are taken as by a thread that is alone. -/
theorem drainAmid_nil (kernel : Kernel κ π) (attempts : Nat) (semaphore : κ) :
    kernel.drainAmid attempts (fun _ => []) semaphore = kernel.drain attempts semaphore := by
  induction attempts generalizing semaphore with
  | zero => rfl
  | succ attempts ih =>
    have hrest : kernel.drainAmid attempts (fun _ => []) = kernel.drain attempts := funext ih
    rw [drainAmid, serveAmid_nil, hrest]
    rfl

end WordSync.Kernel
