import WordSync.Circumstance
import WordSync.Duration
import WordSync.Journal
import WordSync.Kernel.SysError

/-!
# Kernel semaphores

A kernel semaphore is a place where threads can sleep until there is a token for them. Every
kind of it serves the same four requests. A request is started and then advances by indivisible
steps until it has been answered; a step may be impossible for the moment, which is how a thread
is blocked. `Kernel.serve` takes the steps of a request for a thread that is alone.
-/

namespace WordSync.Kernel

/-- What a thread asks of a kernel semaphore. -/
inductive Request where
  /-- Take a token, sleeping until there is one. -/
  | wait
  /-- Take a token if there is one. -/
  | tryWait
  /-- Take a token, sleeping no longer than a given time. -/
  | timedWait (timeout : Duration)
  /-- Put tokens in. -/
  | signal (count : Nat)
  deriving DecidableEq

/-- Why a request could not be answered. -/
inductive Fault where
  /-- A system call failed in a way that correct use excludes. -/
  | fatal (call : String) (error : SysError)
  /-- The time at which a wait ends cannot be computed. -/
  | overflow
  /-- Nobody is left who could wake the thread. -/
  | blocked
  /-- More requests were made than anyone is prepared to answer. -/
  | overrun
  /-- The request was given up before it was answered. -/
  | unfinished
  deriving DecidableEq

/-- What a failed system call says. -/
def Fault.fatalMessage (call : String) (error : SysError) : String :=
  call ++ " failed: " ++ error.message

/-- The record that a fault leaves in the journal. Only failed system calls leave one. -/
def Fault.record? : Fault → Option Record
  | .fatal call error => some
    { level := .error
      target := "sema::error"
      message := fatalMessage call error ++ " (errno " ++ toString error.errno ++ ")" }
  | _ => none

/-- How far a request has come. -/
inductive Progress (π : Type) where
  /-- It goes on at a stage. -/
  | working (stage : π)
  /-- It has been answered; for a request for a token, the answer says whether it was granted. -/
  | answered (granted : Bool)
  /-- It has failed. -/
  | broken (fault : Fault)
  deriving DecidableEq

end WordSync.Kernel

namespace WordSync

/-- A kind of kernel semaphore, with states `κ` and stages of a request `π`. -/
structure Kernel (κ π : Type) where
  /-- A new semaphore with a number of tokens. -/
  create : Nat → Except Kernel.Fault κ
  /-- The first stage of a request. -/
  start : Kernel.Request → π
  /-- The step of a thread, given by its number, at a stage; nothing while the thread sleeps. -/
  step : Circumstance → Nat → π → κ → Option (Kernel.Progress π × κ)

namespace Kernel

variable {κ π : Type}

/-- The most steps that a request takes when nothing goes wrong: a few, and one for every token
that it puts in. -/
def Request.effort : Request → Nat
  | .signal count => count + 4
  | _ => 8

/-- Take up to `steps` steps of a request for a thread that is alone. The `n`-th step is taken
under the circumstance `schedule n`. Where the thread sleeps, time passes until its wait
expires; if it cannot expire, nobody will ever wake the thread. -/
def serveFrom (kernel : Kernel κ π) (schedule : Nat → Circumstance) :
    Nat → Nat → π → κ → Except Fault Bool × κ
  | 0, _, _, semaphore => (.error .unfinished, semaphore)
  | steps + 1, n, stage, semaphore =>
    let awake := kernel.step (schedule n) 0 stage semaphore
    match awake.orElse fun _ => kernel.step .expired 0 stage semaphore with
    | none => (.error .blocked, semaphore)
    | some (.working stage, semaphore) => kernel.serveFrom schedule steps (n + 1) stage semaphore
    | some (.answered granted, semaphore) => (.ok granted, semaphore)
    | some (.broken fault, semaphore) => (.error fault, semaphore)

/-- Serve a request of a thread that is alone, with nothing going wrong. -/
def serve (kernel : Kernel κ π) (request : Request) (semaphore : κ) : Except Fault Bool × κ :=
  kernel.serveFrom (fun _ => .usual) request.effort 0 (kernel.start request) semaphore

/-- Take tokens without waiting until there is none left, at most `limit` of them: how many
there were. -/
def drain (kernel : Kernel κ π) : Nat → κ → Except Fault Nat × κ
  | 0, semaphore => (.ok 0, semaphore)
  | limit + 1, semaphore =>
    match kernel.serve .tryWait semaphore with
    | (.ok true, semaphore) =>
      match kernel.drain limit semaphore with
      | (.ok taken, semaphore) => (.ok (taken + 1), semaphore)
      | (.error fault, semaphore) => (.error fault, semaphore)
    | (.ok false, semaphore) => (.ok 0, semaphore)
    | (.error fault, semaphore) => (.error fault, semaphore)

end Kernel

end WordSync
