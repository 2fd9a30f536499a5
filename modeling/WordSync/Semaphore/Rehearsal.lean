import WordSync.Semaphore.Solo

/-!
# Rehearsals

A kernel semaphore that plays a script. It counts tokens, and each time that a thread asks it
for one it takes the next cue: the actions that other threads do on the same semaphore in the
meantime, and whether the request fails although there is a token. Everything that happens is
traced. The script makes orders of events reproducible that would otherwise depend on the
scheduling of threads.
-/

namespace WordSync.Semaphore

/-- What happens while a request for a token lasts. -/
structure Cue where
  /-- What other threads do meanwhile. -/
  during : List Action
  /-- Whether an attempt or a timed wait fails even if there is a token. -/
  fail : Bool

/-- What is traced of a rehearsal. -/
inductive Scene where
  /-- A request was made. -/
  | asked (request : Kernel.Request)
  /-- Another thread did an action, which left the count as given. -/
  | during (reply : Except Fault Reply) (count : Int64)
  /-- A request for a token was answered. -/
  | answered (granted : Bool)

/-- A kernel semaphore that plays a script. -/
structure Rehearsal where
  /-- The tokens. -/
  tokens : Nat
  /-- The cues that are still to come. -/
  cues : List Cue
  /-- The number of requests for a token so far. -/
  asked : Nat
  /-- What has happened so far. -/
  trace : List Scene

namespace Rehearsal

/-- The most requests for a token that are answered. -/
def patience : Nat := 32

/-- The largest number of tokens. -/
def limit : Nat := 0xffffffffffffffff

/-- A rehearsal without a script. -/
def create (initial : Nat) : Rehearsal := ⟨initial, [], 0, []⟩

/-- The rehearsal with a new script, and nothing traced or asked yet. -/
def scripted (r : Rehearsal) (cues : List Cue) : Rehearsal := ⟨r.tokens, cues, 0, []⟩

/-- The rehearsal after one more scene. -/
def traced (r : Rehearsal) (scene : Scene) : Rehearsal := { r with trace := r.trace ++ [scene] }

/-- Whether a request fails on a cue even if there is a token. An untimed wait does not. -/
def refuses (request : Kernel.Request) (cue : Option Cue) : Bool :=
  request != .wait && cue.any Cue.fail

/-- Change the kernel semaphore of a semaphore. -/
def onKernel (s : Semaphore Rehearsal) (f : Rehearsal → Rehearsal) : Semaphore Rehearsal :=
  { s with kernel := f s.kernel }

/-- Do actions one after the other, tracing each; an action that fails does not keep the others
from being done. -/
def perform (serve : Server Rehearsal) : List Action → Semaphore Rehearsal → Semaphore Rehearsal
  | [], s => s
  | action :: rest, s =>
    let (reply, s) := s.act serve action
    perform serve rest (onKernel s fun r => r.traced (.during reply s.count))

/-- Serve a request by the script. Requests made during a cue are served in the same way, one
level deeper; the number of requests is limited, and so is the depth. -/
def serve : Nat → Server Rehearsal
  | 0, _, s => (.error .overrun, s)
  | _ + 1, .signal count, s =>
    (.ok true, onKernel s fun r =>
      { r.traced (.asked (.signal count)) with tokens := min limit (r.tokens + count) })
  | depth + 1, request, s =>
    let s := onKernel s fun r => { r.traced (.asked request) with asked := r.asked + 1 }
    if patience < s.kernel.asked then (.error .overrun, s)
    else
      let cue := s.kernel.cues.head?
      let s := onKernel s fun r => { r with cues := r.cues.tail }
      let s := perform (serve depth) (cue.elim [] Cue.during) s
      if refuses request cue || s.kernel.tokens == 0 then
        let s := onKernel s fun r => r.traced (.answered false)
        if request = .wait then (.error .blocked, s) else (.ok false, s)
      else
        (.ok true, onKernel s fun r =>
          { r.traced (.answered true) with tokens := r.tokens - 1 })

/-- Do an action under a script: its answer, and the semaphore afterwards. -/
def act (cues : List Cue) (action : Action) (s : Semaphore Rehearsal) :
    Except Fault Reply × Semaphore Rehearsal :=
  (onKernel s fun r => r.scripted cues).act (serve (patience + 2)) action

end Rehearsal

/-- A new semaphore over a rehearsal. -/
def rehearse (initial spins : Nat) : Except Fault (Semaphore Rehearsal) :=
  if Count.limit < initial then .error (.initialTooLarge initial)
  else .ok ⟨.ofNat initial, spins, Rehearsal.create 0, []⟩

end WordSync.Semaphore
