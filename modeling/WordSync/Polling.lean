import WordSync.Circumstance

/-!
# Polling

A wait for a condition that nobody announces: it is asked for again and again, until it holds or
a deadline has passed. The deadline is computed before the first question, so a wait whose end
the clock cannot show asks nothing at all. A question is taken to last a microsecond.
-/

namespace WordSync

namespace Polling

/-- Why a wait for a condition failed. -/
inductive Fault where
  /-- The clock cannot show the time at which the wait ends. -/
  | beyondClock
  /-- The deadline has passed. -/
  | timedOut (what : String)
  deriving DecidableEq

/-- What a failed wait says. -/
def Fault.message : Fault → String
  | .beyondClock => "overflow when adding duration to instant"
  | .timedOut what => "timed out waiting for " ++ what

/-- How a wait for a condition ended. -/
structure Outcome where
  /-- How often the condition was asked for. -/
  calls : Nat
  /-- Why the wait failed; nothing if the condition held the last time. -/
  fault : Option Fault
  deriving DecidableEq

/-- Ask the `k`-th question and those after it, until the condition holds. The deadline passes
after `budget` questions that were answered in the negative, and one more. -/
def ask (condition : Nat → Bool) (what : String) : Nat → Nat → Outcome
  | 0, k => ⟨k, if condition k then none else some (.timedOut what)⟩
  | budget + 1, k => if condition k then ⟨k, none⟩ else ask condition what budget (k + 1)

/-- Wait from `now` on, no longer than `timeout`, for a condition that is called `what`;
`condition k` is the answer to the `k`-th question. However short the time is, there is one
question. -/
def await (condition : Nat → Bool) (what : String) (now : Instant) (timeout : Duration) :
    Outcome :=
  match now.after timeout with
  | none => ⟨0, some .beyondClock⟩
  | some _ => ask condition what timeout.toMicros 1

end Polling

end WordSync
