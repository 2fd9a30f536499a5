import WordSync.Duration

/-!
# Circumstances

What happens at a step of a thread depends on more than the program and the shared state. A
weak exchange may fail for no reason, a system call may be interrupted, a timed wait may
expire, a notification wakes one sleeper out of several, and the clock shows some time. All of
this is decided outside the program, and a `Circumstance` is one such decision.
-/

namespace WordSync

/-- The last second that the clock can show. -/
def maxSecond : Nat := 0x7fffffffffffffff

/-- A time that the clock shows. -/
@[ext]
structure Instant where
  /-- The whole seconds. -/
  sec : Nat
  /-- The nanoseconds beyond the whole seconds. -/
  nsec : Nat
  /-- The clock has not run past its last second. -/
  sec_le : sec ≤ maxSecond
  /-- What lies beyond the whole seconds is less than a second. -/
  nsec_lt : nsec < nanosPerSecond

/-- Times are the same if their seconds and nanoseconds are. -/
instance : DecidableEq Instant := fun _ _ => decidable_of_iff _ Instant.ext_iff.symm

/-- The time at which the clock began. -/
def Instant.zero : Instant := ⟨0, 0, by decide, by decide⟩

/-- What the clock shows when a span of time has passed, if it can show that. -/
def Instant.after (now : Instant) (span : Duration) : Option Instant :=
  let nsec := now.nsec + span.nanos
  let sec := now.sec + span.secs + nsec / nanosPerSecond
  if h : sec ≤ maxSecond then
    some ⟨sec, nsec % nanosPerSecond, h, Nat.mod_lt nsec (by decide)⟩
  else none

/-- How one step turns out. -/
inductive Chance where
  /-- As it should. -/
  | regular
  /-- A weak exchange fails although it could succeed, a system call is interrupted, or a
  sleeper wakes without having been notified. -/
  | mishap
  /-- The time of a timed wait is over. -/
  | expire
  deriving DecidableEq

/-- What is decided outside the program about one step. -/
structure Circumstance where
  /-- How the step turns out. -/
  chance : Chance
  /-- What the clock shows. -/
  clock : Instant
  /-- Which of the sleepers a notification of one wakes. -/
  pick : Nat
  deriving DecidableEq

/-- A step that turns out as it should. -/
def Circumstance.usual : Circumstance := ⟨.regular, .zero, 0⟩

/-- A step at which the time of a timed wait is over. -/
def Circumstance.expired : Circumstance := ⟨.expire, .zero, 0⟩

end WordSync
