import WordSync.Circumstance

/-!
# Deadlines

A timed wait is given a span of time, but the system wants to know the time of the clock at
which the wait ends. Seconds that the clock cannot show stop at the last one that it can, and
the nanoseconds are always brought below one second.
-/

namespace WordSync.Kernel

/-- A time as the system is told it. Nothing keeps it from being a time that no clock shows. -/
structure Timespec where
  /-- The seconds. -/
  sec : Int
  /-- The nanoseconds beyond the seconds. -/
  nsec : Int
  deriving DecidableEq

/-- Whether the nanoseconds of a time lie below one second. -/
def Timespec.Normalized (t : Timespec) : Prop := 0 ≤ t.nsec ∧ t.nsec < nanosPerSecond

instance (t : Timespec) : Decidable t.Normalized := inferInstanceAs (Decidable (_ ∧ _))

namespace Deadline

/-- The smallest number of seconds or nanoseconds that the system can be told. -/
def lowest : Int := -0x8000000000000000

/-- The largest number of seconds or nanoseconds that the system can be told. -/
def highest : Int := maxSecond

/-- The number nearest to `n` that the system can be told. -/
def saturate (n : Int) : Int := max lowest (min highest n)

/-- The number `n`, if the system can be told it. -/
def checked (n : Int) : Option Int := if lowest ≤ n ∧ n ≤ highest then some n else none

/-- The time at which a wait ends that begins at `now`; nothing if the nanoseconds cannot be
computed. -/
def ofTimeout (now : Instant) (timeout : Duration) : Option Timespec := do
  let sec := saturate (now.sec + min highest timeout.secs)
  let nsec ← checked (now.nsec + timeout.nanos)
  if nanosPerSecond ≤ nsec then
    let rest ← checked (nsec - nanosPerSecond)
    return ⟨saturate (sec + 1), rest⟩
  return ⟨sec, nsec⟩

end Deadline

end WordSync.Kernel
