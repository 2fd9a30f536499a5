/-!
# Spans of time

A span of time is a number of whole seconds and a number of nanoseconds below one second.
-/

namespace WordSync

/-- The number of nanoseconds in a second. -/
def nanosPerSecond : Nat := 1000000000

/-- A span of time. -/
structure Duration where
  /-- The whole seconds. -/
  secs : Nat
  /-- The nanoseconds beyond the whole seconds. -/
  nanos : Nat
  /-- What lies beyond the whole seconds is less than a second. -/
  nanos_lt : nanos < nanosPerSecond
  deriving DecidableEq

namespace Duration

/-- The span of a number of nanoseconds. -/
def ofNanos (n : Nat) : Duration where
  secs := n / nanosPerSecond
  nanos := n % nanosPerSecond
  nanos_lt := Nat.mod_lt n (by decide)

/-- The span of a number of microseconds. -/
def ofMicros (n : Nat) : Duration := ofNanos (n * 1000)

/-- The span of a number of seconds and nanoseconds. -/
def ofParts (secs nanos : Nat) : Duration := ofNanos (secs * nanosPerSecond + nanos)

/-- The length in nanoseconds. -/
def toNanos (d : Duration) : Nat := d.secs * nanosPerSecond + d.nanos

/-- The length in whole microseconds. -/
def toMicros (d : Duration) : Nat := d.toNanos / 1000

/-- A span is determined by its length. -/
theorem ofNanos_toNanos (d : Duration) : ofNanos d.toNanos = d := by
  obtain ⟨secs, nanos, hnanos⟩ := d
  unfold nanosPerSecond at hnanos
  have hsecs : (secs * nanosPerSecond + nanos) / nanosPerSecond = secs := by
    unfold nanosPerSecond
    omega
  have hrest : (secs * nanosPerSecond + nanos) % nanosPerSecond = nanos := by
    unfold nanosPerSecond
    omega
  simp only [ofNanos, toNanos, hsecs, hrest]

end Duration

end WordSync
