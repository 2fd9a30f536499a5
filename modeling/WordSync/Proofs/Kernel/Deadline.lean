import WordSync.Kernel.Deadline

/-!
# When a timed wait ends

A deadline is the sum of two times, computed from their seconds and nanoseconds with a carry
between them, and stopped at three places where a number would leave the range of the system.
`ofTimeout_eq` gives the result in one formula. From it follows that the sum is exact up to the
last second of the clock, that a later time stays in that second, and that no deadline is one that
the system refuses.
-/

namespace WordSync

/-- The time from the beginning of the clock, in nanoseconds. -/
def Instant.toNanos (t : Instant) : Nat := t.sec * nanosPerSecond + t.nsec

namespace Kernel

/-- A time as the system is told it, in nanoseconds. -/
def Timespec.toNanos (t : Timespec) : Int := t.sec * nanosPerSecond + t.nsec

namespace Deadline

/-- The whole seconds of the time at which a wait really ends. -/
def seconds (now : Instant) (timeout : Duration) : Nat :=
  (now.toNanos + timeout.toNanos) / nanosPerSecond

/-- Seconds add up, and two parts of a second may make one more. -/
theorem seconds_eq (now : Instant) (timeout : Duration) :
    seconds now timeout =
      now.sec + timeout.secs + (now.nsec + timeout.nanos) / nanosPerSecond := by
  simp only [seconds, Instant.toNanos, Duration.toNanos, nanosPerSecond]
  omega

/-- Nanoseconds below a second make a number that the system can be told, and so does what is
left of them after a carry. -/
theorem checked_eq_some {n : Int} (hlow : 0 ≤ n) (hhigh : n < 2 * nanosPerSecond) :
    checked n = some n := by
  refine if_pos ?_
  simp only [lowest, highest, maxSecond, nanosPerSecond] at hhigh ⊢
  omega

/-- Of seconds that are not negative, only what lies beyond the last second of the clock is
cut off. -/
theorem saturate_of_nonneg {n : Int} (h : 0 ≤ n) : saturate n = min (maxSecond : Int) n := by
  simp only [saturate, lowest, highest]
  omega

/-- The time at which a wait ends: the seconds of the sum, as far as the clock goes, and the
nanoseconds of the sum. -/
def ending (now : Instant) (timeout : Duration) : Timespec where
  sec := (min maxSecond (seconds now timeout) : Nat)
  nsec := ((now.nsec + timeout.nanos) % nanosPerSecond : Nat)

/-- The deadline of a wait is the time at which it ends. -/
theorem ofTimeout_eq (now : Instant) (timeout : Duration) :
    ofTimeout now timeout = some (ending now timeout) := by
  have hnow := now.nsec_lt
  have htimeout := timeout.nanos_lt
  have hsum : checked (now.nsec + timeout.nanos : Int) = some (now.nsec + timeout.nanos : Int) :=
    checked_eq_some (by omega) (by omega)
  have hsec : saturate (now.sec + min highest timeout.secs : Int) =
      (min maxSecond (now.sec + timeout.secs) : Nat) := by
    rw [highest, saturate_of_nonneg (by omega)]
    omega
  simp only [ofTimeout, hsum, hsec, Option.bind_eq_bind, Option.bind_some, Option.pure_def]
  by_cases hcarry : nanosPerSecond ≤ now.nsec + timeout.nanos
  · have hrest : checked (now.nsec + timeout.nanos - nanosPerSecond : Int) =
        some (now.nsec + timeout.nanos - nanosPerSecond : Int) :=
      checked_eq_some (by omega) (by omega)
    rw [if_pos (by omega), hrest, Option.bind_some, saturate_of_nonneg (by omega)]
    simp only [ending, seconds_eq, nanosPerSecond, Option.some.injEq, Timespec.mk.injEq] at *
    omega
  · rw [if_neg (by omega)]
    simp only [ending, seconds_eq, nanosPerSecond, Option.some.injEq, Timespec.mk.injEq] at *
    omega

-- The longest wait, one nanosecond after the last second has begun, carries past that second.
example : ofTimeout ⟨maxSecond, 1, by decide, by decide⟩
    (.ofParts 0xFFFFFFFFFFFFFFFF 999999999) = some ⟨maxSecond, 0⟩ := by decide

/-- The system accepts every time at which a wait ends. -/
theorem normalized_ending (now : Instant) (timeout : Duration) :
    (ending now timeout).Normalized := by
  simp only [Timespec.Normalized, ending, nanosPerSecond]
  omega

/-- A wait ends when its timeout has passed, if the clock can show that. -/
theorem toNanos_ending {now : Instant} {timeout : Duration}
    (hfits : seconds now timeout ≤ maxSecond) :
    (ending now timeout).toNanos = now.toNanos + timeout.toNanos := by
  have hsec : (ending now timeout).sec = seconds now timeout := by
    rw [ending, Nat.min_eq_right hfits]
  rw [Timespec.toNanos, hsec, seconds_eq]
  simp only [ending, Instant.toNanos, Duration.toNanos, nanosPerSecond]
  omega

/-- A longer wait does not really end in an earlier second. -/
theorem seconds_le_seconds (now : Instant) {shorter longer : Duration}
    (h : shorter.toNanos ≤ longer.toNanos) : seconds now shorter ≤ seconds now longer :=
  Nat.div_le_div_right (Nat.add_le_add_left h _)

/-- Deadlines are exact or saturated, and the system accepts all of them. The deadline of a wait
is the time at which it begins and its timeout taken together, if the clock can show that, and
otherwise some time in the last second of the clock. So a longer timeout means a later deadline
as long as the clock can show it, and never one in an earlier second. -/
theorem deadlines_exact (now : Instant) :
    ∃ deadline : Duration → Timespec,
      (∀ timeout, ofTimeout now timeout = some (deadline timeout) ∧
        (deadline timeout).Normalized ∧
        (seconds now timeout ≤ maxSecond →
          (deadline timeout).toNanos = now.toNanos + timeout.toNanos) ∧
        (maxSecond < seconds now timeout → (deadline timeout).sec = maxSecond)) ∧
      (∀ shorter longer, shorter.toNanos < longer.toNanos → seconds now longer ≤ maxSecond →
        (deadline shorter).toNanos < (deadline longer).toNanos) ∧
      ∀ shorter longer, shorter.toNanos ≤ longer.toNanos →
        (deadline shorter).sec ≤ (deadline longer).sec := by
  refine ⟨ending now, fun timeout => ⟨ofTimeout_eq now timeout, normalized_ending now timeout,
    toNanos_ending, fun hlate => ?_⟩, ?_, ?_⟩
  · rw [ending, Nat.min_eq_left (Nat.le_of_lt hlate)]
  · intro shorter longer hlt hfits
    have hseconds := seconds_le_seconds now (Nat.le_of_lt hlt)
    rw [toNanos_ending (Nat.le_trans hseconds hfits), toNanos_ending hfits]
    omega
  · intro shorter longer hle
    have hseconds := seconds_le_seconds now hle
    simp only [ending]
    omega

end Deadline

end Kernel

end WordSync
