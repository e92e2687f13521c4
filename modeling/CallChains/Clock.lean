/-!
# Durations and instants

A duration is an unsigned 64-bit number of seconds and a number of nanoseconds
below a second.  An instant is a signed 64-bit number of seconds on the clock and
such a number of nanoseconds.  The widths differ, so not every duration can be
added to an instant: `Instant.after?` fails where the seconds leave their range.
-/

namespace CallChains

def nanosPerSecond : Nat := 1000000000

structure Duration where
  seconds : UInt64
  nanos : Nat
  nanos_lt : nanos < nanosPerSecond
deriving DecidableEq, Repr

namespace Duration

def ofMillis (millis : UInt64) : Duration where
  seconds := millis / 1000
  nanos := (millis % 1000).toNat * 1000000
  nanos_lt := by
    have hmod : (millis % 1000).toNat < 1000 := by
      rw [UInt64.toNat_mod]
      exact Nat.mod_lt _ (by decide)
    unfold nanosPerSecond
    omega

def millis (d : Duration) : Nat := d.seconds.toNat * 1000 + d.nanos / 1000000

/-- The whole milliseconds as they are reported: at most what 64 bits hold. -/
def reportedMillis (d : Duration) : Nat := min d.millis (UInt64.size - 1)

end Duration

structure Instant where
  seconds : Int64
  nanos : Nat
  nanos_lt : nanos < nanosPerSecond

namespace Instant

/-- The instant a duration later, if the clock can show it. -/
def after? (start : Instant) (d : Duration) : Option Instant :=
  let nanos := start.nanos + d.nanos
  let seconds := start.seconds.toInt + d.seconds.toNat + (nanos / nanosPerSecond : Nat)
  if seconds <= Int64.maxValue.toInt then
    some ⟨Int64.ofInt seconds, nanos % nanosPerSecond, Nat.mod_lt _ (by decide)⟩
  else
    none

end Instant

end CallChains
