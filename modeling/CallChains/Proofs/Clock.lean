import CallChains.Clock
import Mathlib.Algebra.Order.Ring.Int

/-!
# The range of the clock

Durations and instants are numbers of nanoseconds, written with seconds and a rest.  As numbers
they add up exactly, and an instant is determined by its number.  What limits the sum is the
number of seconds that the clock can show.

Main statements: a later instant has the sum of the nanoseconds, and there is none exactly if
the sum lies behind the range of the clock.
-/

namespace CallChains

namespace Duration

def total (d : Duration) : Nat := d.seconds.toNat * nanosPerSecond + d.nanos

def longest : Duration := ⟨UInt64.ofNat (UInt64.size - 1), nanosPerSecond - 1, by decide⟩

theorem millis_eq (d : Duration) : d.millis = d.total / 1000000 := by
  unfold millis total nanosPerSecond
  omega

theorem reportedMillis_eq (d : Duration) :
    d.reportedMillis = min (d.total / 1000000) (UInt64.size - 1) := by
  rw [reportedMillis, millis_eq]

theorem seconds_ofMillis (millis : UInt64) :
    (ofMillis millis).seconds.toNat = millis.toNat / 1000 := UInt64.toNat_div millis 1000

theorem nanos_ofMillis (millis : UInt64) :
    (ofMillis millis).nanos = millis.toNat % 1000 * 1000000 :=
  congrArg (· * 1000000) (UInt64.toNat_mod millis 1000)

theorem total_ofMillis (millis : UInt64) : (ofMillis millis).total = millis.toNat * 1000000 := by
  rw [total, seconds_ofMillis, nanos_ofMillis, nanosPerSecond]
  omega

end Duration

namespace Instant

def total (i : Instant) : Int := i.seconds.toInt * nanosPerSecond + i.nanos

/-- The first number of nanoseconds behind all instants. -/
def clockEnd : Int := (Int64.maxValue.toInt + 1) * nanosPerSecond

section Range

variable {start deadline : Instant} {d : Duration}

theorem eq_of_total_eq {i j : Instant} (h : i.total = j.total) : i = j := by
  have hi := i.nanos_lt
  have hj := j.nanos_lt
  unfold total nanosPerSecond at *
  have hseconds : i.seconds = j.seconds := Int64.toInt_inj.mp (by omega)
  have hnanos : i.nanos = j.nanos := by omega
  cases i
  cases j
  cases hseconds
  cases hnanos
  rfl

theorem total_lt_clockEnd (i : Instant) : i.total < clockEnd := by
  have hseconds : i.seconds.toInt <= Int64.maxValue.toInt := Int64.toInt_le i.seconds
  have hnanos := i.nanos_lt
  unfold total clockEnd nanosPerSecond at *
  omega

theorem total_of_after? (h : start.after? d = some deadline) :
    deadline.total = start.total + d.total := by
  have hlower : Int64.minValue.toInt <= start.seconds.toInt := start.seconds.minValue_le_toInt
  have hmin : Int64.minValue.toInt = -9223372036854775808 := by decide
  have hmax : Int64.maxValue.toInt = 9223372036854775807 := by decide
  unfold after? at h
  simp only at h
  split at h
  · next hrange =>
      cases h
      simp only [total, Duration.total, nanosPerSecond] at hrange ⊢
      rw [Int64.toInt_ofInt_of_le (by omega) (by omega)]
      omega
  · cases h

theorem after?_eq_none_iff : start.after? d = none <-> clockEnd <= start.total + d.total := by
  unfold after? total Duration.total clockEnd
  simp only
  split
  · next hrange =>
      refine iff_of_false (by simp) ?_
      unfold nanosPerSecond at *
      omega
  · next hrange =>
      refine iff_of_true rfl ?_
      unfold nanosPerSecond at *
      omega

theorem after?_eq_some_iff :
    start.after? d = some deadline <-> deadline.total = start.total + d.total := by
  constructor
  · exact total_of_after?
  · intro h
    cases hafter : start.after? d with
    | none =>
        have hend := total_lt_clockEnd deadline
        rw [after?_eq_none_iff] at hafter
        omega
    | some other =>
        rw [eq_of_total_eq ((total_of_after? hafter).trans h.symm)]

/-- From every instant that is not before the origin of the clock, a duration that has more
seconds than the clock leads out of its range. -/
theorem clockEnd_le_of_seconds (hstart : 0 <= start.seconds.toInt)
    (hd : Int64.maxValue.toInt < d.seconds.toNat) : clockEnd <= start.total + d.total := by
  unfold clockEnd total Duration.total nanosPerSecond
  omega

theorem forall_millis_in_range_iff :
    (forall millis : UInt64, start.total + (Duration.ofMillis millis).total < clockEnd) <->
      start.total + (UInt64.size - 1 : Nat) * 1000000 < clockEnd := by
  constructor
  · intro h
    have hmax : (UInt64.ofNat (UInt64.size - 1)).toNat = UInt64.size - 1 := rfl
    have hlast := h (UInt64.ofNat (UInt64.size - 1))
    rwa [Duration.total_ofMillis, hmax, Nat.cast_mul] at hlast
  · intro h millis
    have hsize : millis.toNat < UInt64.size := millis.toNat_lt
    rw [Duration.total_ofMillis]
    omega

end Range

end Instant

end CallChains
