import CallChains.Proofs.Clock
import CallChains.Proofs.Input.Outlook

/-!
# Time-outs and the clock

A stream that has not been read waits until its deadline, which the clock must be able to show.
Durations are wider than the clock: some of them reach behind its range from every instant, and
then the read does not even look at its input.  What a read reports to have waited is in range for
every duration.

Main statement: a read cannot start exactly if the sum of instant and time-out lies behind the
range of the clock, and if it returns without input it reports the milliseconds of the time-out,
as far as 64 bits hold them.
-/

namespace CallChains

namespace Input

namespace Stream

section Deadlines

variable {now : Instant} {timeout : Duration}

theorem read_eq_deadlineOutOfRange_iff (script : Script) :
    read now (ofScript script timeout) = .error .deadlineOutOfRange <->
      Instant.clockEnd <= now.total + timeout.total := by
  rw [← Instant.after?_eq_none_iff, read_ofScript, Arrival.receive_eq]
  cases now.after? timeout with
  | none => exact iff_of_true rfl rfl
  | some deadline =>
      refine iff_of_false ?_ nofun
      simp only
      split
      · nofun
      · split <;> nofun

/-- A read reports its own time-out, also if the input was used up before. -/
theorem waited_of_read {s next : Stream} {reading : Reading} {waited : Nat}
    (h : read now s = .ok (reading, next)) (hresult : reading.result = .error (.noInput waited)) :
    waited = s.timeout.reportedMillis := by
  rcases s with ⟨script | script, timeout⟩
  · cases h
    cases hresult
    rfl
  · rcases result_of_read h with houtcome | ⟨_, hnothing⟩
    · rw [hresult, Outlook.outcome?] at houtcome
      split at houtcome
      · cases houtcome
      · split at houtcome
        · cases houtcome
          rfl
        · cases houtcome
      · cases houtcome
    · rw [hresult] at hnothing
      cases hnothing
      rfl

end Deadlines

theorem read_within_clock (now : Instant) (timeout : Duration) :
    (forall script : Script,
      read now (ofScript script timeout) = .error .deadlineOutOfRange <->
        Instant.clockEnd <= now.total + timeout.total) ∧
      (forall deadline : Instant,
        now.after? timeout = some deadline <-> deadline.total = now.total + timeout.total) ∧
      (forall (s next : Stream) (reading : Reading) (waited : Nat), s.timeout = timeout ->
        read now s = .ok (reading, next) -> reading.result = .error (.noInput waited) ->
          waited = min (timeout.total / 1000000) (UInt64.size - 1)) ∧
      (0 <= now.seconds.toInt -> Int64.maxValue.toInt < timeout.seconds.toNat ->
        forall script : Script,
          read now (ofScript script timeout) = .error .deadlineOutOfRange) ∧
      ((forall (millis : UInt64) (script : Script),
          read now (ofScript script (Duration.ofMillis millis)) ≠ .error .deadlineOutOfRange) <->
        now.total + (UInt64.size - 1 : Nat) * 1000000 < Instant.clockEnd) := by
  refine ⟨read_eq_deadlineOutOfRange_iff, ?_, ?_, ?_, ?_⟩
  · intro deadline
    exact Instant.after?_eq_some_iff
  · rintro s next reading waited rfl hread hresult
    rw [waited_of_read hread hresult, Duration.reportedMillis_eq]
  · intro hnow htimeout script
    exact (read_eq_deadlineOutOfRange_iff script).mpr (Instant.clockEnd_le_of_seconds hnow htimeout)
  · simp only [ne_eq, read_eq_deadlineOutOfRange_iff, forall_const, not_le,
      Instant.forall_millis_in_range_iff]

/-- The longest time-out overflows the clock at its very origin, with an input at hand. -/
theorem not_forall_read_within_clock :
    ¬ forall (now : Instant) (timeout : Duration), 0 <= now.seconds.toInt ->
      (forall script : Script,
        read now (ofScript script timeout) ≠ .error .deadlineOutOfRange) ∧
      forall (s next : Stream) (reading : Reading) (waited : Nat), s.timeout = timeout ->
        read now s = .ok (reading, next) -> reading.result = .error (.noInput waited) ->
          waited = min (timeout.total / 1000000) (UInt64.size - 1) := by
  intro h
  have horigin := (h ⟨0, 0, by decide⟩ Duration.longest (by decide)).1
  exact horigin [.data "Library.a();\n".toUTF8.toList] rfl

end Stream

end Input

end CallChains
