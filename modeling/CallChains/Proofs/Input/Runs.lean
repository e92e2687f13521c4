import CallChains.Proofs.Input.Relay

/-!
# The runs of a relay

Every step of a relay takes something away from what is left to do, so every run comes
to a stop; and as long as the listener waits and the input does not fall silent there is
a step that is not the end of the time.

Main statement: in whatever order the steps are made, a listener that returns has waited
in vain for the first byte or returns the outcome of the script, which is what reading in
sequence gives; and a relay whose listener waits can always go on to that outcome.
-/

namespace CallChains

namespace Input

/-!
## What is left to do
-/

def Script.size : Script -> Nat
  | [] => 0
  | event :: script => event.bytes.length + 1 + size script

theorem Script.size_lt_of_answers {script rest : Script} {bytes : List UInt8}
    (h : script.Answers (.chunk bytes) rest) : rest.size < script.size := by
  cases h with
  | @data piece left script hne _ =>
      have hpos := List.length_pos_iff.mpr hne
      have hsize : (script.putBack left).size <= left.length + 1 + script.size := by
        unfold putBack
        split
        · exact Nat.le_add_left _ _
        · exact Nat.le_refl _
      have hwhole : size (.data (bytes ++ left) :: script) =
          (bytes ++ left).length + 1 + script.size := rfl
      rw [hwhole, List.length_append]
      omega

-- A piece of data is asked for, sent and received, and each of the three has to take
-- something away.
def Reader.weight : Reader -> Nat
  | .asking script => 3 * script.size + 3
  | .sending (.chunk _) script => 3 * script.size + 5
  | .sending _ _ => 2
  | .gone => 0

theorem Reader.weight_sending (message : Message) (script : Script) :
    (Reader.sending message script).weight = (Reader.behind script message).weight + 2 := by
  cases message <;> rfl

theorem Reader.weight_lt_of_answers {script rest : Script} {message : Message}
    (h : script.Answers message rest) :
    (Reader.sending message rest).weight < (Reader.asking script).weight := by
  cases message with
  | chunk bytes =>
      have hsize := Script.size_lt_of_answers h
      simp only [weight]
      omega
  | closed =>
      simp only [weight]
      omega
  | failed f =>
      simp only [weight]
      omega

namespace Relay

/-- A bound on the number of steps that are left. -/
def weight (r : Relay) : Nat :=
  r.reader.weight + r.queue.length +
    match r.verdict with
    | none => 1
    | some _ => 0

theorem weight_step {timeout : Duration} {r next : Relay} (h : Step timeout r next) :
    next.weight < r.weight := by
  cases h with
  | ask hanswers =>
      have hreader := Reader.weight_lt_of_answers hanswers
      simp only [weight]
      omega
  | retry =>
      simp only [weight, Reader.weight, Script.size]
      omega
  | die =>
      simp only [weight, Reader.weight]
      omega
  | send =>
      simp only [weight, Reader.weight_sending, List.length_append, List.length_singleton]
      omega
  | hangUp =>
      have hgone : Reader.gone.weight = 0 := rfl
      simp only [weight, Reader.weight_sending, hgone]
      omega
  | chunk =>
      simp only [weight, List.length_cons]
      omega
  | closed =>
      simp only [weight, List.length_cons]
      omega
  | failed =>
      simp only [weight, List.length_cons]
      omega
  | disconnected =>
      simp only [weight]
      omega
  | timeOut =>
      simp only [weight]
      omega

theorem wellFounded_step (timeout : Duration) :
    WellFounded fun next r : Relay => Step timeout r next :=
  Subrelation.wf weight_step (measure weight).wf

end Relay

/-!
## Going on
-/

theorem Script.exists_answers_data {bytes : List UInt8} (hne : bytes ≠ []) (script : Script) :
    exists (message : Message) (rest : Script),
      Script.Answers (.data bytes :: script) message rest := by
  have hpiece : bytes.take bufferSize ≠ [] := by
    rw [ne_eq, List.take_eq_nil_iff]
    simp [bufferSize, hne]
  have hanswers : Script.Answers
      (.data (bytes.take bufferSize ++ bytes.drop bufferSize) :: script) _ _ :=
    .data hpiece (List.length_take_le _ _)
  rw [List.take_append_drop] at hanswers
  exact ⟨_, _, hanswers⟩

namespace Relay

theorem exists_step_of_asking {timeout : Duration} {script : Script}
    (hending : script.ending ≠ .silent) (buffer : List UInt8) :
    exists next : Relay,
      Step timeout ⟨.asking script, [], buffer, none⟩ next ∧ next.verdict = none := by
  cases script with
  | nil => exact ⟨_, .ask .finish, rfl⟩
  | cons event script =>
      cases event with
      | data bytes =>
          by_cases hne : bytes = []
          · rw [hne]
            exact ⟨_, .ask .empty, rfl⟩
          · rcases Script.exists_answers_data hne script with ⟨message, rest, hanswers⟩
            exact ⟨_, .ask hanswers, rfl⟩
      | fault f =>
          by_cases hf : f = Fault.interrupted
          · rw [hf]
            exact ⟨_, .retry, rfl⟩
          · exact ⟨_, .ask (.fault hf), rfl⟩
      | death => exact ⟨_, .die, rfl⟩
      | silence => exact absurd rfl hending

/-- The listener takes what is in the queue; when there is nothing, it is the reader's
turn. -/
theorem exists_step {timeout : Duration} {r : Relay} (hr : r.verdict = none)
    (hending : r.outlook.ending ≠ .silent) :
    exists next : Relay, Step timeout r next ∧ next.verdict ≠ some .timedOut := by
  rcases r with ⟨reader, queue, buffer, verdict⟩
  cases hr
  cases queue with
  | cons message queue =>
      cases message with
      | chunk bytes => exact ⟨_, .chunk, by simp⟩
      | closed => exact ⟨_, .closed, by simp⟩
      | failed f => exact ⟨_, .failed, by simp⟩
  | nil =>
      cases reader with
      | asking script =>
          rcases exists_step_of_asking hending buffer with ⟨next, hstep, hnext⟩
          exact ⟨next, hstep, by simp [hnext]⟩
      | sending message script => exact ⟨_, .send, by simp⟩
      | gone => exact ⟨_, .disconnected, by simp⟩

theorem exists_run_returned {timeout : Duration} {o : Outlook} {r : Relay}
    {result : Except Failure Text} (h : Sound timeout o r) (hr : r.verdict = none)
    (houtcome : o.outcome? timeout = some result) :
    exists final : Relay,
      Run timeout r final ∧ final.verdict = some (.returned result) := by
  have hending : r.outlook.ending ≠ .silent := by
    rw [h.waiting hr]
    exact Outlook.ending_ne_silent_of_outcome? houtcome
  -- Go on by any step but the time-out until there is a verdict.
  rcases exists_step hr hending with ⟨next, hstep, hnext⟩
  have hsound := sound_step hstep h
  cases hverdict : next.verdict with
  | none =>
      have hless := weight_step hstep
      rcases exists_run_returned hsound hverdict houtcome with ⟨final, hrun, hfinal⟩
      exact ⟨final, Relation.ReflTransGen.head hstep hrun, hfinal⟩
  | some verdict =>
      cases verdict with
      | timedOut => exact absurd hverdict hnext
      | returned other =>
          -- The invariant leaves only one result.
          have hother := hsound.returned other hverdict
          rw [houtcome] at hother
          cases hother
          exact ⟨next, Relation.ReflTransGen.single hstep, hverdict⟩
termination_by r.weight

/-!
## Every order of the steps
-/

section Runs

variable {timeout : Duration} {script : Script} {final : Relay}

theorem outcome_of_run (hrun : Run timeout (start script) final)
    {result : Except Failure Text} (hresult : final.verdict = some (.returned result)) :
    script.outlook.outcome? timeout = some result :=
  (sound_of_run hrun).returned result hresult

/-- Reading in sequence is one of the runs. -/
theorem exists_run_of_read {now : Instant} {reading : Reading} {next : Stream}
    (h : Stream.read now (Stream.ofScript script timeout) = .ok (reading, next)) :
    exists (final : Relay) (verdict : Verdict), Run timeout (start script) final ∧
      final.verdict = some verdict ∧ verdict.result timeout = reading.result := by
  rcases Stream.result_of_read h with houtcome | ⟨_, hresult⟩
  · rcases exists_run_returned (sound_start script) rfl houtcome with ⟨final, hrun, hfinal⟩
    exact ⟨final, _, hrun, hfinal, rfl⟩
  · exact ⟨_, _, Relation.ReflTransGen.single .timeOut, rfl, hresult.symm⟩

end Runs

theorem every_run_ends_in_outcome (timeout : Duration) :
    (forall (script : Script) (final : Relay) (verdict : Verdict),
      Run timeout (start script) final -> final.verdict = some verdict ->
        (verdict = .timedOut ∧ final.buffer = [] ∧
            verdict.result timeout = .error (.noInput timeout.reportedMillis)) ∨
          script.outlook.outcome? timeout = some (verdict.result timeout)) ∧
      (forall (script other : Script) (final last : Relay) (result next : Except Failure Text),
        script.data = other.data -> script.ending = other.ending ->
          Run timeout (start script) final -> final.verdict = some (.returned result) ->
            Run timeout (start other) last -> last.verdict = some (.returned next) ->
              result = next) ∧
      (forall (script : Script) (r : Relay) (result : Except Failure Text),
        Run timeout (start script) r -> r.verdict = none ->
          script.outlook.outcome? timeout = some result ->
            exists final : Relay,
              Run timeout r final ∧ final.verdict = some (.returned result)) ∧
      (forall (now deadline : Instant) (script : Script) (final : Relay)
          (result : Except Failure Text), now.after? timeout = some deadline ->
        Run timeout (start script) final -> final.verdict = some (.returned result) ->
          exists (reading : Reading) (next : Stream),
            Stream.read now (Stream.ofScript script timeout) = .ok (reading, next) ∧
              reading.result = result) ∧
      forall (now : Instant) (script : Script) (reading : Reading) (next : Stream),
        Stream.read now (Stream.ofScript script timeout) = .ok (reading, next) ->
          exists (final : Relay) (verdict : Verdict), Run timeout (start script) final ∧
            final.verdict = some verdict ∧ verdict.result timeout = reading.result := by
  refine ⟨?_, ?_, ?_, ?_, ?_⟩
  · intro script final verdict hrun hverdict
    cases verdict with
    | timedOut => exact Or.inl ⟨rfl, (sound_of_run hrun).timedOut hverdict, rfl⟩
    | returned result => exact Or.inr (outcome_of_run hrun hverdict)
  · intro script other final last result next hdata hending hrun hresult hlast hnext
    have hsame : script.outlook = other.outlook := by
      rw [Script.outlook, Script.outlook, hdata, hending]
    have houtcome := outcome_of_run hrun hresult
    rw [hsame, outcome_of_run hlast hnext] at houtcome
    exact (Option.some.inj houtcome).symm
  · intro script r result hrun hr houtcome
    exact exists_run_returned (sound_of_run hrun) hr houtcome
  · intro now deadline script final result hdeadline hrun hresult
    exact Stream.exists_read_of_outcome? hdeadline (outcome_of_run hrun hresult)
  · intro now script reading next hread
    exact exists_run_of_read hread

end Relay

end Input

end CallChains
