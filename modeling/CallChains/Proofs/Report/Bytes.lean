import CallChains.Proofs.Input.Runs
import CallChains.Proofs.Report.Lines
import CallChains.Proofs.Text.Encoding
import CallChains.Proofs.Text.Runs

/-!
# Mining in bytes

What a stream gives is bytes, and any bytes are a text, whether they encode one or not.  The
chunks in which they come have no part in the text, and neither have bytes that encode
nothing in what is mined: statements are made of characters with single bytes, and those are
kept.

Main statement: everything in a text that has single bytes is where it is in the bytes, and
what is mined in bytes with a newline among them is what is mined on either side of it.
-/

namespace CallChains

namespace Input

theorem Outlook.outcome?_eq_ok_iff {timeout : Duration} {o : Outlook} {text : Text} :
    o.outcome? timeout = some (.ok text) <->
      o.ending = .closed ∧ o.bytes ≠ [] ∧ text = Utf8.decode o.bytes := by
  rcases o with ⟨bytes, ending⟩
  cases ending with
  | closed =>
      by_cases hbytes : bytes = []
      · simp [outcome?, hbytes]
      · simp [outcome?, hbytes, eq_comm]
  | failed f => simp [outcome?]
  | silent => simp [outcome?]

theorem Relay.exists_run_ok_iff {timeout : Duration} {script : Script} {text : Text} :
    (exists final : Relay,
      Run timeout (start script) final ∧ final.verdict = some (.returned (.ok text))) <->
      script.ending = .closed ∧ script.data ≠ [] ∧ text = Utf8.decode script.data := by
  have houtcome : script.outlook.outcome? timeout = some (.ok text) <->
      script.ending = .closed ∧ script.data ≠ [] ∧ text = Utf8.decode script.data :=
    Outlook.outcome?_eq_ok_iff
  rw [← houtcome]
  constructor
  · intro h
    rcases h with ⟨final, hrun, hfinal⟩
    exact outcome_of_run hrun hfinal
  · intro h
    exact exists_run_returned (sound_start script) rfl h

theorem Stream.text_of_read {timeout : Duration} {now : Instant} {script : Script}
    {reading : Reading} {next : Stream} {text : Text}
    (h : read now (ofScript script timeout) = .ok (reading, next))
    (hresult : reading.result = .ok text) :
    script.ending = .closed ∧ script.data ≠ [] ∧ text = Utf8.decode script.data := by
  rcases result_of_read h with houtcome | ⟨_, herror⟩
  · rw [hresult] at houtcome
    exact Outlook.outcome?_eq_ok_iff.mp houtcome
  · rw [hresult] at herror
    cases herror

end Input

namespace Pattern

theorem raws_decode_newline {p : Pattern} (h : isIdentifier p.identifier = true)
    (bytes others : List UInt8) :
    p.raws (Utf8.decode (bytes ++ 0x0A :: others)) =
      p.raws (Utf8.decode bytes) ++ p.raws (Utf8.decode others) := by
  have hnewline : Utf8.ofSingle 0x0A = '\n' := rfl
  rw [Utf8.decode_append_cons rfl, hnewline, raws_append_newline (newline_notMem_lead h)]

end Pattern

namespace Report

open Input

theorem bytes_mined_as_text {settings : Settings} {p : Pattern} (h : settings.SearchesFor p)
    (timeout : Duration) :
    (forall (script : Script) (text : Text),
      (exists final : Relay, Relay.Run timeout (Relay.start script) final ∧
          final.verdict = some (.returned (.ok text))) <->
        script.ending = .closed ∧ script.data ≠ [] ∧ text = Utf8.decode script.data) ∧
      (forall (now deadline : Instant) (script : Script) (text : Text),
        now.after? timeout = some deadline ->
          ((exists (reading : Reading) (next : Stream),
            Stream.read now (Stream.ofScript script timeout) = .ok (reading, next) ∧
              reading.result = .ok text) <->
            script.ending = .closed ∧ script.data ≠ [] ∧ text = Utf8.decode script.data)) ∧
      (forall bytes : List UInt8,
        List.Forall₂ Utf8.Becomes (runs Utf8.isSingle bytes)
          (runs Utf8.hasSingle (Utf8.decode bytes))) ∧
      (forall bytes others : List UInt8,
        p.raws (Utf8.decode (bytes ++ 0x0A :: others)) =
          p.raws (Utf8.decode bytes) ++ p.raws (Utf8.decode others)) ∧
      (forall c : Char, c.isAlphanum = true ∨ c = '.' ∨ c = ';' ∨ c = '\n' ->
        Utf8.hasSingle c = true) ∧
      (forall (word : Text) (bytes : List UInt8) (before after : Text), word ≠ [] ->
        (forall c, c ∈ word -> Utf8.hasSingle c = true) ->
          (Utf8.decode bytes = before ++ (word ++ after) <->
            exists front back : List UInt8,
              bytes = front ++ (Utf8.encode word ++ back) ∧ Utf8.decode front = before ∧
                Utf8.decode back = after)) ∧
      forall text : Text, Utf8.decode (Utf8.encode text) = text := by
  refine ⟨?_, ?_, Utf8.forall₂_becomes_runs, ?_, ?_, ?_, Utf8.decode_encode⟩
  · intro script text
    exact Relay.exists_run_ok_iff
  · intro now deadline script text hdeadline
    constructor
    · intro hread
      rcases hread with ⟨reading, next, hread, hresult⟩
      exact Stream.text_of_read hread hresult
    · intro houtlook
      exact Stream.exists_read_of_outcome? hdeadline (Outlook.outcome?_eq_ok_iff.mpr houtlook)
  · exact Pattern.raws_decode_newline h.isIdentifier
  · intro c hc
    rcases hc with halphanum | rfl | rfl | rfl
    · exact Utf8.hasSingle_iff.mpr (toNat_of_isAlphanum halphanum).2
    · rfl
    · rfl
    · rfl
  · intro word bytes before after hne hword
    exact Utf8.decode_eq_append_iff hne hword

theorem bytes_mined_as_text_truncated :
    (Settings.unchecked "Lib".toList).SearchesFor ⟨"Lib".toList, by decide⟩ ∧
      (exists final : Relay,
        Relay.Run (Duration.ofMillis 500)
            (Relay.start [.data [0x61, 0xC3], .data [0xA9, 0x0A, 0xE2]]) final ∧
          final.verdict = some (.returned (.ok ['a', 'é', '\n', Utf8.replacement]))) ∧
      Pattern.raws ⟨"Lib".toList, by decide⟩
          (Utf8.decode ((Utf8.encode "Lib.x;".toList ++ [0xE2, 0x82]) ++
            0x0A :: ([0x82, 0xAC] ++ Utf8.encode "Lib.y;".toList))) =
        ["Lib.x;".toList, "Lib.y;".toList] := by
  have h : (Settings.unchecked "Lib".toList).SearchesFor ⟨"Lib".toList, by decide⟩ :=
    Settings.searchesFor_unchecked ⟨"Lib".toList, by decide⟩ (by decide)
  rcases bytes_mined_as_text h (Duration.ofMillis 500) with ⟨hrun, _, _, hraws, _⟩
  refine ⟨h, ?_, ?_⟩
  · exact (hrun _ _).mpr ⟨rfl, by decide, by decide⟩
  · rw [hraws]
    decide

end Report

end CallChains
