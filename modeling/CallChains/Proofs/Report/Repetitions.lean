import CallChains.Proofs.CallTrie.Insertions
import CallChains.Proofs.Report.Summary

/-!
# Repetitions do not show

A survey leaves repetitions out twice, among the raw matches and among the chains.  The
first time only saves work: a match that is met again would give the chains that are there
already, and in the order of first occurrences it changes nothing.  For the document the
second time saves work only, too, since a path that is inserted again changes nothing, and
neither does the empty chain, which makes no call.

Main statement: the chains of a survey are those of all its matches, and the document is that
of all chains of all matches, whatever is left out on the way.
-/

namespace CallChains

namespace Survey

theorem chains_ofText (p : Pattern) (text : Text) :
    (ofText p text).chains = FirstSeen.distinct ((p.chains text).filter (!·.isEmpty)) := by
  rw [chains_eq_distinct, allChains_ofText, List.filter_flatMap,
    FirstSeen.distinct_flatMap_distinct, Pattern.chains, List.filter_flatMap]

/-- Keeping all chains, repeated and empty ones too, builds the same trie. -/
theorem ofChains_chains_ofText (p : Pattern) (text : Text) :
    CallTrie.ofChains (ofText p text).chains = CallTrie.ofChains (p.chains text) := by
  apply CallTrie.ext_holds
  intro path
  rw [holds_ofChains_ofText_iff, CallTrie.holds_ofChains_iff]

end Survey

namespace Report

theorem document_of_ofText {settings : Settings} {p : Pattern}
    (h : Pattern.ofIdentifier? settings.identifier = some p) {text : Text} {report : Report}
    (hreport : ofText settings text = .ok report) :
    report.document =
      ⟨p.token, CallTrie.ofInsertions ((p.chains text).map Chain.calls)⟩ := by
  have hsums := (summarizes_of_ofText h hreport).2
  have htrie : report.document.trie = CallTrie.ofInsertions ((p.chains text).map Chain.calls) := by
    apply CallTrie.ext_holds
    intro path
    rw [hsums.holds, CallTrie.holds_ofInsertions_iff]
    simp only [List.mem_map, exists_exists_and_eq_and]
  rw [← htrie, ← hsums.root]

theorem ofText_without_deduplication {settings : Settings} {p : Pattern}
    (h : Pattern.ofIdentifier? settings.identifier = some p) {text : Text}
    (hfound : p.findAll text ≠ []) :
    (Survey.ofText p text).chains =
        FirstSeen.distinct
          (((p.findAll text).flatMap fun m =>
            ((Chain.read p.token m.text).split p.token).toList).filter (!·.isEmpty)) ∧
      exists report : Report, ofText settings text = .ok report ∧
        report.chainCount = (Survey.ofText p text).chains.length ∧
        report.document.trie =
          CallTrie.ofChains
            ((p.findAll text).flatMap fun m =>
              ((Chain.read p.token m.text).split p.token).toList) ∧
        report.methodCount =
          (CallTrie.ofChains
            ((p.findAll text).flatMap fun m =>
              ((Chain.read p.token m.text).split p.token).toList)).count := by
  have hchains : ((p.findAll text).flatMap fun m =>
      ((Chain.read p.token m.text).split p.token).toList) = p.chains text := by
    rw [Pattern.chains, Pattern.raws, List.flatMap_map]
    rfl
  rw [hchains]
  refine ⟨Survey.chains_ofText p text, ?_⟩
  have hne : ¬ (Survey.ofText p text).found.isEmpty = true := by
    rw [List.isEmpty_iff]
    exact hfound
  rw [ofText_eq h, Survey.report?, if_neg hne]
  refine ⟨_, rfl, rfl, ?_, ?_⟩
  · exact Survey.ofChains_chains_ofText p text
  · exact congrArg CallTrie.count (Survey.ofChains_chains_ofText p text)

/-- The first match comes again behind the second one, which holds a call of the first with
another mark. -/
theorem ofText_without_deduplication_repeated :
    Pattern.ofIdentifier? (Settings.unchecked "Lib".toList).identifier =
        some ⟨"Lib".toList, by decide⟩ ∧
      Pattern.findAll ⟨"Lib".toList, by decide⟩
          "Lib.a(Lib.b());\nLib.b();\nLib.a(Lib.b());".toList ≠ [] ∧
      exists report : Report,
        ofText (Settings.unchecked "Lib".toList)
            "Lib.a(Lib.b());\nLib.b();\nLib.a(Lib.b());".toList = .ok report ∧
          report.chainCount = 3 ∧ report.methodCount = 2 := by
  have h : Pattern.ofIdentifier? (Settings.unchecked "Lib".toList).identifier =
      some ⟨"Lib".toList, by decide⟩ := rfl
  have hfound : Pattern.findAll ⟨"Lib".toList, by decide⟩
      "Lib.a(Lib.b());\nLib.b();\nLib.a(Lib.b());".toList ≠ [] := by
    decide
  rcases ofText_without_deduplication h hfound with ⟨_, report, hreport, hchains, _, hmethods⟩
  refine ⟨h, hfound, report, hreport, ?_, ?_⟩
  · rw [hchains, Survey.length_chains_ofText]
    decide +kernel
  · rw [hmethods, CallTrie.ofChains, CallTrie.ofPaths_eq_ofInsertions]
    decide +kernel

end Report

end CallChains
