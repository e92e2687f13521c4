import CallChains.Proofs.Report.Lines

/-!
# What a report means

A report can be read off the lines of its text.  A line with a statement of the
identifier holds exactly one raw match and any other line none, so there is a report
exactly if some line has a statement.  The counts and the paths of the document then
follow from the raw matches and from the chains they hold.
-/

namespace CallChains

namespace RawMatch

instance (lead text : Text) : Decidable (HasStatement lead text) :=
  decidable_of_iff (scan lead 0 0 [] text ≠ [])
    (ne_nil_iff_hasStatement (finds_scan lead 0 text))

end RawMatch

namespace Pattern

open RawMatch

/-!
## Lines with a statement
-/

theorem length_raws_of_newlineFree (p : Pattern) {line : Text} (hline : '\n' ∉ line) :
    (p.raws line).length = if HasStatement p.lead line then 1 else 0 := by
  have hfinds := finds_findAll p line
  have hne := ne_nil_iff_hasStatement hfinds
  have hle := length_le_one hfinds hline
  rw [raws, List.length_map]
  by_cases hhas : HasStatement p.lead line
  · have hpos := List.length_pos_iff.mpr (hne.mpr hhas)
    rw [if_pos hhas]
    omega
  · rw [if_neg hhas, List.length_eq_zero_iff]
    by_contra hfound
    exact hhas (hne.mp hfound)

theorem length_flatMap_raws (p : Pattern) {lines : List Text}
    (hlines : forall line, line ∈ lines -> '\n' ∉ line) :
    (lines.flatMap p.raws).length = lines.countP (HasStatement p.lead ·) := by
  induction lines with
  | nil => rfl
  | cons line lines ih =>
      rw [List.forall_mem_cons] at hlines
      rw [List.flatMap_cons, List.length_append, ih hlines.2,
        length_raws_of_newlineFree p hlines.1, List.countP_cons, Nat.add_comm]
      simp

theorem length_raws_eq_countP {p : Pattern} (h : '\n' ∉ p.lead) (text : Text) :
    (p.raws text).length = text.lines.countP (HasStatement p.lead ·) := by
  rw [raws_eq_flatMap_lines h]
  apply length_flatMap_raws
  intro line hline
  exact Text.newline_notMem_of_mem_lines hline

theorem raws_ne_nil_iff {p : Pattern} (h : '\n' ∉ p.lead) {text : Text} :
    p.raws text ≠ [] <-> exists line, line ∈ text.lines ∧ HasStatement p.lead line := by
  rw [← List.length_pos_iff, length_raws_eq_countP h, List.countP_pos_iff]
  simp

end Pattern

namespace Report

open RawMatch

/-!
## Reading off a report
-/

section Summary

variable {report : Report} {p : Pattern} {text : Text}

theorem Summarizes.textCount_bounds (h : report.Summarizes p text) (hne : p.raws text ≠ []) :
    1 <= report.textCount ∧ report.textCount <= report.matchCount := by
  rw [h.textCount, h.matchCount]
  constructor
  · rcases List.exists_mem_of_ne_nil _ hne with ⟨raw, hraw⟩
    exact Finset.card_pos.mpr ⟨raw, List.mem_toFinset.mpr hraw⟩
  · exact List.toFinset_card_le _

theorem Summarizes.chainCount_eq (h : report.Summarizes p text)
    (hidentifier : isIdentifier p.identifier = true) :
    report.chainCount = (p.chains text).toFinset.card := by
  rw [h.chainCount, Finset.erase_eq_of_notMem]
  intro hnil
  rcases Pattern.exists_cons_of_mem_chains hidentifier (List.mem_toFinset.mp hnil)
    with ⟨tokens, hcons, _⟩
  cases hcons

theorem Summarizes.chainCount_pos (h : report.Summarizes p text)
    (hidentifier : isIdentifier p.identifier = true) (hne : p.raws text ≠ []) :
    1 <= report.chainCount := by
  rw [h.chainCount_eq hidentifier]
  rcases List.exists_mem_of_ne_nil _ (Pattern.chains_ne_nil hne) with ⟨chain, hchain⟩
  exact Finset.card_pos.mpr ⟨chain, List.mem_toFinset.mpr hchain⟩

/-- Every chain begins with the token of the identifier, so a path runs along the names
of the tokens behind it. -/
theorem Summarizes.holds_iff (h : report.Summarizes p text)
    (hidentifier : isIdentifier p.identifier = true) (hne : p.raws text ≠ [])
    {path : List Text} :
    report.document.trie.Holds path <->
      exists raw, raw ∈ p.raws text ∧ exists tokens : Chain,
        p.token :: tokens ∈ p.chainsOf raw ∧ path <+: tokens.map Token.name := by
  rw [h.holds_iff_exists_chain hne]
  constructor
  · intro hpath
    rcases hpath with ⟨chain, hchain, hpath⟩
    rcases Pattern.exists_cons_of_mem_chains hidentifier hchain with ⟨tokens, hcons, _⟩
    rcases Pattern.mem_chains_iff.mp hchain with ⟨raw, hraw, hmem⟩
    rw [hcons] at hmem hpath
    exact ⟨raw, hraw, tokens, hmem, hpath⟩
  · intro hpath
    rcases hpath with ⟨raw, hraw, tokens, hmem, hpath⟩
    exact ⟨_, Pattern.mem_chains_iff.mpr ⟨raw, hraw, hmem⟩, hpath⟩

end Summary

theorem ofText_reads_lines {settings : Settings} {p : Pattern} (h : settings.SearchesFor p)
    (text : Text) :
    ((exists report : Report, ofText settings text = .ok report) <->
        exists line, line ∈ text.lines ∧ HasStatement (p.identifier ++ ['.']) line) ∧
      ((¬ exists line, line ∈ text.lines ∧ HasStatement (p.identifier ++ ['.']) line) ->
        ofText settings text = .error (.noMatches p)) ∧
      forall report : Report, ofText settings text = .ok report ->
        report.matchCount = text.lines.countP (HasStatement (p.identifier ++ ['.']) ·) ∧
        report.textCount = (p.raws text).toFinset.card ∧
        1 <= report.textCount ∧ report.textCount <= report.matchCount ∧
        1 <= report.chainCount ∧
        report.chainCount = (p.chains text).toFinset.card ∧
        report.document.root = ⟨settings.identifier ++ ['.']⟩ ∧
        (forall path : List Text, report.document.trie.Holds path <->
          exists raw, raw ∈ p.raws text ∧ exists tokens : Chain,
            p.token :: tokens ∈ p.chainsOf raw ∧ path <+: tokens.map Token.name) ∧
        Set.encard {path : List Text | path ≠ [] ∧ report.document.trie.Holds path} =
          report.methodCount := by
  rw [← Pattern.lead]
  have hidentifier := h.isIdentifier
  have hlead := Pattern.newline_notMem_lead hidentifier
  have hlines : p.raws text ≠ [] <->
      exists line, line ∈ text.lines ∧ HasStatement p.lead line :=
    Pattern.raws_ne_nil_iff hlead
  refine ⟨?_, ?_, ?_⟩
  · rw [← hlines]
    constructor
    · intro hreport
      rcases hreport with ⟨report, hreport⟩
      exact (summarizes_of_ofText h.fits hreport).1
    · intro hne
      rcases exists_ofText_of_ne_nil h.fits hne with ⟨report, hreport, _⟩
      exact ⟨report, hreport⟩
  · intro hnone
    rw [← hlines, not_not] at hnone
    exact ofText_of_nil h.fits hnone
  · intro report hreport
    rcases summarizes_of_ofText h.fits hreport with ⟨hne, hsums⟩
    rcases hsums.textCount_bounds hne with ⟨hpos, hle⟩
    refine ⟨?_, hsums.textCount, hpos, hle, hsums.chainCount_pos hidentifier hne,
      hsums.chainCount_eq hidentifier, ?_, ?_, ?_⟩
    · rw [hsums.matchCount, Pattern.length_raws_eq_countP hlead]
    · rw [hsums.root, Pattern.token, Pattern.identifier_of_ofIdentifier? h.fits]
      rfl
    · intro path
      exact hsums.holds_iff hidentifier hne
    · rw [CallTrie.encard_holds, hsums.methodCount]

theorem ofText_reads_lines_nested :
    (Settings.unchecked "Lib".toList).SearchesFor ⟨"Lib".toList, by decide⟩ ∧
      exists report : Report,
        ofText (Settings.unchecked "Lib".toList)
            "a.Lib.open(Lib.path());\nLib\n.x;Lib.open;".toList = .ok report ∧
          report.matchCount = 2 ∧ report.textCount = 2 ∧
          report.document.root = ⟨"Lib.".toList⟩ ∧
          report.document.trie.Holds ["path".toList] := by
  have h : (Settings.unchecked "Lib".toList).SearchesFor ⟨"Lib".toList, by decide⟩ :=
    Settings.searchesFor_unchecked ⟨"Lib".toList, by decide⟩ (by decide)
  rcases ofText_reads_lines h "a.Lib.open(Lib.path());\nLib\n.x;Lib.open;".toList with
    ⟨hsome, _, hreport⟩
  rcases hsome.mpr (by decide) with ⟨report, hok⟩
  rcases hreport report hok with ⟨hmatches, htexts, _, _, _, _, hroot, hpaths, _⟩
  refine ⟨h, report, hok, ?_, ?_, hroot, ?_⟩
  · rw [hmatches]
    decide
  · rw [htexts]
    decide
  · have hread : Chain.read ⟨"Lib.".toList⟩ "Lib.open(Lib.path());".toList =
        [⟨"Lib.".toList⟩, ⟨"open(".toList⟩, ⟨"Lib.".toList⟩, ⟨"path(".toList⟩] :=
      Chain.read_eq_iff.mpr (.token rfl (.token rfl (.token rfl (.token rfl (.stop rfl)))))
    rw [hpaths]
    refine ⟨"Lib.open(Lib.path());".toList, by decide, [⟨"path(".toList⟩], ?_, by decide⟩
    show _ ∈ (Chain.split ⟨"Lib.".toList⟩
      (Chain.read ⟨"Lib.".toList⟩ "Lib.open(Lib.path());".toList)).toList
    rw [hread]
    decide

end Report

end CallChains
