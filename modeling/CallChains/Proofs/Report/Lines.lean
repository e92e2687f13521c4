import CallChains.Proofs.Report.Summary

/-!
# Reports line by line

For a valid identifier a text is mined line by line: the raw matches of a text are
those of its lines, one after another.  Whatever a report says apart from the number
of raw matches depends on the set of lines only, and what is mined in two texts with
a newline between them is what is mined in either of them.
-/

namespace CallChains

structure Settings.SearchesFor (settings : Settings) (p : Pattern) : Prop where
  accepted : exists base : Settings, Settings.ofIdentifier settings.identifier = .ok base
  fits : Pattern.ofIdentifier? settings.identifier = some p

theorem Settings.SearchesFor.isIdentifier {settings : Settings} {p : Pattern}
    (h : settings.SearchesFor p) : isIdentifier p.identifier = true := by
  rcases h.accepted with ⟨base, hbase⟩
  rw [Pattern.identifier_of_ofIdentifier? h.fits]
  unfold Settings.ofIdentifier at hbase
  split at hbase
  · next hvalid => exact hvalid
  · cases hbase

theorem Settings.searchesFor_unchecked (p : Pattern)
    (h : isIdentifier p.identifier = true) :
    (Settings.unchecked p.identifier).SearchesFor p := by
  constructor
  · exact ⟨Settings.unchecked p.identifier, if_pos h⟩
  · exact dif_pos p.fits

namespace Pattern

/-!
## Valid identifiers
-/

theorem newline_notMem_lead {p : Pattern} (h : isIdentifier p.identifier = true) :
    '\n' ∉ p.lead := by
  intro hmem
  rcases List.mem_append.mp hmem with hidentifier | hdot
  · exact notMem_of_isIdentifier h (by decide) hidentifier
  · exact absurd hdot (by decide)

/-- What stands before a raw match in the text has no part in how it is read. -/
theorem exists_read_of_mem_findAll {p : Pattern} (h : isIdentifier p.identifier = true)
    {text : Text} {m : RawMatch} (hm : m ∈ p.findAll text) :
    exists tail : Chain, Chain.read p.token m.text = p.token :: tail := by
  rcases RawMatch.exists_around (RawMatch.finds_findAll p text) hm with
    ⟨_, _, _, _, ⟨body, hbody, _⟩, _⟩
  have hraw : m.text = p.identifier ++ '.' :: (body ++ [';']) := by
    rw [hbody, lead, List.append_assoc, List.singleton_append]
  rw [hraw]
  exact Chain.exists_read_lead h (body ++ [';'])

theorem exists_cons_of_mem_chainsOf {p : Pattern} (h : isIdentifier p.identifier = true)
    {text : Text} {m : RawMatch} (hm : m ∈ p.findAll text) {chain : Chain}
    (hchain : chain ∈ p.chainsOf m.text) :
    exists tokens : Chain, chain = p.token :: tokens ∧ p.token ∉ tokens := by
  rcases exists_read_of_mem_findAll h hm with ⟨tail, htail⟩
  rw [chainsOf, htail] at hchain
  exact Chain.exists_cons_of_mem_split hchain

theorem exists_cons_of_mem_chains {p : Pattern} (h : isIdentifier p.identifier = true)
    {text : Text} {chain : Chain} (hchain : chain ∈ p.chains text) :
    exists tokens : Chain, chain = p.token :: tokens ∧ p.token ∉ tokens := by
  rcases mem_chains_iff.mp hchain with ⟨raw, hraw, hsplit⟩
  rcases List.mem_map.mp hraw with ⟨m, hm, rfl⟩
  exact exists_cons_of_mem_chainsOf h hm hsplit

/-!
## Raw matches of the lines
-/

theorem raws_append_newline {p : Pattern} (h : '\n' ∉ p.lead) (text other : Text) :
    p.raws (text ++ '\n' :: other) = p.raws text ++ p.raws other := by
  rw [raws, findAll_append_newline h, List.map_append, List.map_map, RawMatch.text_comp_later]
  rfl

theorem raws_join {p : Pattern} (h : '\n' ∉ p.lead) (texts : List Text) :
    p.raws (Text.join ['\n'] texts) = texts.flatMap p.raws := by
  induction texts with
  | nil => rfl
  | cons first texts ih =>
      cases texts with
      | nil => simp [Text.join]
      | cons second texts =>
          rw [Text.join_cons_cons, raws_append_newline h, ih]
          exact List.flatMap_cons.symm

theorem raws_eq_flatMap_lines {p : Pattern} (h : '\n' ∉ p.lead) (text : Text) :
    p.raws text = text.lines.flatMap p.raws := by
  rw [← raws_join h, Text.join_lines]

theorem mem_raws_join_iff {p : Pattern} (h : '\n' ∉ p.lead) {texts : List Text} {raw : Text} :
    raw ∈ p.raws (Text.join ['\n'] texts) <->
      exists line, line ∈ texts ∧ raw ∈ p.raws line := by
  rw [raws_join h, List.mem_flatMap]

theorem chains_append_newline {p : Pattern} (h : '\n' ∉ p.lead) (text other : Text) :
    p.chains (text ++ '\n' :: other) = p.chains text ++ p.chains other := by
  rw [chains, raws_append_newline h, List.flatMap_append]
  rfl

end Pattern

namespace Report

/-!
## Two texts with the same matches
-/

theorem document_eq_of_mem_raws_iff {p : Pattern} {text other : Text} {report next : Report}
    (h : report.Summarizes p text) (hnext : next.Summarizes p other)
    (hraws : forall raw, raw ∈ p.raws text <-> raw ∈ p.raws other) :
    report.document = next.document ∧ report.textCount = next.textCount ∧
      report.chainCount = next.chainCount ∧ report.methodCount = next.methodCount := by
  have hchains : forall chain, chain ∈ p.chains text <-> chain ∈ p.chains other := by
    intro chain
    simp only [Pattern.mem_chains_iff, hraws]
  have hdocument : report.document = next.document := by
    have hroot : report.document.root = next.document.root := by
      rw [h.root, hnext.root]
    have htrie : report.document.trie = next.document.trie := by
      apply CallTrie.ext_holds
      intro path
      simp only [h.holds, hnext.holds, hchains]
    cases hd : report.document
    cases hd' : next.document
    rw [hd, hd'] at hroot htrie
    cases hroot
    cases htrie
    rfl
  refine ⟨hdocument, ?_, ?_, ?_⟩
  · rw [h.textCount, hnext.textCount]
    congr 1
    ext raw
    rw [List.mem_toFinset, List.mem_toFinset, hraws]
  · rw [h.chainCount, hnext.chainCount]
    congr 2
    ext chain
    rw [List.mem_toFinset, List.mem_toFinset, hchains]
  · rw [h.methodCount, hnext.methodCount, hdocument]

theorem ofText_of_mem_raws_iff {settings : Settings} {p : Pattern}
    (h : Pattern.ofIdentifier? settings.identifier = some p) {text other : Text}
    (hraws : forall raw, raw ∈ p.raws text <-> raw ∈ p.raws other) :
    (ofText settings text = .error (.noMatches p) ∧
        ofText settings other = .error (.noMatches p)) ∨
      exists report next : Report,
        ofText settings text = .ok report ∧ ofText settings other = .ok next ∧
          report.document = next.document ∧ report.textCount = next.textCount ∧
          report.chainCount = next.chainCount ∧ report.methodCount = next.methodCount := by
  have hnil : p.raws text = [] <-> p.raws other = [] := by
    simp only [List.eq_nil_iff_forall_not_mem, hraws]
  by_cases htext : p.raws text = []
  · left
    exact ⟨ofText_of_nil h htext, ofText_of_nil h (hnil.mp htext)⟩
  · right
    have hother : p.raws other ≠ [] := by
      intro hother
      exact htext (hnil.mpr hother)
    rcases exists_ofText_of_ne_nil h htext with ⟨report, hreport, hsums⟩
    rcases exists_ofText_of_ne_nil h hother with ⟨next, hnext, hsums'⟩
    exact ⟨report, next, hreport, hnext, document_eq_of_mem_raws_iff hsums hsums' hraws⟩

/-!
## What is mined in a text
-/

/-- The paths of the document mined in a text; there are none without a report. -/
def minedPaths (settings : Settings) (text : Text) : Set (List Text) :=
  {path | exists report : Report,
    ofText settings text = .ok report ∧ report.document.trie.Holds path}

def minedMatches (settings : Settings) (text : Text) : Nat :=
  match ofText settings text with
  | .ok report => report.matchCount
  | .error _ => 0

theorem mem_minedPaths_iff {settings : Settings} {p : Pattern}
    (h : Pattern.ofIdentifier? settings.identifier = some p) {text : Text}
    {path : List Text} :
    path ∈ minedPaths settings text <->
      exists chain, chain ∈ p.chains text ∧ path <+: chain.calls := by
  constructor
  · intro hmem
    rcases hmem with ⟨report, hreport, hholds⟩
    rcases summarizes_of_ofText h hreport with ⟨hraws, hsums⟩
    exact (hsums.holds_iff_exists_chain hraws).mp hholds
  · intro hmem
    rcases hmem with ⟨chain, hchain, hpath⟩
    rcases Pattern.mem_chains_iff.mp hchain with ⟨raw, hraw, _⟩
    rcases exists_ofText_of_ne_nil h (List.ne_nil_of_mem hraw) with ⟨report, hreport, hsums⟩
    exact ⟨report, hreport, (hsums.holds path).mpr (Or.inr ⟨chain, hchain, hpath⟩)⟩

theorem minedPaths_append_newline {settings : Settings} {p : Pattern}
    (h : settings.SearchesFor p) (text other : Text) :
    minedPaths settings (text ++ '\n' :: other) =
      minedPaths settings text ∪ minedPaths settings other := by
  have hlead := Pattern.newline_notMem_lead h.isIdentifier
  ext path
  rw [Set.mem_union, mem_minedPaths_iff h.fits, mem_minedPaths_iff h.fits,
    mem_minedPaths_iff h.fits, Pattern.chains_append_newline hlead]
  simp only [List.mem_append, or_and_right, exists_or]

theorem minedMatches_eq {settings : Settings} {p : Pattern}
    (h : Pattern.ofIdentifier? settings.identifier = some p) (text : Text) :
    minedMatches settings text = (p.raws text).length := by
  unfold minedMatches
  by_cases hraws : p.raws text = []
  · rw [ofText_of_nil h hraws, hraws]
    rfl
  · rcases exists_ofText_of_ne_nil h hraws with ⟨report, hreport, hsums⟩
    rw [hreport]
    exact hsums.matchCount

theorem ofText_eq_error_iff {settings : Settings} {p : Pattern}
    (h : Pattern.ofIdentifier? settings.identifier = some p) {text : Text} :
    ofText settings text = .error (.noMatches p) <-> p.raws text = [] := by
  constructor
  · intro herror
    by_contra hraws
    rcases exists_ofText_of_ne_nil h hraws with ⟨report, hreport, _⟩
    rw [hreport] at herror
    cases herror
  · exact ofText_of_nil h

theorem ofText_of_lines {settings : Settings} {p : Pattern} (h : settings.SearchesFor p) :
    (forall lines others : List Text,
      (forall line, line ∈ lines <-> line ∈ others) ->
        (ofText settings (Text.join ['\n'] lines) = .error (.noMatches p) ∧
          ofText settings (Text.join ['\n'] others) = .error (.noMatches p)) ∨
        exists report next : Report,
          ofText settings (Text.join ['\n'] lines) = .ok report ∧
            ofText settings (Text.join ['\n'] others) = .ok next ∧
            report.document = next.document ∧
            report.document.pretty = next.document.pretty ∧
            report.textCount = next.textCount ∧ report.chainCount = next.chainCount ∧
            report.methodCount = next.methodCount) ∧
    forall text other : Text,
      p.raws (text ++ '\n' :: other) = p.raws text ++ p.raws other ∧
        minedPaths settings (text ++ '\n' :: other) =
          minedPaths settings text ∪ minedPaths settings other ∧
        minedMatches settings (text ++ '\n' :: other) =
          minedMatches settings text + minedMatches settings other ∧
        (ofText settings (text ++ '\n' :: other) = .error (.noMatches p) <->
          ofText settings text = .error (.noMatches p) ∧
            ofText settings other = .error (.noMatches p)) := by
  have hlead := Pattern.newline_notMem_lead h.isIdentifier
  constructor
  · intro lines others hsame
    have hraws : forall raw, raw ∈ p.raws (Text.join ['\n'] lines) <->
        raw ∈ p.raws (Text.join ['\n'] others) := by
      intro raw
      simp only [Pattern.mem_raws_join_iff hlead, hsame]
    rcases ofText_of_mem_raws_iff h.fits hraws with herror | hreports
    · exact Or.inl herror
    · rcases hreports with ⟨report, next, hreport, hnext, hdocument, hcounts⟩
      right
      exact ⟨report, next, hreport, hnext, hdocument, congrArg Document.pretty hdocument,
        hcounts⟩
  · intro text other
    have hraws := Pattern.raws_append_newline hlead text other
    refine ⟨hraws, minedPaths_append_newline h text other, ?_, ?_⟩
    · rw [minedMatches_eq h.fits, minedMatches_eq h.fits, minedMatches_eq h.fits, hraws,
        List.length_append]
    · rw [ofText_eq_error_iff h.fits, ofText_eq_error_iff h.fits, ofText_eq_error_iff h.fits,
        hraws, List.append_eq_nil_iff]

theorem ofText_of_lines_shuffled :
    (Settings.unchecked "Lib".toList).SearchesFor ⟨"Lib".toList, by decide⟩ ∧
      (exists report next : Report,
        ofText (Settings.unchecked "Lib".toList)
            (Text.join ['\n'] ["a.Lib.x();".toList, "Lib.y".toList, "Lib.x;".toList]) =
          .ok report ∧
        ofText (Settings.unchecked "Lib".toList)
            (Text.join ['\n'] ["Lib.x;".toList, "a.Lib.x();".toList, "Lib.y".toList,
              "Lib.x;".toList]) =
          .ok next ∧
        report.document = next.document) ∧
      minedMatches (Settings.unchecked "Lib".toList)
          ("Lib.x;".toList ++ '\n' :: "Lib.y;".toList) =
        minedMatches (Settings.unchecked "Lib".toList) "Lib.x;".toList +
          minedMatches (Settings.unchecked "Lib".toList) "Lib.y;".toList := by
  have h : (Settings.unchecked "Lib".toList).SearchesFor ⟨"Lib".toList, by decide⟩ :=
    Settings.searchesFor_unchecked ⟨"Lib".toList, by decide⟩ (by decide)
  rcases ofText_of_lines h with ⟨hsame, hunion⟩
  refine ⟨h, ?_, (hunion _ _).2.2.1⟩
  have hlines : forall line : Text,
      line ∈ ["a.Lib.x();".toList, "Lib.y".toList, "Lib.x;".toList] <->
        line ∈ ["Lib.x;".toList, "a.Lib.x();".toList, "Lib.y".toList, "Lib.x;".toList] := by
    intro line
    simp only [List.mem_cons, List.not_mem_nil, or_false]
    tauto
  rcases hsame _ _ hlines with herror | ⟨report, next, hreport, hnext, hdocument, _⟩
  · exact absurd ((ofText_eq_error_iff h.fits).mp herror.1) (by decide)
  · exact ⟨report, next, hreport, hnext, hdocument⟩

end Report

end CallChains
