import CallChains.Proofs.CallTrie.Paths
import CallChains.Proofs.Chain.Reading
import CallChains.Proofs.Chain.Splitting
import CallChains.Proofs.FirstSeen
import CallChains.Proofs.RawMatch.Lines
import CallChains.Report

/-!
# What a report sums up

A report is made stage by stage, with repetitions left out on the way.  What it says
in the end can be read off the raw matches of the text and the chains they hold: how
many there are, how many of them differ, and which calls they make.
-/

namespace CallChains

namespace Pattern

def raws (p : Pattern) (text : Text) : List Text := (p.findAll text).map RawMatch.text

def token (p : Pattern) : Token := Token.ofIdentifier p.identifier

def chainsOf (p : Pattern) (raw : Text) : List Chain :=
  ((Chain.read p.token raw).split p.token).toList

def chains (p : Pattern) (text : Text) : List Chain := (p.raws text).flatMap p.chainsOf

theorem identifier_of_ofIdentifier? {identifier : Text} {p : Pattern}
    (h : ofIdentifier? identifier = some p) : p.identifier = identifier := by
  unfold ofIdentifier? at h
  split at h
  · cases h
    rfl
  · cases h

theorem mem_chains_iff {p : Pattern} {text : Text} {chain : Chain} :
    chain ∈ p.chains text <-> exists raw, raw ∈ p.raws text ∧ chain ∈ p.chainsOf raw :=
  List.mem_flatMap

theorem chains_ne_nil {p : Pattern} {text : Text} (h : p.raws text ≠ []) :
    p.chains text ≠ [] := by
  rcases List.exists_mem_of_ne_nil _ h with ⟨raw, hraw⟩
  rcases List.exists_mem_of_ne_nil _ (Chain.toList_split_ne_nil p.token (Chain.read p.token raw))
    with ⟨chain, hchain⟩
  exact List.ne_nil_of_mem (mem_chains_iff.mpr ⟨raw, hraw, hchain⟩)

end Pattern

structure Report.Summarizes (report : Report) (p : Pattern) (text : Text) : Prop where
  matchCount : report.matchCount = (p.raws text).length
  textCount : report.textCount = (p.raws text).toFinset.card
  chainCount : report.chainCount = ((p.chains text).toFinset.erase []).card
  methodCount : report.methodCount = report.document.trie.count
  root : report.document.root = p.token
  holds : forall path, report.document.trie.Holds path <->
    path = [] ∨ exists chain, chain ∈ p.chains text ∧ path <+: chain.calls

theorem Report.Summarizes.holds_iff_exists_chain {report : Report} {p : Pattern} {text : Text}
    (h : report.Summarizes p text) (hne : p.raws text ≠ []) {path : List Text} :
    report.document.trie.Holds path <->
      exists chain, chain ∈ p.chains text ∧ path <+: chain.calls := by
  rw [h.holds]
  constructor
  · intro hpath
    rcases hpath with hnil | hchain
    · rcases List.exists_mem_of_ne_nil _ (Pattern.chains_ne_nil hne) with ⟨chain, hchain⟩
      exact ⟨chain, hchain, hnil ▸ List.nil_prefix⟩
    · exact hchain
  · exact Or.inr

namespace Survey

/-!
## The stages of a survey
-/

/-- The chains of all stages, the empty and the repeated ones too. -/
def allChains (s : Survey) : List Chain := s.stages.flatMap fun stage => stage.split.toList

theorem chains_eq_distinct (s : Survey) :
    s.chains = FirstSeen.distinct (s.allChains.filter (!·.isEmpty)) := by
  rw [chains, chainLists, allChains, ← List.flatMap_def, List.filter_flatMap]

theorem mem_chains_iff {s : Survey} {chain : Chain} :
    chain ∈ s.chains <-> chain ∈ s.allChains ∧ chain ≠ [] := by
  rw [chains_eq_distinct, FirstSeen.mem_distinct_iff, List.mem_filter]
  simp

theorem allChains_ofText (p : Pattern) (text : Text) :
    (ofText p text).allChains = (FirstSeen.distinct (p.raws text)).flatMap p.chainsOf := by
  rw [allChains, ofText, List.flatMap_map]
  rfl

theorem mem_chains_ofText_iff {p : Pattern} {text : Text} {chain : Chain} :
    chain ∈ (ofText p text).chains <-> chain ∈ p.chains text ∧ chain ≠ [] := by
  rw [mem_chains_iff, allChains_ofText, List.mem_flatMap, Pattern.mem_chains_iff]
  simp only [FirstSeen.mem_distinct_iff]

theorem length_stages_ofText (p : Pattern) (text : Text) :
    (ofText p text).stages.length = (p.raws text).toFinset.card := by
  rw [← FirstSeen.length_distinct]
  exact List.length_map _

theorem length_chains_ofText (p : Pattern) (text : Text) :
    (ofText p text).chains.length = ((p.chains text).toFinset.erase []).card := by
  rw [chains, FirstSeen.length_distinct]
  congr 1
  ext chain
  rw [List.mem_toFinset, Finset.mem_erase, List.mem_toFinset, ← FirstSeen.mem_distinct_iff,
    and_comm]
  exact mem_chains_ofText_iff

theorem holds_ofChains_ofText_iff {p : Pattern} {text : Text} {path : List Text} :
    (CallTrie.ofChains (ofText p text).chains).Holds path <->
      path = [] ∨ exists chain, chain ∈ p.chains text ∧ path <+: chain.calls := by
  rw [CallTrie.holds_ofChains_iff]
  constructor
  · intro h
    rcases h with hnil | ⟨chain, hchain, hpath⟩
    · exact Or.inl hnil
    · exact Or.inr ⟨chain, (mem_chains_ofText_iff.mp hchain).1, hpath⟩
  · intro h
    rcases h with hnil | ⟨chain, hchain, hpath⟩
    · exact Or.inl hnil
    · by_cases hne : chain = []
      · left
        rw [hne] at hpath
        exact List.prefix_nil.mp hpath
      · exact Or.inr ⟨chain, mem_chains_ofText_iff.mpr ⟨hchain, hne⟩, hpath⟩

theorem report?_ofText_of_nil {p : Pattern} {text : Text} (h : p.raws text = [])
    (output : Text) : (ofText p text).report? output = none := by
  have hfound : (ofText p text).found = [] := List.map_eq_nil_iff.mp h
  rw [report?, hfound]
  rfl

theorem exists_report?_ofText {p : Pattern} {text : Text} (h : p.raws text ≠ [])
    (output : Text) :
    exists report : Report,
      (ofText p text).report? output = some report ∧ report.Summarizes p text := by
  have hfound : (ofText p text).found ≠ [] := by
    intro hnil
    exact h (List.map_eq_nil_iff.mpr hnil)
  refine ⟨_, if_neg (by simpa using hfound), ?_⟩
  constructor
  · exact (List.length_map _).symm
  · exact length_stages_ofText p text
  · exact length_chains_ofText p text
  · rfl
  · rfl
  · intro path
    exact holds_ofChains_ofText_iff

end Survey

namespace Report

/-!
## The report of a text
-/

theorem ofText_eq {settings : Settings} {p : Pattern}
    (h : Pattern.ofIdentifier? settings.identifier = some p) (text : Text) :
    ofText settings text =
      match (Survey.ofText p text).report? settings.output with
      | none => .error (.noMatches p)
      | some report => .ok report := by
  have hsurvey : settings.survey text = .ok (Survey.ofText p text) := by
    rw [Settings.survey, h]
  rw [ofText, hsurvey]
  rfl

theorem ofText_of_nil {settings : Settings} {p : Pattern}
    (h : Pattern.ofIdentifier? settings.identifier = some p) {text : Text}
    (hraws : p.raws text = []) : ofText settings text = .error (.noMatches p) := by
  rw [ofText_eq h, Survey.report?_ofText_of_nil hraws]

theorem exists_ofText_of_ne_nil {settings : Settings} {p : Pattern}
    (h : Pattern.ofIdentifier? settings.identifier = some p) {text : Text}
    (hraws : p.raws text ≠ []) :
    exists report : Report,
      ofText settings text = .ok report ∧ report.Summarizes p text := by
  rcases Survey.exists_report?_ofText hraws settings.output with ⟨report, hreport, hsums⟩
  refine ⟨report, ?_, hsums⟩
  rw [ofText_eq h, hreport]

theorem summarizes_of_ofText {settings : Settings} {p : Pattern}
    (h : Pattern.ofIdentifier? settings.identifier = some p) {text : Text} {report : Report}
    (hreport : ofText settings text = .ok report) :
    p.raws text ≠ [] ∧ report.Summarizes p text := by
  by_cases hraws : p.raws text = []
  · rw [ofText_of_nil h hraws] at hreport
    cases hreport
  · rcases exists_ofText_of_ne_nil h hraws with ⟨other, hother, hsums⟩
    rw [hreport] at hother
    cases hother
    exact ⟨hraws, hsums⟩

end Report

end CallChains
