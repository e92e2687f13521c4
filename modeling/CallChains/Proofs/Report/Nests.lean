import CallChains.Proofs.Nest.Reading
import CallChains.Proofs.Report.Lines

/-!
# Mining what was written

Lines that end in a written nest have one raw match each, the nest itself, and its
chains are those of the nest.  So the report of such lines holds exactly the paths along
their chains.
-/

namespace CallChains

namespace Nest

/-- A line with a nest at its end and no dot before it.  The nest is at depth `0`: no call
is open where it begins. -/
structure Line (identifier : Text) where
  before : Text
  nest : Nest
  dotFree : '.' ∉ before
  newlineFree : '\n' ∉ before
  allowed : nest.Allowed identifier 0

namespace Line

variable {identifier : Text}

def rendered (line : Line identifier) : Text := line.nest.render identifier 0

def text (line : Line identifier) : Text := line.before ++ line.rendered

end Line

end Nest

namespace Pattern

variable {p : Pattern}

/-!
## The matches of rendered lines
-/

theorem raws_line (h : isIdentifier p.identifier = true) (line : Nest.Line p.identifier) :
    p.raws line.text = [line.rendered] := by
  have hdot : '.' ∉ p.identifier := notMem_of_isIdentifier h (by decide)
  have hfinds := RawMatch.finds_append_statement hdot
    (Nest.isStatement_render h line.nest 0) line.dotFree 0
  have hfound : p.findAll line.text = [⟨0 + line.before.length, line.rendered⟩] :=
    RawMatch.finds_iff.mp hfinds
  rw [raws, hfound]
  rfl

theorem raws_lines (h : isIdentifier p.identifier = true)
    (lines : List (Nest.Line p.identifier)) :
    p.raws (Text.join ['\n'] (lines.map Nest.Line.text)) = lines.map Nest.Line.rendered := by
  rw [raws_join (newline_notMem_lead h)]
  induction lines with
  | nil => rfl
  | cons line lines ih =>
      rw [List.map_cons, List.flatMap_cons, raws_line h, ih]
      rfl

theorem chainsOf_rendered (h : isIdentifier p.identifier = true)
    (line : Nest.Line p.identifier) :
    p.chainsOf line.rendered = line.nest.tokens p.identifier 0 :=
  Nest.toList_split_read_render h line.allowed

theorem exists_mem_chains_lines_iff (h : isIdentifier p.identifier = true)
    {lines : List (Nest.Line p.identifier)} {path : List Text} :
    (exists chain, chain ∈ p.chains (Text.join ['\n'] (lines.map Nest.Line.text)) ∧
        path <+: chain.calls) <->
      exists line, line ∈ lines ∧ exists names, names ∈ line.nest.chains ∧ path <+: names := by
  constructor
  · intro hpath
    rcases hpath with ⟨chain, hchain, hpath⟩
    rcases mem_chains_iff.mp hchain with ⟨raw, hraw, hmem⟩
    rw [raws_lines h] at hraw
    rcases List.mem_map.mp hraw with ⟨line, hline, hrendered⟩
    rw [← hrendered, chainsOf_rendered h] at hmem
    refine ⟨line, hline, chain.calls, ?_, hpath⟩
    rw [← line.nest.map_calls_tokens 0]
    exact List.mem_map_of_mem hmem
  · intro hpath
    rcases hpath with ⟨line, hline, names, hnames, hpath⟩
    rw [← line.nest.map_calls_tokens 0] at hnames
    rcases List.mem_map.mp hnames with ⟨chain, hchain, hcalls⟩
    rw [← hcalls] at hpath
    rw [← chainsOf_rendered h] at hchain
    refine ⟨chain, mem_chains_iff.mpr ⟨line.rendered, ?_, hchain⟩, hpath⟩
    rw [raws_lines h]
    exact List.mem_map_of_mem hline

end Pattern

namespace Report

theorem ofText_undoes_rendering {settings : Settings} {p : Pattern}
    (h : settings.SearchesFor p) {lines : List (Nest.Line p.identifier)} (hne : lines ≠ []) :
    exists report : Report,
      ofText settings (Text.join ['\n'] (lines.map Nest.Line.text)) = .ok report ∧
        report.matchCount = lines.length ∧
        {path : List Text | path ≠ [] ∧ report.document.trie.Holds path} =
          {path : List Text | path ≠ [] ∧
            exists line, line ∈ lines ∧
              exists names, names ∈ line.nest.chains ∧ path <+: names} ∧
        report.textCount = (lines.map Nest.Line.rendered).toFinset.card ∧
        report.document.root = Token.ofIdentifier settings.identifier := by
  have hraws := Pattern.raws_lines h.isIdentifier lines
  have hsome : p.raws (Text.join ['\n'] (lines.map Nest.Line.text)) ≠ [] := by
    rw [hraws]
    intro hnil
    exact hne (List.map_eq_nil_iff.mp hnil)
  rcases exists_ofText_of_ne_nil h.fits hsome with ⟨report, hreport, hsums⟩
  refine ⟨report, hreport, ?_, ?_, ?_, ?_⟩
  · rw [hsums.matchCount, hraws, List.length_map]
  · ext path
    rw [Set.mem_ofPred_eq, Set.mem_ofPred_eq, hsums.holds_iff_exists_chain hsome,
      Pattern.exists_mem_chains_lines_iff h.isIdentifier]
  · rw [hsums.textCount, hraws]
  · rw [hsums.root, Pattern.token, Pattern.identifier_of_ofIdentifier? h.fits]

/-- The line `x Lib.a.open(Lib.f(Lib.Lib));`. -/
def nestedLine : Nest.Line "Lib".toList where
  before := "x ".toList
  nest := .within [.property ⟨"a".toList, by decide⟩] ⟨"open".toList, by decide⟩
    (.within [] ⟨"f".toList, by decide⟩ (.chain [] (.property ⟨"Lib".toList, by decide⟩)))
  dotFree := by decide
  newlineFree := by decide
  allowed := by simp [Nest.Allowed]

/-- The line `Lib.b().c;`. -/
def plainLine : Nest.Line "Lib".toList where
  before := []
  nest := .chain [.call ⟨"b".toList, by decide⟩] (.property ⟨"c".toList, by decide⟩)
  dotFree := by decide
  newlineFree := by decide
  allowed := by simp [Nest.Allowed]

theorem ofText_undoes_rendering_nested :
    exists report : Report,
      ofText (Settings.unchecked "Lib".toList)
          "x Lib.a.open(Lib.f(Lib.Lib));\nLib.b().c;".toList = .ok report ∧
        report.matchCount = 2 ∧
        {path : List Text | path ≠ [] ∧ report.document.trie.Holds path} =
          {path : List Text | path ≠ [] ∧
            exists names, names ∈ [["a".toList, "open".toList], ["f".toList], ["Lib".toList],
              ["b".toList, "c".toList]] ∧ path <+: names} := by
  have h : (Settings.unchecked "Lib".toList).SearchesFor ⟨"Lib".toList, by decide⟩ :=
    Settings.searchesFor_unchecked ⟨"Lib".toList, by decide⟩ (by decide)
  rcases ofText_undoes_rendering h (List.cons_ne_nil nestedLine [plainLine]) with
    ⟨report, hreport, hmatches, hpaths, _⟩
  refine ⟨report, hreport, hmatches, ?_⟩
  rw [hpaths]
  ext path
  simp [nestedLine, plainLine, Nest.chains, Segment.name, or_assoc]

end Report

end CallChains
