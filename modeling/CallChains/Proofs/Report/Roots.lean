import CallChains.Proofs.Chain.Cutting
import CallChains.Proofs.Report.Lines

/-!
# Where the chains begin

For a valid identifier every raw match is read as a chain that begins with the token of
the identifier, whatever stands before the match in the text, and so is every part that
the chain is split into.  Leaving out the first token of each part therefore takes away
the tokens of the identifier, all of them and nothing else, and what is left names the
nodes of the document.
-/

namespace CallChains

namespace Chain

theorem flatten_map_tail_split {identifier : Token} (tail : Chain) :
    ((split identifier (identifier :: tail)).toList.map List.tail).flatten =
      tail.filter (· != identifier) := by
  have hbegins : forall part, part ∈ (split identifier (identifier :: tail)).toList ->
      part.head? = some identifier := by
    intro part hpart
    rcases exists_cons_of_mem_split hpart with ⟨calls, hcons, _⟩
    rw [hcons, List.head?_cons]
  have hfree : forall part, part ∈ (split identifier (identifier :: tail)).toList ->
      identifier ∉ part.tail := by
    intro part hpart
    exact notMem_tail_of_mem_split hpart
  rw [flatten_map_tail_of_begins hbegins hfree, flatten_toList_split,
    List.filter_cons_of_neg (by simp)]

end Chain

namespace Survey

theorem exists_findAll_of_mem_stages {p : Pattern} {text : Text} {stage : Stage}
    (h : stage ∈ (ofText p text).stages) :
    exists m, m ∈ p.findAll text ∧ stage = Stage.ofRaw p.token m.text := by
  rcases List.mem_map.mp h with ⟨raw, hraw, hstage⟩
  rcases List.mem_map.mp (FirstSeen.mem_distinct_iff.mp hraw) with ⟨m, hm, htext⟩
  exact ⟨m, hm, by rw [← hstage, htext]; rfl⟩

end Survey

namespace Report

/-- The nodes of the document are named by tokens that are not the identifier. -/
theorem Summarizes.holds_iff_keys {report : Report} {p : Pattern} {text : Text}
    (h : report.Summarizes p text) (hidentifier : isIdentifier p.identifier = true)
    (hne : p.raws text ≠ []) {path : List Text} :
    report.document.trie.Holds path <->
      exists m, m ∈ p.findAll text ∧ exists keys calls : Chain,
        p.token :: (keys ++ calls) ∈ p.chainsOf m.text ∧ p.token ∉ keys ∧
          path = keys.map Token.name := by
  rw [h.holds_iff_exists_chain hne]
  constructor
  · intro hpath
    rcases hpath with ⟨chain, hchain, hpath⟩
    rcases Pattern.mem_chains_iff.mp hchain with ⟨raw, hraw, hmem⟩
    rcases List.mem_map.mp hraw with ⟨m, hm, rfl⟩
    rcases Pattern.exists_cons_of_mem_chainsOf hidentifier hm hmem with ⟨tokens, rfl, hfree⟩
    rcases List.prefix_map_iff.mp hpath with ⟨keys, hkeys, rfl⟩
    rcases hkeys with ⟨calls, rfl⟩
    refine ⟨m, hm, keys, calls, hmem, ?_, rfl⟩
    intro hin
    exact hfree (List.mem_append_left calls hin)
  · intro hkeys
    rcases hkeys with ⟨m, hm, keys, calls, hmem, _, rfl⟩
    refine ⟨_, Pattern.mem_chains_iff.mpr ⟨m.text, List.mem_map_of_mem hm, hmem⟩, ?_⟩
    exact ⟨calls.map Token.name, List.map_append.symm⟩

theorem mined_chains_rooted {settings : Settings} {p : Pattern} (h : settings.SearchesFor p)
    (text : Text) :
    (forall m, m ∈ p.findAll text ->
      exists tail : Chain, Chain.read p.token m.text = p.token :: tail ∧
        (forall part, part ∈ p.chainsOf m.text ->
          exists calls : Chain, part = p.token :: calls ∧ p.token ∉ calls) ∧
        ((p.chainsOf m.text).map List.tail).flatten = tail.filter (· != p.token)) ∧
      (forall stage, stage ∈ (Survey.ofText p text).stages -> [] ∉ stage.split.toList) ∧
      (forall chain, chain ∈ (Survey.ofText p text).chains ->
        exists calls : Chain, chain = p.token :: calls ∧ p.token ∉ calls ∧
          chain.calls = calls.map Token.name) ∧
      forall report : Report, ofText settings text = .ok report ->
        forall path : List Text, report.document.trie.Holds path <->
          exists m, m ∈ p.findAll text ∧ exists keys calls : Chain,
            p.token :: (keys ++ calls) ∈ p.chainsOf m.text ∧ p.token ∉ keys ∧
              path = keys.map Token.name := by
  have hidentifier := h.isIdentifier
  refine ⟨?_, ?_, ?_, ?_⟩
  · intro m hm
    rcases Pattern.exists_read_of_mem_findAll hidentifier hm with ⟨tail, htail⟩
    refine ⟨tail, htail, ?_, ?_⟩
    · intro part hpart
      exact Pattern.exists_cons_of_mem_chainsOf hidentifier hm hpart
    · rw [Pattern.chainsOf, htail, Chain.flatten_map_tail_split]
  · intro stage hstage hnil
    rcases Survey.exists_findAll_of_mem_stages hstage with ⟨m, hm, rfl⟩
    rcases Pattern.exists_cons_of_mem_chainsOf hidentifier hm hnil with ⟨calls, hcons, _⟩
    cases hcons
  · intro chain hchain
    rcases Pattern.exists_cons_of_mem_chains hidentifier
      (Survey.mem_chains_ofText_iff.mp hchain).1 with ⟨calls, rfl, hfree⟩
    exact ⟨calls, rfl, hfree, rfl⟩
  · intro report hreport path
    rcases summarizes_of_ofText h.fits hreport with ⟨hne, hsums⟩
    exact hsums.holds_iff_keys hidentifier hne

theorem mined_chains_rooted_behind_letters :
    (Settings.unchecked "Lib".toList).SearchesFor ⟨"Lib".toList, by decide⟩ ∧
      ⟨2, "Lib.open(Lib.path());".toList⟩ ∈
        Pattern.findAll ⟨"Lib".toList, by decide⟩ "myLib.open(Lib.path());".toList ∧
      exists tail : Chain,
        Chain.read ⟨"Lib.".toList⟩ "Lib.open(Lib.path());".toList =
          ⟨"Lib.".toList⟩ :: tail ∧
        forall part, part ∈ Pattern.chainsOf ⟨"Lib".toList, by decide⟩
            "Lib.open(Lib.path());".toList ->
          exists calls : Chain, part = ⟨"Lib.".toList⟩ :: calls ∧ ⟨"Lib.".toList⟩ ∉ calls := by
  have h : (Settings.unchecked "Lib".toList).SearchesFor ⟨"Lib".toList, by decide⟩ :=
    Settings.searchesFor_unchecked ⟨"Lib".toList, by decide⟩ (by decide)
  have hm : ⟨2, "Lib.open(Lib.path());".toList⟩ ∈
      Pattern.findAll ⟨"Lib".toList, by decide⟩ "myLib.open(Lib.path());".toList := by
    decide
  rcases (mined_chains_rooted h "myLib.open(Lib.path());".toList).1 _ hm with
    ⟨tail, htail, hparts, _⟩
  exact ⟨h, hm, tail, htail, hparts⟩

end Report

end CallChains
