import CallChains.Proofs.CallTrie.Paths

/-!
# What a sequence of insertions builds

However often and in whatever order paths are inserted, the trie holds what lies on the way
to one of them and nothing else.  Its top is there before anything is inserted, so the
empty path is held in any case.

Main statement: the paths of the trie, its leaves and its equality with another trie are
those of the set of prefixes of what was inserted.
-/

namespace CallChains

namespace CallTrie

def ofInsertions (paths : List (List Text)) : CallTrie := paths.foldl insert empty

theorem holds_ofInsertions_iff {paths : List (List Text)} {path : List Text} :
    (ofInsertions paths).Holds path <->
      path = [] ∨ exists inserted, inserted ∈ paths ∧ path <+: inserted := by
  rw [ofInsertions, holds_foldl_insert_iff, holds_empty_iff, or_comm]

theorem ofPaths_eq_ofInsertions (paths : List (List Text)) :
    ofPaths paths = ofInsertions paths := by
  apply ext_holds
  intro path
  rw [holds_ofInsertions_iff, ofPaths, holds_foldl_insert_iff, holds_empty_iff, or_comm]
  simp only [List.mem_mergeSort]

/-!
## Leaves
-/

theorem follow?_append (trie : CallTrie) (path later : List Text) :
    trie.follow? (path ++ later) = (trie.follow? path).bind (follow? · later) :=
  List.foldlM_append

theorem holds_append_iff {trie node : CallTrie} {path : List Text}
    (h : trie.follow? path = some node) {later : List Text} :
    trie.Holds (path ++ later) <-> node.Holds later := by
  rw [Holds, follow?_append, h, Option.bind_some, ← Holds]

theorem isLeaf_iff {trie : CallTrie} :
    trie.isLeaf = true <-> forall path, trie.Holds path -> path = [] := by
  constructor
  · intro hleaf path hholds
    rw [holds_iff] at hholds
    cases hforest : trie.forest with
    | nil =>
        rw [hforest] at hholds
        exact Forest.holds_nil_iff.mp hholds
    | branch name below others =>
        rw [isLeaf, hforest] at hleaf
        cases hleaf
  · intro hnil
    cases hforest : trie.forest with
    | nil =>
        rw [isLeaf, hforest]
        rfl
    | branch name below others =>
        have hname : trie.Holds [name] := by
          rw [holds_iff, hforest]
          exact Forest.holds_branch_self_iff.mpr trivial
        cases hnil [name] hname

theorem isLeaf_follow?_iff {paths : List (List Text)} {path : List Text} {node : CallTrie}
    (h : (ofInsertions paths).follow? path = some node) :
    node.isLeaf = true <->
      ¬ exists inserted, inserted ∈ paths ∧ path <+: inserted ∧ path ≠ inserted := by
  rw [isLeaf_iff]
  constructor
  · intro hnil hextends
    rcases hextends with ⟨inserted, hmem, ⟨later, hlater⟩, hne⟩
    have hnode : node.Holds later := by
      rw [← holds_append_iff h, hlater]
      exact holds_ofInsertions_iff.mpr (Or.inr ⟨inserted, hmem, List.prefix_rfl⟩)
    rw [hnil later hnode, List.append_nil] at hlater
    exact hne hlater
  · intro hnot later hnode
    rw [← holds_append_iff h, holds_ofInsertions_iff, List.append_eq_nil_iff] at hnode
    rcases hnode with hnil | ⟨inserted, hmem, hpath⟩
    · exact hnil.2
    · have hon : path <+: inserted := (List.prefix_append path later).trans hpath
      have hend : path = inserted := by
        by_contra hne
        exact hnot ⟨inserted, hmem, hon, hne⟩
      -- Nothing is left for `later`, since the inserted path is already at its end.
      have hlength := hpath.length_le
      rw [← hend, List.length_append] at hlength
      exact List.length_eq_zero_iff.mp (by omega)

/-!
## Equality
-/

theorem eq_iff_holds {trie other : CallTrie} :
    trie = other <-> forall path, trie.Holds path <-> other.Holds path := by
  constructor
  · intro h path
    rw [h]
  · exact ext_holds

theorem ofChains_eq_iff {chains others : List Chain} :
    ofChains chains = ofChains others <->
      forall path, path ≠ [] ->
        ((exists chain, chain ∈ chains ∧ path <+: chain.calls) <->
          exists chain, chain ∈ others ∧ path <+: chain.calls) := by
  rw [eq_iff_holds]
  constructor
  · intro h path hne
    have hpath := h path
    rw [holds_ofChains_iff, holds_ofChains_iff] at hpath
    simpa [hne] using hpath
  · intro h path
    rw [holds_ofChains_iff, holds_ofChains_iff]
    by_cases hnil : path = []
    · simp [hnil]
    · exact or_congr Iff.rfl (h path hnil)

theorem ofInsertions_prefix_closure :
    (forall (paths : List (List Text)) (path : List Text),
      ((ofInsertions paths).follow? path).isSome = true <->
        path = [] ∨ exists inserted, inserted ∈ paths ∧ path <+: inserted) ∧
      (forall (paths : List (List Text)) (path : List Text) (node : CallTrie),
        (ofInsertions paths).follow? path = some node ->
          (node.isLeaf = true <->
            ¬ exists inserted, inserted ∈ paths ∧ path <+: inserted ∧ path ≠ inserted)) ∧
      (forall paths others : List (List Text), ofInsertions paths = ofInsertions others <->
        {path : List Text | (ofInsertions paths).Holds path} =
          {path : List Text | (ofInsertions others).Holds path}) ∧
      (forall chains : List Chain, ofChains chains = ofInsertions (chains.map Chain.calls)) ∧
      forall chains others : List Chain, ofChains chains = ofChains others <->
        {path : List Text | path ≠ [] ∧ exists chain, chain ∈ chains ∧ path <+: chain.calls} =
          {path : List Text | path ≠ [] ∧
            exists chain, chain ∈ others ∧ path <+: chain.calls} := by
  refine ⟨?_, ?_, ?_, ?_, ?_⟩
  · intro paths path
    exact holds_ofInsertions_iff
  · intro paths path node h
    exact isLeaf_follow?_iff h
  · intro paths others
    rw [eq_iff_holds, Set.ext_iff]
    rfl
  · intro chains
    exact ofPaths_eq_ofInsertions _
  · intro chains others
    rw [ofChains_eq_iff, Set.ext_iff]
    apply forall_congr'
    intro path
    exact and_congr_right_iff.symm

/-- The top is there although nothing was inserted. -/
theorem not_forall_follow?_iff_prefix :
    ¬ forall (paths : List (List Text)) (path : List Text),
      ((ofInsertions paths).follow? path).isSome = true <->
        exists inserted, inserted ∈ paths ∧ path <+: inserted := by
  intro h
  rcases (h [] []).mp rfl with ⟨inserted, hmem, _⟩
  cases hmem

end CallTrie

end CallChains
