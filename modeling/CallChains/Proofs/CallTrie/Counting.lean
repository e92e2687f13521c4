import CallChains.Proofs.CallTrie.Insertions

/-!
# Counting nodes

Every node of a trie but its top is at the end of exactly one path that is not empty, so
counting nodes is counting paths.  An insertion adds a node for each prefix of the path that
was not held before, and where two tries are put together the nodes that both have are
counted once.

Main statement: the count of a node is the number of paths that lead on from it, and it grows
with insertions as the set of paths does.
-/

namespace CallChains

namespace CallTrie

/-- The paths to the nodes below the top. -/
def Paths (trie : CallTrie) : Set (List Text) := {path | path ≠ [] ∧ trie.Holds path}

theorem encard_paths (trie : CallTrie) : trie.Paths.encard = trie.count :=
  encard_holds trie

theorem holds_of_prefix {trie : CallTrie} {front path : List Text} (hfront : front <+: path)
    (h : trie.Holds path) : trie.Holds front := by
  rcases hfront with ⟨back, rfl⟩
  rw [Holds, follow?_append] at h
  exact Option.isSome_of_isSome_bind h

/-!
## Insertions
-/

theorem paths_insert (trie : CallTrie) (path : List Text) :
    (trie.insert path).Paths =
      trie.Paths ∪ {front | front ≠ [] ∧ front <+: path ∧ ¬ trie.Holds front} := by
  ext front
  simp only [Paths, Set.mem_union, Set.mem_ofPred_eq, holds_insert_iff]
  tauto

theorem count_insert (trie : CallTrie) (path : List Text) :
    ((trie.insert path).count : ENat) =
      trie.count + Set.encard {front | front ≠ [] ∧ front <+: path ∧ ¬ trie.Holds front} := by
  have hdisjoint :
      Disjoint trie.Paths {front | front ≠ [] ∧ front <+: path ∧ ¬ trie.Holds front} := by
    rw [Set.disjoint_left]
    intro front hpath hnew
    exact hnew.2.2 hpath.2
  rw [← encard_paths, ← encard_paths, paths_insert, Set.encard_union_eq hdisjoint]

theorem insert_of_holds {trie : CallTrie} {path : List Text} (h : trie.Holds path) :
    trie.insert path = trie := by
  apply ext_holds
  intro other
  rw [holds_insert_iff]
  constructor
  · intro hcases
    rcases hcases with hfront | hholds
    · exact holds_of_prefix hfront h
    · exact hholds
  · exact Or.inr

/-!
## Tries put together
-/

theorem holds_ofChains_append_iff {chains others : List Chain} {path : List Text} :
    (ofChains (chains ++ others)).Holds path <->
      (ofChains chains).Holds path ∨ (ofChains others).Holds path := by
  simp only [holds_ofChains_iff, List.mem_append, or_and_right, exists_or]
  exact or_or_distrib_left

theorem paths_ofChains_append (chains others : List Chain) :
    (ofChains (chains ++ others)).Paths = (ofChains chains).Paths ∪ (ofChains others).Paths := by
  ext path
  simp only [Paths, Set.mem_union, Set.mem_ofPred_eq, holds_ofChains_append_iff]
  exact and_or_left

theorem count_ofChains_append (chains others : List Chain) :
    ((ofChains (chains ++ others)).count : ENat) +
        Set.encard ((ofChains chains).Paths ∩ (ofChains others).Paths) =
      (ofChains chains).count + (ofChains others).count := by
  rw [← encard_paths, ← encard_paths, ← encard_paths, paths_ofChains_append,
    Set.encard_union_add_encard_inter]

theorem count_eq_encard_paths :
    (forall (paths : List (List Text)) (path : List Text) (node : CallTrie),
      (ofInsertions paths).follow? path = some node ->
        (node.count : ENat) =
          Set.encard {later : List Text | later ≠ [] ∧ (node.follow? later).isSome = true}) ∧
      (forall (paths : List (List Text)) (path : List Text),
        (((ofInsertions paths).insert path).count : ENat) =
          (ofInsertions paths).count +
            Set.encard {front : List Text | front ≠ [] ∧ front <+: path ∧
              (ofInsertions paths).follow? front = none}) ∧
      (forall (paths : List (List Text)) (path : List Text),
        ((ofInsertions paths).follow? path).isSome = true ->
          ((ofInsertions paths).insert path).count = (ofInsertions paths).count) ∧
      forall chains others : List Chain,
        ((ofChains (chains ++ others)).count : ENat) +
            Set.encard {path : List Text | path ≠ [] ∧
              ((ofChains chains).follow? path).isSome = true ∧
              ((ofChains others).follow? path).isSome = true} =
          (ofChains chains).count + (ofChains others).count := by
  refine ⟨?_, ?_, ?_, ?_⟩
  · intro paths path node _
    exact (encard_holds node).symm
  · intro paths path
    rw [count_insert]
    simp only [Holds, Option.not_isSome_iff_eq_none]
  · intro paths path h
    rw [insert_of_holds h]
  · intro chains others
    rw [← count_ofChains_append]
    congr 2
    ext path
    simp only [Paths, Holds, Set.mem_inter_iff, Set.mem_ofPred_eq]
    tauto

end CallTrie

end CallChains
