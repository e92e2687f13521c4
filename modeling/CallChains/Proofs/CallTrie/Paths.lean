import CallChains.CallTrie
import Mathlib.Data.Finset.Dedup
import Mathlib.Data.Set.Card

/-!
# Paths of a trie

What a trie says is which paths it holds: those that can be followed from its top.
Inserting a path adds the path with everything on the way to it.  A trie is
determined by the paths it holds, because its rows ascend, and its nodes are
counted by the paths that lead to them.
-/

namespace CallChains

namespace Forest

/-- The path can be followed from the top of the forest. -/
def Holds (forest : Forest) : List Text -> Prop
  | [] => True
  | name :: path => exists below : Forest, forest.child? name = some below ∧ below.Holds path

def paths : Forest -> List (List Text)
  | .nil => []
  | .branch name below others =>
      [name] :: (below.paths.map (List.cons name) ++ others.paths)

/-!
## Look-up in an ascending row
-/

theorem above_others {bound first : Text} {others : Forest} (hbound : bound < first)
    (habove : others.Above first) : others.Above bound := by
  cases others with
  | nil => exact trivial
  | branch next _ _ => exact List.lt_trans hbound habove

theorem lt_of_child?_eq_some {bound name : Text} {forest below : Forest}
    (h : forest.Ascending) (habove : forest.Above bound)
    (hchild : forest.child? name = some below) : bound < name := by
  induction forest with
  | nil => cases hchild
  | branch first lower others _ ihOthers =>
      unfold child? at hchild
      split at hchild
      · next hname =>
          rw [hname]
          exact habove
      · exact ihOthers h.2.2 (above_others habove h.1) hchild

theorem child?_eq_none_of_above {name : Text} {forest : Forest} (h : forest.Ascending)
    (habove : forest.Above name) : forest.child? name = none := by
  cases hchild : forest.child? name with
  | none => rfl
  | some below => exact absurd (lt_of_child?_eq_some h habove hchild) (List.lt_irrefl name)

theorem child?_branch_self (name : Text) (below others : Forest) :
    (branch name below others).child? name = some below := by
  simp [child?]

theorem child?_branch_of_ne {name first : Text} (h : name ≠ first) (below others : Forest) :
    (branch first below others).child? name = others.child? name := by
  simp [child?, h]

theorem insert_nil (path : List Text) : nil.insert path = ofPath path := by
  cases path with
  | nil => rfl
  | cons name path => rfl

theorem insert_branch (first name : Text) (below others : Forest) (path : List Text) :
    (branch first below others).insert (name :: path) =
      if name < first then branch name (ofPath path) (branch first below others)
      else if name = first then branch first (below.insert path) others
      else branch first below (others.insert (name :: path)) := by
  rw [insert]

theorem child?_insert_self {forest : Forest} (h : forest.Ascending) (name : Text)
    (path : List Text) :
    (forest.insert (name :: path)).child? name =
      some (((forest.child? name).getD nil).insert path) := by
  induction forest with
  | nil =>
      show (branch name (ofPath path) nil).child? name = some (nil.insert path)
      rw [child?_branch_self, insert_nil]
  | branch first below others _ ihOthers =>
      rw [insert_branch]
      split
      · next hlt =>
          have hnone : (branch first below others).child? name = none :=
            child?_eq_none_of_above h hlt
          rw [hnone, child?_branch_self, Option.getD_none, insert_nil]
      · split
        · next hname =>
            rw [hname, child?_branch_self, child?_branch_self, Option.getD_some]
        · next hname =>
            rw [child?_branch_of_ne hname, child?_branch_of_ne hname]
            exact ihOthers h.2.2

theorem child?_insert_of_ne {name other : Text} (hne : other ≠ name) (forest : Forest)
    (path : List Text) :
    (forest.insert (name :: path)).child? other = forest.child? other := by
  induction forest with
  | nil => exact child?_branch_of_ne hne (ofPath path) nil
  | branch first below others _ ihOthers =>
      rw [insert_branch]
      split
      · exact child?_branch_of_ne hne (ofPath path) _
      · split
        · next hname =>
            rw [hname] at hne
            rw [child?_branch_of_ne hne, child?_branch_of_ne hne]
        · by_cases hfirst : other = first
          · rw [hfirst, child?_branch_self, child?_branch_self]
          · rw [child?_branch_of_ne hfirst, child?_branch_of_ne hfirst]
            exact ihOthers

/-!
## The paths of an insertion
-/

theorem holds_nil_iff {path : List Text} : nil.Holds path <-> path = [] := by
  cases path with
  | nil => exact ⟨fun _ => rfl, fun _ => trivial⟩
  | cons name path =>
      constructor
      · intro hbelow
        rcases hbelow with ⟨below, hchild, _⟩
        cases hchild
      · intro h
        cases h

theorem holds_getD_iff {child : Option Forest} {path : List Text} :
    (child.getD nil).Holds path <->
      path = [] ∨ exists below : Forest, child = some below ∧ below.Holds path := by
  cases child with
  | none =>
      rw [Option.getD_none, holds_nil_iff]
      simp
  | some below =>
      cases path with
      | nil => exact ⟨fun _ => Or.inl rfl, fun _ => trivial⟩
      | cons name path => simp

theorem holds_insert_iff {forest : Forest} (h : forest.Ascending) (path other : List Text) :
    (forest.insert path).Holds other <-> other <+: path ∨ forest.Holds other := by
  induction path generalizing forest other with
  | nil =>
      have hinsert : forest.insert [] = forest := by
        cases forest <;> rfl
      rw [hinsert, List.prefix_nil]
      constructor
      · exact Or.inr
      · intro hcases
        rcases hcases with rfl | hholds
        · exact trivial
        · exact hholds
  | cons name path ih =>
      cases other with
      | nil => exact ⟨fun _ => Or.inl List.nil_prefix, fun _ => trivial⟩
      | cons first other =>
          by_cases hname : first = name
          · subst hname
            have hbelow : ((forest.child? first).getD nil).Ascending := by
              cases hchild : forest.child? first with
              | none => exact trivial
              | some below => exact ascending_child? h hchild
            simp only [Holds, child?_insert_self h, Option.some.injEq, exists_eq_left',
              ih hbelow, holds_getD_iff, List.cons_prefix_cons, true_and]
            constructor
            · intro hcases
              rcases hcases with hpath | rfl | hholds
              · exact Or.inl hpath
              · exact Or.inl List.nil_prefix
              · exact Or.inr hholds
            · intro hcases
              rcases hcases with hpath | hholds
              · exact Or.inl hpath
              · exact Or.inr (Or.inr hholds)
          · simp only [Holds, child?_insert_of_ne hname, List.cons_prefix_cons, hname,
              false_and, false_or]

/-!
## A forest is determined by its paths
-/

theorem holds_branch_self_iff {name : Text} {below others : Forest} {path : List Text} :
    (branch name below others).Holds (name :: path) <-> below.Holds path := by
  simp only [Holds, child?_branch_self, Option.some.injEq, exists_eq_left']

theorem holds_branch_of_ne_iff {name next : Text} (h : next ≠ name) {below others : Forest}
    {path : List Text} :
    (branch name below others).Holds (next :: path) <-> others.Holds (next :: path) := by
  simp only [Holds, child?_branch_of_ne h]

theorem not_holds_of_above {name : Text} {forest : Forest} (h : forest.Ascending)
    (habove : forest.Above name) (path : List Text) : ¬ forest.Holds (name :: path) := by
  intro hbelow
  rcases hbelow with ⟨below, hchild, _⟩
  rw [child?_eq_none_of_above h habove] at hchild
  cases hchild

theorem first_eq_of_holds_iff {name first : Text} {below lower others rest : Forest}
    (h : (branch name below others).Ascending) (hother : (branch first lower rest).Ascending)
    (hholds : forall path,
      (branch name below others).Holds path <-> (branch first lower rest).Holds path) :
    name = first := by
  have hname : ¬ name < first := by
    intro hlt
    exact not_holds_of_above hother hlt []
      ((hholds [name]).mp (holds_branch_self_iff.mpr trivial))
  have hfirst : ¬ first < name := by
    intro hlt
    exact not_holds_of_above h hlt []
      ((hholds [first]).mpr (holds_branch_self_iff.mpr trivial))
  exact Std.Trichotomous.trichotomous name first hname hfirst

theorem eq_of_holds_iff {forest other : Forest} (h : forest.Ascending)
    (hother : other.Ascending)
    (hholds : forall path, forest.Holds path <-> other.Holds path) : forest = other := by
  induction forest generalizing other with
  | nil =>
      cases other with
      | nil => rfl
      | branch first lower rest =>
          have hpath := (hholds [first]).mpr (holds_branch_self_iff.mpr trivial)
          cases holds_nil_iff.mp hpath
  | branch name below others ihBelow ihOthers =>
      cases other with
      | nil =>
          have hpath := (hholds [name]).mp (holds_branch_self_iff.mpr trivial)
          cases holds_nil_iff.mp hpath
      | branch first lower rest =>
          have hname := first_eq_of_holds_iff h hother hholds
          subst hname
          have hbelow : below = lower := by
            apply ihBelow h.2.1 hother.2.1
            intro path
            have hleft : below.Holds path <-> (branch name below others).Holds (name :: path) :=
              holds_branch_self_iff.symm
            rw [hleft, hholds, holds_branch_self_iff]
          have hothers : others = rest := by
            apply ihOthers h.2.2 hother.2.2
            intro path
            cases path with
            | nil => exact Iff.rfl
            | cons next path =>
                by_cases hnext : next = name
                · subst hnext
                  exact iff_of_false (not_holds_of_above h.2.2 h.1 path)
                    (not_holds_of_above hother.2.2 hother.1 path)
                · have hleft : others.Holds (next :: path) <->
                      (branch name below others).Holds (next :: path) :=
                    (holds_branch_of_ne_iff hnext).symm
                  rw [hleft, hholds, holds_branch_of_ne_iff hnext]
          rw [hbelow, hothers]

/-!
## Counting paths
-/

theorem length_paths (forest : Forest) : forest.paths.length = forest.count := by
  induction forest with
  | nil => rfl
  | branch name below others ihBelow ihOthers =>
      rw [paths, count, List.length_cons, List.length_append, List.length_map, ihBelow,
        ihOthers]
      omega

theorem mem_paths_branch_iff {name : Text} {below others : Forest} {path : List Text} :
    path ∈ (branch name below others).paths <->
      path = [name] ∨ (exists tail, tail ∈ below.paths ∧ name :: tail = path) ∨
        path ∈ others.paths := by
  rw [paths, List.mem_cons, List.mem_append, List.mem_map]

theorem mem_paths_iff {forest : Forest} (h : forest.Ascending) {path : List Text} :
    path ∈ forest.paths <-> path ≠ [] ∧ forest.Holds path := by
  induction forest generalizing path with
  | nil =>
      rw [holds_nil_iff]
      simp [paths]
  | branch name below others ihBelow ihOthers =>
      rw [mem_paths_branch_iff, ihOthers h.2.2]
      cases path with
      | nil => simp
      | cons first path =>
          by_cases hfirst : first = name
          · subst hfirst
            have hrow := not_holds_of_above h.2.2 h.1 path
            rw [holds_branch_self_iff]
            cases path with
            | nil => simp [Holds]
            | cons next path => simp [ihBelow h.2.1, hrow]
          · rw [holds_branch_of_ne_iff hfirst]
            simp [hfirst, Ne.symm hfirst]

theorem nodup_paths {forest : Forest} (h : forest.Ascending) : forest.paths.Nodup := by
  induction forest with
  | nil => exact List.nodup_nil
  | branch name below others ihBelow ihOthers =>
      have hrow : forall path, name :: path ∉ others.paths := by
        intro path hmem
        exact not_holds_of_above h.2.2 h.1 path ((mem_paths_iff h.2.2).mp hmem).2
      have hnil : [] ∉ below.paths := by
        intro hmem
        exact ((mem_paths_iff h.2.1).mp hmem).1 rfl
      rw [paths, List.nodup_cons, List.nodup_append]
      refine ⟨?_, ?_, ihOthers h.2.2, ?_⟩
      · simp [hnil, hrow []]
      · exact (ihBelow h.2.1).map (List.cons_injective)
      · intro path hbelow other hothers hsame
        rcases List.mem_map.mp hbelow with ⟨tail, _, hpath⟩
        rw [← hsame, ← hpath] at hothers
        exact hrow tail hothers

end Forest

namespace CallTrie

def Holds (trie : CallTrie) (path : List Text) : Prop := (trie.follow? path).isSome

theorem holds_iff {trie : CallTrie} {path : List Text} :
    trie.Holds path <-> trie.forest.Holds path := by
  induction path generalizing trie with
  | nil => exact ⟨fun _ => trivial, fun _ => rfl⟩
  | cons name path ih =>
      have hforest := trie.forest_child? name
      rw [Holds, follow?_cons, Forest.Holds]
      cases hchild : trie.child? name with
      | none =>
          rw [hchild, Option.map_none] at hforest
          simp [← hforest]
      | some child =>
          rw [hchild, Option.map_some] at hforest
          rw [← hforest, Option.bind_some, ← Holds, ih]
          simp

theorem ext_holds {trie other : CallTrie}
    (h : forall path, trie.Holds path <-> other.Holds path) : trie = other := by
  apply ext
  apply Forest.eq_of_holds_iff trie.ascending other.ascending
  intro path
  rw [← holds_iff, ← holds_iff, h]

theorem holds_insert_iff {trie : CallTrie} {path other : List Text} :
    (trie.insert path).Holds other <-> other <+: path ∨ trie.Holds other := by
  rw [holds_iff, holds_iff]
  exact Forest.holds_insert_iff trie.ascending path other

theorem holds_empty_iff {path : List Text} : empty.Holds path <-> path = [] := by
  rw [holds_iff]
  exact Forest.holds_nil_iff

theorem holds_foldl_insert_iff {paths : List (List Text)} {trie : CallTrie}
    {other : List Text} :
    (paths.foldl insert trie).Holds other <->
      (exists path, path ∈ paths ∧ other <+: path) ∨ trie.Holds other := by
  induction paths generalizing trie with
  | nil => simp
  | cons path paths ih =>
      rw [List.foldl_cons, ih, holds_insert_iff, List.exists_mem_cons_iff]
      constructor
      · intro hcases
        rcases hcases with hlater | hfirst | htrie
        · exact Or.inl (Or.inr hlater)
        · exact Or.inl (Or.inl hfirst)
        · exact Or.inr htrie
      · intro hcases
        rcases hcases with (hfirst | hlater) | htrie
        · exact Or.inr (Or.inl hfirst)
        · exact Or.inl hlater
        · exact Or.inr (Or.inr htrie)

/-- The paths of the chains, with everything on the way to them. -/
theorem holds_ofChains_iff {chains : List Chain} {path : List Text} :
    (ofChains chains).Holds path <->
      path = [] ∨ exists chain, chain ∈ chains ∧ path <+: chain.calls := by
  unfold ofChains ofPaths
  rw [holds_foldl_insert_iff, holds_empty_iff, or_comm]
  simp

theorem encard_holds (trie : CallTrie) :
    Set.encard {path : List Text | path ≠ [] ∧ trie.Holds path} = trie.count := by
  have hpaths : {path : List Text | path ≠ [] ∧ trie.Holds path} =
      trie.forest.paths.toFinset := by
    ext path
    rw [Set.mem_ofPred_eq, holds_iff, ← Forest.mem_paths_iff trie.ascending]
    simp
  rw [hpaths, Set.encard_coe_eq_coe_finsetCard,
    List.toFinset_card_of_nodup (Forest.nodup_paths trie.ascending), Forest.length_paths]
  rfl

end CallTrie

end CallChains
