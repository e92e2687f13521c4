import CallChains.Document
import CallChains.Proofs.CallTrie.Paths
import CallChains.Proofs.Json.Compact
import CallChains.Proofs.Json.Value

/-!
# What a document says

The text of a document can be read by anyone who knows the format.  It says nothing but the
root and the paths of the trie, and says it in one way only: the keys of every object are in
strictly ascending order.

Main statement: reading undoes writing, the pretty text is the compact one with blanks, and
different documents have different texts.
-/

namespace CallChains

namespace Json

namespace Value

def member? (v : Value) (key : Text) : Option Value :=
  match v with
  | .object members => members.lookup key
  | _ => none

def Holds : Value -> List Text -> Prop
  | _, [] => True
  | v, key :: path => exists below : Value, v.member? key = some below ∧ below.Holds path

/-- On every level there is an object whose keys ascend strictly. -/
inductive Nested : Value -> Prop where
  | object {members : List (Text × Value)}
      (hkeys : (members.map Prod.fst).Pairwise fun key next => key < next)
      (hbelow : forall entry : Text × Value, entry ∈ members -> Nested entry.2) :
      Nested (.object members)

end Value

/-!
## The object of a forest
-/

theorem lookup_members (forest : Forest) (key : Text) :
    (members forest).lookup key = (forest.child? key).map Value.ofForest := by
  induction forest with
  | nil => rfl
  | branch name below others _ ihOthers =>
      rw [members, List.lookup_cons, Forest.child?]
      by_cases hkey : key = name
      · rw [hkey, beq_self_eq_true, if_pos rfl]
        rfl
      · rw [beq_false_of_ne hkey, if_neg hkey, ihOthers]

theorem holds_ofForest_iff {forest : Forest} {path : List Text} :
    (Value.ofForest forest).Holds path <-> forest.Holds path := by
  induction path generalizing forest with
  | nil => exact Iff.rfl
  | cons key path ih =>
      have hmember : (Value.ofForest forest).member? key =
          (forest.child? key).map Value.ofForest := lookup_members forest key
      rw [Value.Holds, hmember, Forest.Holds]
      cases forest.child? key with
      | none => simp
      | some below => simp [ih]

theorem lt_of_mem_members {bound : Text} {forest : Forest} (h : forest.Ascending)
    (habove : forest.Above bound) {entry : Text × Value} (hentry : entry ∈ members forest) :
    bound < entry.1 := by
  induction forest with
  | nil => cases hentry
  | branch name below others _ ihOthers =>
      rw [members, List.mem_cons] at hentry
      rcases hentry with rfl | hothers
      · exact habove
      · exact ihOthers h.2.2 (Forest.above_others habove h.1) hothers

theorem pairwise_members {forest : Forest} (h : forest.Ascending) :
    ((members forest).map Prod.fst).Pairwise fun key next => key < next := by
  induction forest with
  | nil => exact List.Pairwise.nil
  | branch name below others _ ihOthers =>
      rw [members, List.map_cons, List.pairwise_cons]
      refine ⟨?_, ihOthers h.2.2⟩
      intro key hkey
      rcases List.mem_map.mp hkey with ⟨entry, hentry, rfl⟩
      exact lt_of_mem_members h.2.2 h.1 hentry

theorem nested_of_mem_members {forest : Forest} (h : forest.Ascending)
    {entry : Text × Value} (hentry : entry ∈ members forest) : entry.2.Nested := by
  induction forest generalizing entry with
  | nil => cases hentry
  | branch name below others ihBelow ihOthers =>
      rw [members, List.mem_cons] at hentry
      rcases hentry with rfl | hothers
      · exact .object (pairwise_members h.2.1) fun _ => ihBelow h.2.1
      · exact ihOthers h.2.2 hothers

theorem nested_ofForest {forest : Forest} (h : forest.Ascending) :
    (Value.ofForest forest).Nested :=
  .object (pairwise_members h) fun _ => nested_of_mem_members h

theorem members_injective {forest other : Forest} (h : members forest = members other) :
    forest = other := by
  induction forest generalizing other with
  | nil =>
      cases other with
      | nil => rfl
      | branch first lower rest => cases h
  | branch name below others ihBelow ihOthers =>
      cases other with
      | nil => cases h
      | branch first lower rest =>
          injection h with hfirst hrest
          injection hfirst with hname hobject
          injection hobject with hlower
          rw [hname, ihBelow hlower, ihOthers hrest]

theorem pretty_injective {forest other : Forest} (h : pretty forest = pretty other) :
    forest = other := by
  have hread := Value.ofText?_pretty forest
  rw [h, Value.ofText?_pretty, Option.some.injEq] at hread
  injection hread with hmembers
  exact (members_injective hmembers).symm

end Json

namespace Document

theorem eq_of_object {d e : Document} (h : d.object = e.object) : d = e := by
  rcases d with ⟨⟨root⟩, trie⟩
  rcases e with ⟨⟨other⟩, next⟩
  injection h with hroot hforest
  have htrie : trie = next := CallTrie.ext hforest
  cases hroot
  cases htrie
  rfl

theorem pretty_lossless_canonical :
    (forall d : Document, exists below : Json.Value,
      Json.Value.ofText? d.pretty = some (.object [(d.root.text, below)]) ∧
        below.Nested ∧
        forall path : List Text, below.Holds path <-> d.trie.Holds path) ∧
      (forall d : Document, Json.withoutBlanks .outside d.pretty = d.compact) ∧
      forall d e : Document, d.pretty = e.pretty <-> d.root = e.root ∧ d.trie = e.trie := by
  refine ⟨?_, ?_, ?_⟩
  · intro d
    refine ⟨Json.Value.ofForest d.trie.forest, ?_, Json.nested_ofForest d.trie.ascending, ?_⟩
    · exact Json.Value.ofText?_pretty d.object
    · intro path
      rw [Json.holds_ofForest_iff, CallTrie.holds_iff]
  · intro d
    exact Json.withoutBlanks_pretty d.object
  · intro d e
    constructor
    · intro hpretty
      have hsame := eq_of_object (Json.pretty_injective hpretty)
      exact ⟨congrArg root hsame, congrArg trie hsame⟩
    · intro hsame
      rw [pretty, pretty, object, object, hsame.1, hsame.2]

end Document

end CallChains
