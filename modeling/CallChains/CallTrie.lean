import CallChains.Chain
import CallChains.Forest

/-!
# Call tries

A call trie holds paths of calls.  A node is given by its branches, the calls that
were chained on it, in strictly ascending order of their names.  Because the order
is part of the type, two tries that hold the same calls are equal, whatever the
order in which the calls were inserted.
-/

namespace CallChains

structure CallTrie where
  forest : Forest
  ascending : forest.Ascending

namespace CallTrie

@[ext] theorem ext {s t : CallTrie} (h : s.forest = t.forest) : s = t := by
  cases s
  cases t
  cases h
  rfl

instance : DecidableEq CallTrie := fun s t =>
  decidable_of_iff (s.forest = t.forest) ⟨ext, congrArg forest⟩

def empty : CallTrie := ⟨.nil, trivial⟩

def insert (trie : CallTrie) (path : List Text) : CallTrie :=
  ⟨trie.forest.insert path, Forest.ascending_insert trie.ascending path⟩

/-- The trie of all paths.  They go in from the last to the first in alphabetical
order, so that each belongs at the front of the rows that it meets. -/
def ofPaths (paths : List (List Text)) : CallTrie :=
  (paths.mergeSort fun p q => !decide (p < q)).foldl insert empty

def ofChains (chains : List Chain) : CallTrie := ofPaths (chains.map Chain.calls)

def child? (trie : CallTrie) (name : Text) : Option CallTrie :=
  match h : trie.forest.child? name with
  | none => none
  | some below => some ⟨below, Forest.ascending_child? trie.ascending h⟩

def follow? (trie : CallTrie) (path : List Text) : Option CallTrie :=
  path.foldlM child? trie

def isLeaf (trie : CallTrie) : Bool := trie.forest.isEmpty

def count (trie : CallTrie) : Nat := trie.forest.count

@[simp] theorem follow?_nil (trie : CallTrie) : trie.follow? [] = some trie := rfl

@[simp] theorem follow?_cons (trie : CallTrie) (name : Text) (path : List Text) :
    trie.follow? (name :: path) = (trie.child? name).bind (follow? · path) := rfl

theorem forest_child? (trie : CallTrie) (name : Text) :
    (trie.child? name).map forest = trie.forest.child? name := by
  unfold child?
  split
  · next h => exact h.symm
  · next below h => exact h.symm

end CallTrie

end CallChains
