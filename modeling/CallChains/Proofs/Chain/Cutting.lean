import CallChains.Proofs.Chain.Splitting

/-!
# Cutting a chain step by step

A chain is cut by looking for the identifier behind the first token, cutting there, and
going on with what stands behind the cut.  A cut needs an index inside of the chain, so
going on may fail as far as can be seen from the outside.

Main statements: cutting step by step never fails and ends in the split of the chain,
and the split is the only decomposition of the chain at the places where the identifier
comes in again.
-/

namespace CallChains

namespace Split

def ofList : List Chain -> Split
  | [chain] => .whole chain
  | chains => .parts chains

theorem length_toList (s : Split) : s.toList.length = s.length := by
  cases s <;> rfl

theorem isEmpty_toList (s : Split) : s.toList.isEmpty = s.isEmpty := by
  rw [isEmpty, ← length_toList, Bool.eq_iff_iff, List.isEmpty_iff_length_eq_zero,
    beq_iff_eq]

theorem ofList_append_singleton (heads : List Chain) (chain : Chain) :
    ofList (heads ++ [chain]) =
      if heads.isEmpty then .whole chain else .parts (heads ++ [chain]) := by
  match heads with
  | [] => rfl
  | [_] => rfl
  | _ :: _ :: _ => rfl

end Split

namespace Chain

theorem le_of_indexFrom? {chain : Chain} {t : Token} {start index : Nat}
    (h : chain.indexFrom? t start = some index) : start <= index := by
  rcases Option.map_eq_some_iff.mp h with ⟨offset, _, hindex⟩
  rw [← hindex]
  exact Nat.le_add_right start offset

/-- Cut the chain before every identifier behind its first token, from the left; `heads`
holds the chains cut off so far.  A cut outside of the chain has no result. -/
def cutFrom? (identifier : Token) (heads : List Chain) (chain : Chain) : Option Split :=
  match _ : chain.indexFrom? identifier 1 with
  | none => some (if heads.isEmpty then .whole chain else .parts (heads ++ [chain]))
  | some start =>
      match _ : chain.splitAt? start with
      | none => none
      | some (head, tail) => cutFrom? identifier (heads ++ [head]) tail
termination_by chain.length
decreasing_by
  -- The search begins behind the first token, so what is cut off is not empty.
  rename_i hindex hcut
  rcases append_of_splitAt? hcut with ⟨hchain, hlength⟩
  have hstart := le_of_indexFrom? hindex
  rw [← hchain, List.length_append]
  omega

/-!
## A single cut
-/

section Cut

variable {identifier : Token}

theorem idxOf?_append_cons {front : Chain} (h : identifier ∉ front) (back : Chain) :
    (front ++ identifier :: back).idxOf? identifier = some front.length := by
  rw [List.idxOf?_eq_some_iff]
  refine ⟨by simp, by simp, ?_⟩
  intro index hindex
  rw [List.getElem_append_left hindex]
  exact ne_of_mem_of_not_mem (List.getElem_mem hindex) h

theorem indexFrom?_of_notMem {chain : Chain} (h : identifier ∉ chain.tail) :
    chain.indexFrom? identifier 1 = none := by
  rw [indexFrom?, List.drop_one, List.idxOf?_eq_none_iff.mpr h, Option.map_none]

theorem indexFrom?_append_cons {front : Chain} (hne : front ≠ [])
    (h : identifier ∉ front.tail) (back : Chain) :
    (front ++ identifier :: back).indexFrom? identifier 1 = some front.length := by
  cases front with
  | nil => exact absurd rfl hne
  | cons first front =>
      rw [List.tail_cons] at h
      rw [indexFrom?, List.drop_one, List.cons_append, List.tail_cons,
        idxOf?_append_cons h, Option.map_some, List.length_cons, Nat.add_comm]

theorem splitAt?_append (front back : Chain) :
    splitAt? (front ++ back) front.length = some (front, back) := by
  rw [splitAt?, if_pos (by simp), List.splitAt_eq, List.take_left, List.drop_left]

theorem cut_cases (identifier : Token) (chain : Chain) :
    identifier ∉ chain.tail ∨
      exists front back : Chain, chain = front ++ identifier :: back ∧ front ≠ [] ∧
        identifier ∉ front.tail := by
  cases chain with
  | nil => exact Or.inl List.not_mem_nil
  | cons first tail =>
      by_cases hmem : identifier ∈ tail
      · rcases List.eq_append_cons_of_mem hmem with ⟨front, back, rfl, hfront⟩
        exact Or.inr ⟨first :: front, back, rfl, List.cons_ne_nil first front, hfront⟩
      · exact Or.inl hmem

theorem toList_split_of_notMem {chain : Chain} (h : identifier ∉ chain.tail) :
    (chain.split identifier).toList = [chain] := by
  by_cases hne : chain = []
  · rw [hne, toList_split_nil]
  · rw [toList_split_eq_iff hne]
    constructor
    · simp
    · constructor
      · simpa using hne
      · simpa using h
      · simp

theorem toList_split_append_cons {front : Chain} (hne : front ≠ [])
    (h : identifier ∉ front.tail) (back : Chain) :
    (split identifier (front ++ identifier :: back)).toList =
      front :: (split identifier (identifier :: back)).toList := by
  rcases (toList_split_eq_iff (List.cons_ne_nil identifier back)).mp rfl with ⟨hback, hparts⟩
  rw [toList_split_eq_iff (List.append_ne_nil_of_left_ne_nil hne _), List.flatten_cons, ← hback]
  refine ⟨rfl, List.forall_mem_cons.mpr ⟨hne, hparts.nonempty⟩,
    List.forall_mem_cons.mpr ⟨h, hparts.free⟩, ?_⟩
  intro part hpart
  rcases exists_cons_of_mem_split hpart with ⟨calls, hcons, _⟩
  rw [hcons, List.head?_cons]

end Cut

/-!
## All cuts
-/

theorem cutFrom?_of_none {identifier : Token} {heads : List Chain} {chain : Chain}
    (h : chain.indexFrom? identifier 1 = none) :
    cutFrom? identifier heads chain =
      some (if heads.isEmpty then .whole chain else .parts (heads ++ [chain])) := by
  rw [cutFrom?]
  split
  · rfl
  · next hindex =>
      rw [h] at hindex
      cases hindex

theorem cutFrom?_of_some {identifier : Token} {heads : List Chain} {chain head tail : Chain}
    {start : Nat} (h : chain.indexFrom? identifier 1 = some start)
    (hcut : chain.splitAt? start = some (head, tail)) :
    cutFrom? identifier heads chain = cutFrom? identifier (heads ++ [head]) tail := by
  rw [cutFrom?]
  split
  · next hindex =>
      rw [h] at hindex
      cases hindex
  · next hindex =>
      rw [h] at hindex
      cases hindex
      split
      · next hnone =>
          rw [hcut] at hnone
          cases hnone
      · next hsome =>
          rw [hcut] at hsome
          cases hsome
          rfl

theorem split_eq_ofList (identifier : Token) (chain : Chain) :
    chain.split identifier = Split.ofList (chain.split identifier).toList := by
  unfold split
  split
  · rfl
  · rfl

/-- However many chains have been cut off, going on ends in the split of what is left. -/
theorem cutFrom?_eq (identifier : Token) (heads : List Chain) (chain : Chain) :
    cutFrom? identifier heads chain =
      some (Split.ofList (heads ++ (chain.split identifier).toList)) := by
  -- The recursion is on what is left; the chains cut off so far are carried along.
  rcases cut_cases identifier chain with hfree | ⟨front, back, hchain, hne, hfront⟩
  · rw [cutFrom?_of_none (indexFrom?_of_notMem hfree), toList_split_of_notMem hfree,
      Split.ofList_append_singleton]
  · have hshorter : (identifier :: back).length < chain.length := by
      have hpos := List.length_pos_iff.mpr hne
      rw [hchain, List.length_append]
      omega
    rw [hchain, cutFrom?_of_some (indexFrom?_append_cons hne hfront back)
        (splitAt?_append front (identifier :: back)),
      cutFrom?_eq identifier (heads ++ [front]) (identifier :: back),
      toList_split_append_cons hne hfront]
    simp
termination_by chain.length

theorem cutFrom?_nil (identifier : Token) (chain : Chain) :
    cutFrom? identifier [] chain = some (chain.split identifier) := by
  rw [cutFrom?_eq, List.nil_append, ← split_eq_ofList]

/-!
## The parts

The empty chain is its own only part; all other parts are not empty.
-/

theorem split_cases (identifier : Token) (chain : Chain) :
    (chain = [] ∧ (chain.split identifier).toList = [[]]) ∨
      (chain = (chain.split identifier).toList.flatten ∧
        IsParts identifier (chain.split identifier).toList) := by
  by_cases hne : chain = []
  · rw [hne]
    exact Or.inl ⟨rfl, toList_split_nil identifier⟩
  · exact Or.inr ((toList_split_eq_iff hne).mp rfl)

theorem flatten_toList_split (identifier : Token) (chain : Chain) :
    (chain.split identifier).toList.flatten = chain := by
  rcases split_cases identifier chain with ⟨hnil, hsplit⟩ | ⟨hflatten, _⟩
  · rw [hsplit, hnil]
    rfl
  · exact hflatten.symm

theorem begins_of_mem_tail_split {identifier : Token} {chain part : Chain}
    (h : part ∈ (chain.split identifier).toList.tail) : part.head? = some identifier := by
  rcases split_cases identifier chain with ⟨_, hsplit⟩ | ⟨_, hparts⟩
  · rw [hsplit] at h
    cases h
  · exact hparts.begins part h

theorem notMem_tail_of_mem_split {identifier : Token} {chain part : Chain}
    (h : part ∈ (chain.split identifier).toList) : identifier ∉ part.tail := by
  rcases split_cases identifier chain with ⟨_, hsplit⟩ | ⟨_, hparts⟩
  · rw [hsplit, List.mem_singleton] at h
    rw [h]
    exact List.not_mem_nil
  · exact hparts.free part h

theorem ne_nil_of_mem_split {identifier : Token} {chain part : Chain} (hne : chain ≠ [])
    (h : part ∈ (chain.split identifier).toList) : part ≠ [] :=
  ((toList_split_eq_iff hne).mp rfl).2.nonempty part h

/-!
## Counting the tokens of the parts
-/

section Parts

variable {identifier : Token}

theorem count_flatten_of_begins {parts : List Chain}
    (hbegins : forall part, part ∈ parts -> part.head? = some identifier)
    (hfree : forall part, part ∈ parts -> identifier ∉ part.tail) :
    parts.flatten.count identifier = parts.length := by
  induction parts with
  | nil => rfl
  | cons part parts ih =>
      rw [List.forall_mem_cons] at hbegins hfree
      rcases List.head?_eq_some_iff.mp hbegins.1 with ⟨calls, rfl⟩
      rw [List.tail_cons] at hfree
      rw [List.flatten_cons, List.count_append, ih hbegins.2 hfree.2, List.count_cons_self,
        List.count_eq_zero.mpr hfree.1, List.length_cons, Nat.zero_add, Nat.add_comm]

theorem flatten_map_tail_of_begins {parts : List Chain}
    (hbegins : forall part, part ∈ parts -> part.head? = some identifier)
    (hfree : forall part, part ∈ parts -> identifier ∉ part.tail) :
    (parts.map List.tail).flatten = parts.flatten.filter (· != identifier) := by
  induction parts with
  | nil => rfl
  | cons part parts ih =>
      rw [List.forall_mem_cons] at hbegins hfree
      rcases List.head?_eq_some_iff.mp hbegins.1 with ⟨calls, rfl⟩
      have hcalls : calls.filter (· != identifier) = calls := by
        rw [List.filter_eq_self]
        intro t ht
        simpa using ne_of_mem_of_not_mem ht hfree.1
      rw [List.map_cons, List.flatten_cons, List.flatten_cons, ih hbegins.2 hfree.2,
        List.filter_append, List.filter_cons_of_neg (by simp), hcalls, List.tail_cons]

theorem length_of_isParts {parts : List Chain} (hne : parts ≠ [])
    (h : IsParts identifier parts) :
    parts.length = 1 + parts.flatten.tail.count identifier := by
  cases parts with
  | nil => exact absurd rfl hne
  | cons first rest =>
      have hfirst := h.nonempty first List.mem_cons_self
      have hrest : rest.flatten.count identifier = rest.length :=
        count_flatten_of_begins h.begins (List.forall_mem_cons.mp h.free).2
      rw [List.flatten_cons, List.tail_append_of_ne_nil hfirst, List.count_append,
        List.count_eq_zero.mpr (h.free first List.mem_cons_self), hrest, List.length_cons]
      omega

theorem length_toList_split (identifier : Token) (chain : Chain) :
    (chain.split identifier).toList.length = 1 + chain.tail.count identifier := by
  rcases split_cases identifier chain with ⟨hnil, hsplit⟩ | ⟨hflatten, hparts⟩
  · rw [hsplit, hnil]
    rfl
  · rw [length_of_isParts (toList_split_ne_nil identifier chain) hparts, ← hflatten]

theorem exists_whole_iff (identifier : Token) (chain : Chain) :
    (exists whole : Chain, chain.split identifier = .whole whole) <->
      (chain.split identifier).toList.length = 1 := by
  constructor
  · intro h
    rcases h with ⟨whole, hwhole⟩
    rw [hwhole]
    rfl
  · intro h
    rcases List.length_eq_one_iff.mp h with ⟨whole, hwhole⟩
    refine ⟨whole, ?_⟩
    rw [split_eq_ofList, hwhole]
    rfl

end Parts

theorem split_unique_decomposition (identifier : Token) (chain : Chain) :
    cutFrom? identifier [] chain = some (chain.split identifier) ∧
      (chain.split identifier).toList.flatten = chain ∧
      (forall part, part ∈ (chain.split identifier).toList.tail ->
        part.head? = some identifier) ∧
      (forall part, part ∈ (chain.split identifier).toList -> identifier ∉ part.tail) ∧
      (chain ≠ [] -> forall part, part ∈ (chain.split identifier).toList -> part ≠ []) ∧
      (chain.split identifier).toList.length = 1 + chain.tail.count identifier ∧
      ((exists whole : Chain, chain.split identifier = .whole whole) <->
        (chain.split identifier).toList.length = 1) ∧
      (chain.split identifier).length = (chain.split identifier).toList.length ∧
      (chain.split identifier).isEmpty = (chain.split identifier).toList.isEmpty ∧
      forall parts : List Chain, parts ≠ [] ->
        (forall part, part ∈ parts -> part ≠ []) ->
        (forall part, part ∈ parts -> identifier ∉ part.tail) ->
        (forall part, part ∈ parts.tail -> part.head? = some identifier) ->
        (split identifier parts.flatten).toList = parts := by
  refine ⟨cutFrom?_nil identifier chain, flatten_toList_split identifier chain, ?_, ?_, ?_,
    length_toList_split identifier chain, exists_whole_iff identifier chain,
    (Split.length_toList _).symm, (Split.isEmpty_toList _).symm, ?_⟩
  · intro part hpart
    exact begins_of_mem_tail_split hpart
  · intro part hpart
    exact notMem_tail_of_mem_split hpart
  · intro hne part hpart
    exact ne_nil_of_mem_split hne hpart
  · intro parts hparts hnonempty hfree hbegins
    have hflatten : parts.flatten ≠ [] := by
      rcases List.exists_mem_of_ne_nil parts hparts with ⟨part, hpart⟩
      intro hnil
      exact hnonempty part hpart (List.flatten_eq_nil_iff.mp hnil part hpart)
    exact (toList_split_eq_iff hflatten).mpr ⟨rfl, hnonempty, hfree, hbegins⟩

end Chain

end CallChains
