import CallChains.Chain.Split
import Mathlib.Data.List.SplitBy

/-!
# The parts of a chain

Splitting a chain gives the only parts that put together are the chain, none of
them empty, such that the identifier begins every part but the first and stands
nowhere behind the beginning of a part.
-/

namespace CallChains

namespace Chain

/-- Parts into which a chain is cut before every identifier but a first token. -/
structure IsParts (identifier : Token) (parts : List Chain) : Prop where
  nonempty : forall part, part ∈ parts -> part ≠ []
  free : forall part, part ∈ parts -> identifier ∉ part.tail
  begins : forall part, part ∈ parts.tail -> part.head? = some identifier

/-!
## Relations on neighbours
-/

theorem isChain_iff_forall_tail {α : Type} {P : α -> Prop} (xs : List α) :
    xs.IsChain (fun _ next => P next) <-> forall next, next ∈ xs.tail -> P next := by
  induction xs with
  | nil => simp
  | cons x xs ih =>
      cases xs with
      | nil => simp
      | cons y ys =>
          rw [List.isChain_cons_cons, ih, List.tail_cons, List.tail_cons, List.forall_mem_cons]

theorem isChain_free_iff {identifier : Token} (part : Chain) :
    part.IsChain (fun _ next => (next != identifier) = true) <-> identifier ∉ part.tail := by
  rw [isChain_iff_forall_tail]
  constructor
  · intro h hmem
    simpa using h identifier hmem
  · intro h next hnext
    simpa using ne_of_mem_of_not_mem hnext h

theorem isChain_begins_iff {identifier : Token} {parts : List Chain}
    (hparts : forall part, part ∈ parts -> part ≠ []) :
    parts.IsChain (fun a b => exists (_ : a ≠ []) (hb : b ≠ []),
        (b.head hb != identifier) = false) <->
      forall part, part ∈ parts.tail -> part.head? = some identifier := by
  rw [← isChain_iff_forall_tail]
  apply List.IsChain.iff_of_mem_imp
  intro a b ha hb
  have hb' := hparts b hb
  constructor
  · intro hbegin
    rcases hbegin with ⟨_, _, hhead⟩
    rw [List.head?_eq_some_head hb']
    simpa using hhead
  · intro hhead
    refine ⟨hparts a ha, hb', ?_⟩
    rw [List.head?_eq_some_head hb'] at hhead
    simpa using hhead

/-!
## Splitting
-/

theorem splitBy_eq_iff_isParts {identifier : Token} {chain : Chain} {parts : List Chain} :
    (chain.splitBy fun _ next => next != identifier) = parts <->
      chain = parts.flatten ∧ IsParts identifier parts := by
  rw [List.splitBy_eq_iff]
  constructor
  · intro hsplit
    rcases hsplit with ⟨hchain, hnil, hfree, hbegins⟩
    have hnonempty : forall part, part ∈ parts -> part ≠ [] := by
      intro part hpart hempty
      exact hnil (hempty ▸ hpart)
    refine ⟨hchain, hnonempty, ?_, ?_⟩
    · intro part hpart
      exact (isChain_free_iff part).mp (hfree part hpart)
    · exact (isChain_begins_iff hnonempty).mp hbegins
  · intro hsplit
    rcases hsplit with ⟨hchain, hparts⟩
    refine ⟨hchain, ?_, ?_, ?_⟩
    · intro hnil
      exact hparts.nonempty [] hnil rfl
    · intro part hpart
      exact (isChain_free_iff part).mpr (hparts.free part hpart)
    · exact (isChain_begins_iff hparts.nonempty).mpr hparts.begins

theorem toList_split {identifier : Token} {chain : Chain} (hne : chain ≠ []) :
    (chain.split identifier).toList = chain.splitBy fun _ next => next != identifier := by
  have hflatten := List.flatten_splitBy (fun _ next => next != identifier) chain
  unfold split
  split
  · next hsplit =>
      rw [hsplit]
      rfl
  · next hsplit =>
      match hparts : chain.splitBy fun _ next => next != identifier with
      | [] =>
          rw [hparts] at hflatten
          exact absurd hflatten.symm hne
      | [part] =>
          rw [hparts, List.flatten_singleton] at hflatten
          rw [hflatten]
          rfl
      | first :: second :: rest => exact absurd hparts (hsplit first second rest)

theorem toList_split_nil (identifier : Token) :
    (split identifier []).toList = [[]] := rfl

theorem toList_split_eq_iff {identifier : Token} {chain : Chain} (hne : chain ≠ [])
    {parts : List Chain} :
    (chain.split identifier).toList = parts <->
      chain = parts.flatten ∧ IsParts identifier parts := by
  rw [toList_split hne, splitBy_eq_iff_isParts]

theorem toList_split_ne_nil (identifier : Token) (chain : Chain) :
    (chain.split identifier).toList ≠ [] := by
  intro hnil
  by_cases hne : chain = []
  · rw [hne, toList_split_nil] at hnil
    cases hnil
  · exact hne ((toList_split_eq_iff hne).mp hnil).1

theorem exists_cons_of_mem_split {identifier : Token} {tail part : Chain}
    (hpart : part ∈ (split identifier (identifier :: tail)).toList) :
    exists calls : Chain, part = identifier :: calls ∧ identifier ∉ calls := by
  generalize hparts : (split identifier (identifier :: tail)).toList = parts at hpart
  rcases (toList_split_eq_iff (by simp)).mp hparts with ⟨hflatten, hall⟩
  have hhead : part.head? = some identifier := by
    cases parts with
    | nil => cases hpart
    | cons first rest =>
        cases hpart with
        | head =>
            rw [List.flatten_cons] at hflatten
            have hfirst := congrArg List.head? hflatten
            rw [List.head?_append_of_ne_nil _ (hall.nonempty _ List.mem_cons_self)] at hfirst
            exact hfirst.symm
        | tail _ hrest => exact hall.begins part hrest
  rcases List.head?_eq_some_iff.mp hhead with ⟨calls, rfl⟩
  exact ⟨calls, rfl, hall.free _ hpart⟩

end Chain

end CallChains
