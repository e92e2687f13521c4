import CallChains.Proofs.Chain.Places
import CallChains.Proofs.Chain.Validity

/-!
# Where the identifier comes in again

The reader carries the token it has read last, since that decides which marks may end the next
one.  The token of the identifier is the same after any mark, and behind it the reader goes on
in the same way whatever came before.  So the tokens from a place where the identifier comes in
again are those of the text that begins at that place, read on its own.

Main statement: every part of a split chain but the first is the first part of the chain that
is read from its own place in the statement, whatever precedes that place.
-/

namespace CallChains

namespace Chain

/-- The token of an index is read from the front of `rest`: the factors of the tokens before it
are all that stands in front of `rest` in the text. -/
def EntryAt (identifier : Token) (raw : Text) (index : Nat) (rest : Text) : Prop :=
  exists (before after : List Factor) (unread : Text),
    Factors identifier none raw (before ++ after) unread ∧ before.length = index ∧
      raw = before.flatMap Factor.text ++ rest

section Entries

variable {identifier raw : Text} {index : Nat}

/-- At the front of a text, the identifier is read in the same way behind any token. -/
theorem read_of_reads_lead (hidentifier : isIdentifier identifier = true)
    {previous : Option Token} {behind : Text} {chain : Chain}
    (h : Reads (Token.ofIdentifier identifier) previous (identifier ++ '.' :: behind) chain) :
    read (Token.ofIdentifier identifier) (identifier ++ '.' :: behind) = chain := by
  cases h with
  | stop hnone =>
      rw [Token.next?_ofIdentifier hidentifier] at hnone
      cases hnone
  | token hnext hrest =>
      rw [Token.next?_ofIdentifier hidentifier] at hnext
      cases hnext
      exact read_eq_iff.mpr (Reads.token (Token.next?_ofIdentifier hidentifier _ behind) hrest)

theorem read_of_entryAt (hidentifier : isIdentifier identifier = true) {behind : Text}
    (h : EntryAt (Token.ofIdentifier identifier) raw index (identifier ++ '.' :: behind)) :
    read (Token.ofIdentifier identifier) (identifier ++ '.' :: behind) =
      (read (Token.ofIdentifier identifier) raw).drop index := by
  rcases h with ⟨before, after, unread, hfactors, rfl, hraw⟩
  rcases exists_factors_behind hfactors with ⟨last, rest, htext, hafter⟩
  rw [hraw] at htext
  rw [← List.append_cancel_left htext] at hafter
  rw [read_of_factors hfactors, List.map_append, List.drop_left' (List.length_map _)]
  exact read_of_reads_lead hidentifier (reads_of_factors hafter)

theorem exists_entryAt (hidentifier : isIdentifier identifier = true)
    (h : (read (Token.ofIdentifier identifier) raw)[index]? =
      some (Token.ofIdentifier identifier)) :
    exists behind : Text,
      EntryAt (Token.ofIdentifier identifier) raw index (identifier ++ '.' :: behind) := by
  rcases exists_factors (Token.ofIdentifier identifier) raw with ⟨factors, unread, hfactors⟩
  rw [read_of_factors hfactors, List.getElem?_map, Option.map_eq_some_iff] at h
  rcases h with ⟨f, hf, htoken⟩
  rcases List.getElem?_eq_some_iff.mp hf with ⟨hlt, hget⟩
  have hparts : factors.take index ++ f :: factors.drop (index + 1) = factors := by
    rw [← hget, ← List.drop_eq_getElem_cons hlt, List.take_append_drop]
  rw [← hparts] at hfactors
  rcases exists_factors_behind hfactors with ⟨last, rest, hraw, hrest⟩
  rcases (token_eq_ofIdentifier_iff hidentifier hrest).mp htoken with ⟨behind, rfl⟩
  exact ⟨behind, _, _, unread, hfactors, List.length_take_of_le (Nat.le_of_lt hlt), hraw⟩

theorem exists_rest (hidentifier : isIdentifier identifier = true)
    (h : (read (Token.ofIdentifier identifier) raw)[index]? =
      some (Token.ofIdentifier identifier)) :
    exists rest : Text, EntryAt (Token.ofIdentifier identifier) raw index rest ∧ rest <:+ raw ∧
      identifier ++ ['.'] <+: rest ∧
      read (Token.ofIdentifier identifier) rest =
        (read (Token.ofIdentifier identifier) raw).drop index := by
  rcases exists_entryAt hidentifier h with ⟨behind, hentry⟩
  refine ⟨identifier ++ '.' :: behind, hentry, ?_, ⟨behind, by simp⟩,
    read_of_entryAt hidentifier hentry⟩
  rcases hentry with ⟨before, _, _, _, _, hraw⟩
  exact ⟨before.flatMap Factor.text, hraw.symm⟩

end Entries

/-!
## The parts from a place on
-/

theorem IsParts.of_append {identifier : Token} {earlier parts : List Chain}
    (h : IsParts identifier (earlier ++ parts)) : IsParts identifier parts := by
  constructor
  · intro part hpart
    exact h.nonempty part (List.mem_append_right earlier hpart)
  · intro part hpart
    exact h.free part (List.mem_append_right earlier hpart)
  · intro part hpart
    apply h.begins part
    cases earlier with
    | nil => exact hpart
    | cons first earlier =>
        exact List.mem_append_right earlier (List.mem_of_mem_tail hpart)

/-- A chain that is cut is its earlier parts and then, from the identifier on, the others, which
are the parts of what they make up. -/
theorem parts_behind {identifier : Token} {chain part : Chain} {earlier later : List Chain}
    (hearlier : earlier ≠ [])
    (h : (chain.split identifier).toList = earlier ++ part :: later) :
    chain = earlier.flatten ++ (part :: later).flatten ∧ part.head? = some identifier ∧
      (split identifier (part :: later).flatten).toList = part :: later := by
  rcases split_cases identifier chain with ⟨_, hsplit⟩ | ⟨hchain, hparts⟩
  · rw [h] at hsplit
    have hlength := congrArg List.length hsplit
    have hpos := List.length_pos_iff.mpr hearlier
    simp only [List.length_append, List.length_cons, List.length_nil] at hlength
    omega
  · rw [h] at hchain hparts
    have hlater := hparts.of_append
    have hhead : part.head? = some identifier := by
      apply hparts.begins part
      rw [List.tail_append_of_ne_nil hearlier]
      exact List.mem_append_right _ List.mem_cons_self
    refine ⟨hchain.trans List.flatten_append, hhead, ?_⟩
    rw [toList_split_eq_iff]
    · exact ⟨rfl, hlater⟩
    · rcases List.head?_eq_some_iff.mp hhead with ⟨calls, rfl⟩
      exact List.cons_ne_nil identifier _

theorem parts_read_alone {identifier : Text} {settings : Settings}
    (h : Settings.ofIdentifier identifier = .ok settings) (raw : Text) :
    (forall index : Nat,
      (read (Token.ofIdentifier identifier) raw)[index]? =
          some (Token.ofIdentifier identifier) ->
        exists rest : Text, EntryAt (Token.ofIdentifier identifier) raw index rest ∧
          rest <:+ raw ∧ identifier ++ ['.'] <+: rest ∧
          read (Token.ofIdentifier identifier) rest =
            (read (Token.ofIdentifier identifier) raw).drop index) ∧
      (forall (earlier later : List Chain) (part : Chain), earlier ≠ [] ->
        (split (Token.ofIdentifier identifier)
            (read (Token.ofIdentifier identifier) raw)).toList = earlier ++ part :: later ->
          exists rest : Text,
            EntryAt (Token.ofIdentifier identifier) raw earlier.flatten.length rest ∧
            rest <:+ raw ∧ identifier ++ ['.'] <+: rest ∧
            (split (Token.ofIdentifier identifier)
              (read (Token.ofIdentifier identifier) rest)).toList = part :: later) ∧
      forall (other rest : Text) (index : Nat), identifier ++ ['.'] <+: rest ->
        EntryAt (Token.ofIdentifier identifier) other index rest ->
          (read (Token.ofIdentifier identifier) other).drop index =
            read (Token.ofIdentifier identifier) rest := by
  have hidentifier := Settings.exists_ofIdentifier_iff.mp ⟨settings, h⟩
  refine ⟨?_, ?_, ?_⟩
  · intro index hindex
    exact exists_rest hidentifier hindex
  · intro earlier later part hearlier hsplit
    rcases parts_behind hearlier hsplit with ⟨hchain, hhead, hparts⟩
    have hindex : (read (Token.ofIdentifier identifier) raw)[earlier.flatten.length]? =
        some (Token.ofIdentifier identifier) := by
      rcases List.head?_eq_some_iff.mp hhead with ⟨calls, rfl⟩
      rw [hchain]
      simp
    rcases exists_rest hidentifier hindex with ⟨rest, hentry, hsuffix, hprefix, hread⟩
    refine ⟨rest, hentry, hsuffix, hprefix, ?_⟩
    rw [hread, hchain, List.drop_left]
    exact hparts
  · rintro other rest index ⟨behind, rfl⟩ hentry
    rw [List.append_assoc, List.singleton_append] at hentry ⊢
    exact (read_of_entryAt hidentifier hentry).symm

/-- The second part begins behind a parenthesis that ends a token, the third one behind a
parenthesis that opens a call. -/
theorem parts_read_alone_nested :
    Settings.ofIdentifier "Lib".toList = .ok (Settings.unchecked "Lib".toList) ∧
      split (Token.ofIdentifier "Lib".toList)
          (read (Token.ofIdentifier "Lib".toList) "Lib.a)Lib.b(Lib.c().d;".toList) =
        .parts [[⟨"Lib.".toList⟩, ⟨"a)".toList⟩], [⟨"Lib.".toList⟩, ⟨"b(".toList⟩],
          [⟨"Lib.".toList⟩, ⟨"c(".toList⟩, ⟨"d;".toList⟩]] ∧
      exists rest : Text,
        EntryAt (Token.ofIdentifier "Lib".toList) "Lib.a)Lib.b(Lib.c().d;".toList 2 rest ∧
          rest <:+ "Lib.a)Lib.b(Lib.c().d;".toList ∧ "Lib".toList ++ ['.'] <+: rest ∧
          (split (Token.ofIdentifier "Lib".toList)
            (read (Token.ofIdentifier "Lib".toList) rest)).toList =
            [[⟨"Lib.".toList⟩, ⟨"b(".toList⟩], [⟨"Lib.".toList⟩, ⟨"c(".toList⟩, ⟨"d;".toList⟩]] := by
  have h : Settings.ofIdentifier "Lib".toList = .ok (Settings.unchecked "Lib".toList) := rfl
  have hsplit : split (Token.ofIdentifier "Lib".toList)
      (read (Token.ofIdentifier "Lib".toList) "Lib.a)Lib.b(Lib.c().d;".toList) =
        .parts [[⟨"Lib.".toList⟩, ⟨"a)".toList⟩], [⟨"Lib.".toList⟩, ⟨"b(".toList⟩],
          [⟨"Lib.".toList⟩, ⟨"c(".toList⟩, ⟨"d;".toList⟩]] := by
    decide +kernel
  exact ⟨h, hsplit, (parts_read_alone h _).2.1 [[⟨"Lib.".toList⟩, ⟨"a)".toList⟩]] _ _
    (List.cons_ne_nil _ _) (congrArg Split.toList hsplit)⟩

end Chain

end CallChains
