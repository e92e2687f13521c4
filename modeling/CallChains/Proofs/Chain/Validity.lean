import CallChains.Proofs.Chain.Cutting
import CallChains.Proofs.Chain.Factors

/-!
# Valid identifiers

An identifier is valid if it can be the name of a token.  Every token that is read is a name
with a mark, whatever the identifier is, so the token of an invalid identifier is never read.
A reader that never meets the token of the identifier is never behind it either, and then no
token ends in a closing parenthesis and nothing is cut.

Main statement: an identifier is accepted exactly if its token can be read from some statement,
and then it is read from every statement that begins with it.
-/

namespace CallChains

theorem Settings.exists_ofIdentifier_iff {identifier : Text} :
    (exists settings : Settings, ofIdentifier identifier = .ok settings) <->
      isIdentifier identifier = true := by
  unfold ofIdentifier
  split
  · next hvalid => exact iff_of_true ⟨_, rfl⟩ hvalid
  · next hinvalid =>
      refine iff_of_false ?_ hinvalid
      intro hsettings
      rcases hsettings with ⟨settings, hsettings⟩
      cases hsettings

/-!
## Tokens that are read
-/

namespace Factor

variable {identifier : Token} {previous : Option Token}

/-- The semicolon behind an empty call may end a token wherever a parenthesis may open one. -/
theorem exists_text_of_stands {name behind : Text} {mark : Char} {f : Factor}
    (hmark : MayEnd identifier previous mark) (hstands : Stands name mark f behind) :
    exists last : Char, MayEnd identifier previous last ∧ f.token.text = name ++ [last] := by
  cases hstands with
  | plain _ => exact ⟨mark, hmark, rfl⟩
  | opened _ => exact ⟨'(', hmark, rfl⟩
  | continued => exact ⟨'(', hmark, rfl⟩
  | ended => exact ⟨';', Or.inr (Or.inr (Or.inl rfl)), rfl⟩
  | closed _ _ => exact ⟨'(', hmark, rfl⟩

theorem exists_text_of_next? {text rest : Text} {t : Token}
    (h : Token.next? (Position.after identifier previous) text = some (t, rest)) :
    exists (name : Text) (last : Char), isIdentifier name = true ∧
      MayEnd identifier previous last ∧ t.text = name ++ [last] := by
  rcases next?_eq_some_iff.mp h with ⟨name, mark, f, hname, hmark, hstands, _, rfl⟩
  rcases exists_text_of_stands hmark hstands with ⟨last, hlast, htext⟩
  exact ⟨name, last, hname, hlast, htext⟩

end Factor

namespace Chain

section Reads

variable {identifier : Token} {previous : Option Token} {text : Text} {chain : Chain} {t : Token}

theorem exists_name_of_reads (h : Reads identifier previous text chain) (ht : t ∈ chain) :
    exists (name : Text) (last : Char), isIdentifier name = true ∧ t.text = name ++ [last] := by
  induction h with
  | stop _ => cases ht
  | token hnext _ ih =>
      cases ht with
      | head =>
          rcases Factor.exists_text_of_next? hnext with ⟨name, last, hname, _, htext⟩
          exact ⟨name, last, hname, htext⟩
      | tail _ ht => exact ih ht

/-- Only behind the identifier may a closing parenthesis end a token. -/
theorem getLast?_ne_of_reads (h : Reads identifier previous text chain)
    (hprevious : previous ≠ some identifier) (hfree : identifier ∉ chain) (ht : t ∈ chain) :
    t.text.getLast? ≠ some ')' := by
  induction h with
  | stop _ => cases ht
  | token hnext _ ih =>
      rw [List.mem_cons, not_or] at hfree
      cases ht with
      | head =>
          rcases Factor.exists_text_of_next? hnext with ⟨name, last, _, hlast, htext⟩
          rw [htext, List.getLast?_concat, ne_eq, Option.some.injEq]
          rintro rfl
          simp [Factor.MayEnd, hprevious] at hlast
      | tail _ ht =>
          apply ih _ hfree.2 ht
          rw [ne_eq, Option.some.injEq]
          exact Ne.symm hfree.1

end Reads

theorem isIdentifier_of_mem_read {identifier : Text} {t : Token} {raw : Text}
    (h : Token.ofIdentifier identifier ∈ read t raw) : isIdentifier identifier = true := by
  rcases exists_name_of_reads (read_eq_iff.mp rfl) h with ⟨name, last, hname, htext⟩
  rw [(List.append_inj' htext rfl).1]
  exact hname

theorem after_eq_elsewhere_of_notMem {identifier : Token} {front : Chain}
    (h : identifier ∉ front) : Position.after identifier front.getLast? = .elsewhere := by
  rw [Position.after, if_neg]
  intro hlast
  exact h (List.mem_of_getLast? hlast)

theorem split_of_notMem {identifier : Token} {chain : Chain} (h : identifier ∉ chain) :
    chain.split identifier = .whole chain := by
  have htail : identifier ∉ chain.tail := fun hmem => h (List.mem_of_mem_tail hmem)
  rw [split_eq_ofList, toList_split_of_notMem htail]
  rfl

theorem ofIdentifier_ok_iff_exists_read (identifier : Text) :
    ((exists settings : Settings, Settings.ofIdentifier identifier = .ok settings) <->
        exists raw : Text,
          Token.ofIdentifier identifier ∈ read (Token.ofIdentifier identifier) raw) ∧
      (forall failure : Failure, Settings.ofIdentifier identifier = .error failure ->
        forall raw : Text,
          Token.ofIdentifier identifier ∉ read (Token.ofIdentifier identifier) raw ∧
          (forall front : Chain, front <+: read (Token.ofIdentifier identifier) raw ->
            Position.after (Token.ofIdentifier identifier) front.getLast? = .elsewhere) ∧
          (forall t, t ∈ read (Token.ofIdentifier identifier) raw ->
            t.text.getLast? ≠ some ')') ∧
          (read (Token.ofIdentifier identifier) raw).split (Token.ofIdentifier identifier) =
            .whole (read (Token.ofIdentifier identifier) raw)) ∧
      forall settings : Settings, Settings.ofIdentifier identifier = .ok settings ->
        forall raw : Text, identifier ++ ['.'] <+: raw ->
          (read (Token.ofIdentifier identifier) raw).head? =
            some (Token.ofIdentifier identifier) := by
  have hlead : isIdentifier identifier = true -> forall raw : Text, identifier ++ ['.'] <+: raw ->
      (read (Token.ofIdentifier identifier) raw).head? =
        some (Token.ofIdentifier identifier) := by
    rintro hvalid raw ⟨rest, rfl⟩
    rcases exists_read_lead hvalid rest with ⟨tail, htail⟩
    rw [List.append_assoc, List.singleton_append, htail, List.head?_cons]
  refine ⟨?_, ?_, ?_⟩
  · rw [Settings.exists_ofIdentifier_iff]
    constructor
    · intro hvalid
      exact ⟨identifier ++ ['.'], List.mem_of_mem_head? (hlead hvalid _ List.prefix_rfl)⟩
    · intro hread
      rcases hread with ⟨raw, hmem⟩
      exact isIdentifier_of_mem_read hmem
  · intro failure hfailure raw
    have hfree : Token.ofIdentifier identifier ∉ read (Token.ofIdentifier identifier) raw := by
      intro hmem
      rcases Settings.exists_ofIdentifier_iff.mpr (isIdentifier_of_mem_read hmem) with
        ⟨settings, hsettings⟩
      rw [hfailure] at hsettings
      cases hsettings
    refine ⟨hfree, ?_, ?_, split_of_notMem hfree⟩
    · intro front hfront
      exact after_eq_elsewhere_of_notMem fun hmem => hfree (hfront.subset hmem)
    · intro t ht
      exact getLast?_ne_of_reads (read_eq_iff.mp rfl) (by simp) hfree ht
  · intro settings hsettings
    exact hlead (Settings.exists_ofIdentifier_iff.mp ⟨settings, hsettings⟩)

end Chain

end CallChains
