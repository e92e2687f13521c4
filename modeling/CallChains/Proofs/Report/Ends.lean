import CallChains.Proofs.Chain.Places
import CallChains.Proofs.Report.Lines

/-!
# Where the chains end

The reader of a chain stops where no name with a mark stands, and nowhere else.  No mark stops
it: behind a semicolon or a parenthesis the chain goes on whenever the text does, be it with an
argument or with the next statement.  Only the identifier with its dot does not go on, since it
begins the next part.

Main statements: a token that ends in a semicolon or in a parenthesis stands in the text with
that mark, and it is the last one of its part exactly if the text does not go on behind it.
-/

namespace CallChains

namespace Chain

/-- A chain goes on with the tokens `back` in front of the text `behind`. -/
structure Follows (identifier behind : Text) (back : Chain) : Prop where
  goesOn : back ≠ [] <-> GoesOn identifier behind
  ends : (forall c, behind.head? = some c -> ¬ c.isAlphanum = true) -> back = []
  next : forall t others, back = t :: others -> exists after : Text, behind = t.name ++ after

end Chain

namespace Pattern

section Ends

variable {settings : Settings} {p : Pattern} {raw : Text} {front back : Chain} {t : Token}
  {mark : Char}

theorem exists_place_of_mem_chainsOf (h : settings.SearchesFor p)
    (hpart : front ++ t :: back ∈ p.chainsOf raw) (hmark : t.mark? = some mark) (hne : mark ≠ '.') :
    exists closing before behind : Text, closing ∈ Factor.closings mark ∧
      raw = before ++ (t.name ++ (closing ++ behind)) ∧
      Chain.Follows p.identifier behind back := by
  have ht : t ≠ p.token := by
    rintro rfl
    rw [token, Token.mark?_ofIdentifier, Option.some.injEq] at hmark
    exact hne hmark.symm
  rcases List.append_of_mem hpart with ⟨earlier, later, hsplit⟩
  rcases Chain.exists_place_of_split h.isIdentifier hsplit ht with
    ⟨other, closing, before, behind, hother, hclosing, htext, hgoes, hnext⟩
  rw [hmark, Option.some.injEq] at hother
  rw [← hother] at hclosing
  refine ⟨closing, before, behind, hclosing, htext, hgoes, ?_, hnext⟩
  intro hhead
  by_contra hback
  exact Chain.not_goesOn_of_head? hhead (hgoes.mp hback)

theorem chain_behind_semicolon (h : settings.SearchesFor p)
    (hpart : front ++ t :: back ∈ p.chainsOf raw) (hmark : t.mark? = some ';') :
    exists closing before behind : Text, (closing = [';'] ∨ closing = ['(', ')', ';']) ∧
      raw = before ++ (t.name ++ (closing ++ behind)) ∧
      Chain.Follows p.identifier behind back := by
  rcases exists_place_of_mem_chainsOf h hpart hmark (by decide) with
    ⟨closing, before, behind, hclosing, htext, hfollows⟩
  refine ⟨closing, before, behind, ?_, htext, hfollows⟩
  simpa [Factor.closings] using hclosing

theorem chain_behind_semicolon_minified :
    (Settings.unchecked "Lib".toList).SearchesFor ⟨"Lib".toList, by decide⟩ ∧
      exists closing before behind : Text, (closing = [';'] ∨ closing = ['(', ')', ';']) ∧
        "Lib.x();foo();".toList = before ++ ("x".toList ++ (closing ++ behind)) ∧
        Chain.Follows "Lib".toList behind [⟨"foo;".toList⟩] := by
  have h : (Settings.unchecked "Lib".toList).SearchesFor ⟨"Lib".toList, by decide⟩ :=
    Settings.searchesFor_unchecked ⟨"Lib".toList, by decide⟩ (by decide)
  have hchains : chainsOf ⟨"Lib".toList, by decide⟩ "Lib.x();foo();".toList =
      [[⟨"Lib.".toList⟩] ++ ⟨"x;".toList⟩ :: [⟨"foo;".toList⟩]] := by
    decide +kernel
  have hpart := List.mem_of_mem_head? (congrArg List.head? hchains)
  exact ⟨h, chain_behind_semicolon h hpart (by decide)⟩

/-- A semicolon is not always the end of a chain: without a blank behind it, the method of the
next statement is taken for a call on what the first one gives. -/
theorem not_forall_semicolon_last :
    ¬ forall (settings : Settings) (p : Pattern), settings.SearchesFor p ->
      forall (text : Text) (m : RawMatch), m ∈ p.findAll text ->
        forall (front back : Chain) (t : Token), front ++ t :: back ∈ p.chainsOf m.text ->
          t.mark? = some ';' -> back = [] := by
  intro hall
  have h : (Settings.unchecked "Library".toList).SearchesFor ⟨"Library".toList, by decide⟩ :=
    Settings.searchesFor_unchecked ⟨"Library".toList, by decide⟩ (by decide)
  have hm : ⟨0, "Library.x();foo();".toList⟩ ∈
      findAll ⟨"Library".toList, by decide⟩ "Library.x();foo();".toList := by
    decide
  have hchains : chainsOf ⟨"Library".toList, by decide⟩ "Library.x();foo();".toList =
      [[⟨"Library.".toList⟩] ++ ⟨"x;".toList⟩ :: [⟨"foo;".toList⟩]] := by
    decide +kernel
  have hpart := List.mem_of_mem_head? (congrArg List.head? hchains)
  have hlast := hall _ _ h _ _ hm _ _ _ hpart (by decide)
  exact List.cons_ne_nil _ _ hlast

theorem chain_behind_parenthesis (h : settings.SearchesFor p)
    (hpart : front ++ t :: back ∈ p.chainsOf raw)
    (hmark : t.mark? = some ')' ∨ t.mark? = some '(') :
    exists closing before behind : Text,
      (t.mark? = some ')' ∧ closing = [')'] ∨
        t.mark? = some '(' ∧
          (closing = ['('] ∨ closing = ['(', ')', '.'] ∨ closing = ['(', ')'])) ∧
      raw = before ++ (t.name ++ (closing ++ behind)) ∧
      Chain.Follows p.identifier behind back := by
  rcases hmark with hclose | hopen
  · rcases exists_place_of_mem_chainsOf h hpart hclose (by decide) with
      ⟨closing, before, behind, hclosing, htext, hfollows⟩
    refine ⟨closing, before, behind, Or.inl ⟨hclose, ?_⟩, htext, hfollows⟩
    simpa [Factor.closings] using hclosing
  · rcases exists_place_of_mem_chainsOf h hpart hopen (by decide) with
      ⟨closing, before, behind, hclosing, htext, hfollows⟩
    refine ⟨closing, before, behind, Or.inr ⟨hopen, ?_⟩, htext, hfollows⟩
    simpa [Factor.closings] using hclosing

theorem chain_behind_parenthesis_argument :
    (Settings.unchecked "Lib".toList).SearchesFor ⟨"Lib".toList, by decide⟩ ∧
      exists closing before behind : Text,
        (Token.mark? ⟨"a(".toList⟩ = some ')' ∧ closing = [')'] ∨
          Token.mark? ⟨"a(".toList⟩ = some '(' ∧
            (closing = ['('] ∨ closing = ['(', ')', '.'] ∨ closing = ['(', ')'])) ∧
        "Lib.a(b.c);".toList = before ++ ("a".toList ++ (closing ++ behind)) ∧
        Chain.Follows "Lib".toList behind [⟨"b.".toList⟩] := by
  have h : (Settings.unchecked "Lib".toList).SearchesFor ⟨"Lib".toList, by decide⟩ :=
    Settings.searchesFor_unchecked ⟨"Lib".toList, by decide⟩ (by decide)
  have hchains : chainsOf ⟨"Lib".toList, by decide⟩ "Lib.a(b.c);".toList =
      [[⟨"Lib.".toList⟩] ++ ⟨"a(".toList⟩ :: [⟨"b.".toList⟩]] := by
    decide +kernel
  have hpart := List.mem_of_mem_head? (congrArg List.head? hchains)
  exact ⟨h, chain_behind_parenthesis h hpart (Or.inr (by decide))⟩

/-- Neither does a closing parenthesis always end a chain, nor an opening one that is not closed
at once: the argument `b` is taken for a call on what `a` gives. -/
theorem not_forall_parenthesis_last :
    (¬ forall (settings : Settings) (p : Pattern), settings.SearchesFor p ->
      forall (text : Text) (m : RawMatch), m ∈ p.findAll text ->
        forall (front back : Chain) (t : Token), front ++ t :: back ∈ p.chainsOf m.text ->
          t.mark? = some ')' -> back = []) ∧
      ¬ forall (settings : Settings) (p : Pattern), settings.SearchesFor p ->
        forall (text : Text) (m : RawMatch), m ∈ p.findAll text ->
          forall (front back : Chain) (t next : Token),
            front ++ t :: next :: back ∈ p.chainsOf m.text ->
              t.mark? = some '(' -> (t.name ++ "().".toList ++ next.name) <:+: m.text := by
  have h : (Settings.unchecked "Library".toList).SearchesFor ⟨"Library".toList, by decide⟩ :=
    Settings.searchesFor_unchecked ⟨"Library".toList, by decide⟩ (by decide)
  constructor
  · intro hall
    have hm : ⟨4, "Library.prop)foo();".toList⟩ ∈
        findAll ⟨"Library".toList, by decide⟩ "if (Library.prop)foo();".toList := by
      decide
    have hchains : chainsOf ⟨"Library".toList, by decide⟩ "Library.prop)foo();".toList =
        [[⟨"Library.".toList⟩] ++ ⟨"prop)".toList⟩ :: [⟨"foo;".toList⟩]] := by
      decide +kernel
    have hpart := List.mem_of_mem_head? (congrArg List.head? hchains)
    have hlast := hall _ _ h _ _ hm _ _ _ hpart (by decide)
    exact List.cons_ne_nil _ _ hlast
  · intro hall
    have hm : ⟨0, "Library.a(b.c);".toList⟩ ∈
        findAll ⟨"Library".toList, by decide⟩ "Library.a(b.c);".toList := by
      decide
    have hchains : chainsOf ⟨"Library".toList, by decide⟩ "Library.a(b.c);".toList =
        [[⟨"Library.".toList⟩] ++ ⟨"a(".toList⟩ :: ⟨"b.".toList⟩ :: []] := by
      decide +kernel
    have hpart := List.mem_of_mem_head? (congrArg List.head? hchains)
    have hplace := hall _ _ h _ _ hm _ _ _ _ hpart (by decide)
    exact absurd hplace (by decide)

end Ends

end Pattern

end CallChains
