import CallChains.Proofs.Chain.Factors
import Mathlib.Data.List.DropRight
import Mathlib.Data.List.Infix

/-!
# Text behind a statement

A raw match runs to the last semicolon of its line, so it may take in text that has nothing to
do with its chain.  The reader looks no further ahead than over what closes a call.  Where its
look-ahead meets the end of the text, the token is the last one that is read, and all that more
text can change about it is the mark: a call that is still open may turn out to be ended.

Main statement: with more text behind it a statement is read as the same tokens with others
behind them, but for an opening parenthesis of the last token that may become a semicolon; no
name is changed or lost.
-/

namespace CallChains

theorem Token.name_withMark (t : Token) {c : Char} (hc : c ∈ marks) :
    (t.withMark c).name = t.name := by
  have hmark : marks.contains c = true := by simpa using hc
  rw [withMark, name, name, List.reverse_append, List.reverse_singleton, List.singleton_append,
    List.dropWhile_cons_of_pos hmark, List.reverse_reverse, List.dropWhile_idempotent]

namespace Factor

/-!
## One factor in front of more text
-/

section Stands

variable {name behind : Text} {mark : Char} {f : Factor}

theorem exists_inner_of_stands (h : Stands name mark f behind) :
    exists inner : Text, f.text = name ++ mark :: inner := by
  cases h with
  | plain _ => exact ⟨[], rfl⟩
  | opened _ => exact ⟨[], rfl⟩
  | continued => exact ⟨[')', '.'], rfl⟩
  | ended => exact ⟨[')', ';'], rfl⟩
  | closed _ _ => exact ⟨[')'], rfl⟩

theorem token_of_stands_open (h : Stands name '(' f behind) :
    f.token = ⟨name ++ ['(']⟩ ∨ f.token = ⟨name ++ [';']⟩ := by
  cases h with
  | plain hne => exact absurd rfl hne
  | opened _ => exact Or.inl rfl
  | continued => exact Or.inl rfl
  | ended => exact Or.inr rfl
  | closed _ _ => exact Or.inl rfl

/-- More text makes no difference to a factor unless the factor is an open call at the end. -/
theorem stands_append (h : Stands name mark f behind) (later : Text) :
    Stands name mark f (behind ++ later) ∨
      (behind = [] ∧ mark = '(' ∧ f.token = ⟨name ++ ['(']⟩) := by
  cases h with
  | plain hne => exact Or.inl (.plain hne)
  | opened hbehind =>
      cases behind with
      | nil => exact Or.inr ⟨rfl, rfl, rfl⟩
      | cons c behind => exact Or.inl (.opened hbehind)
  | continued => exact Or.inl .continued
  | ended => exact Or.inl .ended
  | closed hdot hsemicolon =>
      cases behind with
      | nil => exact Or.inr ⟨rfl, rfl, rfl⟩
      | cons c behind => exact Or.inl (.closed hdot hsemicolon)

end Stands

/-- What the reader takes off a text it takes off the longer text as well, or it is an open
call behind which nothing is left. -/
theorem next?_append_later {identifier : Token} {previous : Option Token} {text behind : Text}
    {t : Token} (later : Text)
    (h : Token.next? (Position.after identifier previous) text = some (t, behind)) :
    Token.next? (Position.after identifier previous) (text ++ later) =
        some (t, behind ++ later) ∨
      (behind = [] ∧ t.mark? = some '(' ∧
        exists (u : Token) (rest : Text),
          Token.next? (Position.after identifier previous) (text ++ later) = some (u, rest) ∧
            (u = t ∨ u = t.withMark ';')) := by
  rcases next?_eq_some_iff.mp h with ⟨name, mark, f, hname, hmark, hstands, rfl, rfl⟩
  rcases stands_append hstands later with hlonger | ⟨rfl, rfl, htoken⟩
  · left
    rw [List.append_assoc]
    exact next?_of_stands hname hmark hlonger
  · right
    rw [htoken, Token.withMark_append hname (by decide)]
    refine ⟨rfl, Token.mark?_append (by decide), ?_⟩
    -- The longer text goes on with the same name and parenthesis, and these form a factor there.
    rcases exists_inner_of_stands hstands with ⟨inner, hinner⟩
    rcases exists_stands name '(' (inner ++ later) with ⟨g, rest, htext, hother⟩
    refine ⟨g.token, rest, ?_, token_of_stands_open hother⟩
    rw [List.append_nil, hinner, List.append_assoc, List.cons_append, htext]
    exact next?_of_stands hname hmark hother

end Factor

namespace Chain

/-!
## All tokens in front of more text
-/

/-- The longer chain has the tokens of the other one in front, but for an open call at its end
that may be ended in the longer one. -/
def Continues (chain longer : Chain) : Prop :=
  chain <+: longer ∨
    exists (front : Chain) (t : Token), chain = front ++ [t] ∧ t.mark? = some '(' ∧
      front ++ [t.withMark ';'] <+: longer

theorem continues_nil (longer : Chain) : Continues [] longer := Or.inl List.nil_prefix

theorem continues_cons {chain longer : Chain} (h : Continues chain longer) (t : Token) :
    Continues (t :: chain) (t :: longer) := by
  rcases h with hprefix | ⟨front, last, rfl, hmark, hprefix⟩
  · exact Or.inl ((List.prefix_cons_inj t).mpr hprefix)
  · exact Or.inr ⟨t :: front, last, rfl, hmark, (List.prefix_cons_inj t).mpr hprefix⟩

theorem continues_singleton {t u : Token} (hmark : t.mark? = some '(')
    (h : u = t ∨ u = t.withMark ';') (longer : Chain) : Continues [t] (u :: longer) := by
  rcases h with rfl | rfl
  · exact Or.inl ⟨longer, rfl⟩
  · exact Or.inr ⟨[], t, rfl, hmark, longer, rfl⟩

theorem names_prefix_of_continues {chain longer : Chain} (h : Continues chain longer) :
    chain.map Token.name <+: longer.map Token.name := by
  rcases h with hprefix | ⟨front, t, rfl, _, hprefix⟩
  · exact hprefix.map Token.name
  · have hnames := hprefix.map Token.name
    rw [List.map_append, List.map_singleton, Token.name_withMark t (by decide)] at hnames
    rwa [List.map_append, List.map_singleton]

theorem eq_nil_of_reads_nil {identifier : Token} {previous : Option Token} {chain : Chain}
    (h : Reads identifier previous [] chain) : chain = [] := by
  cases h with
  | stop _ => rfl
  | token hnext _ =>
      rw [Token.next?_of_head? (by simp)] at hnext
      cases hnext

theorem exists_reads_append {identifier : Token} {previous : Option Token} {text : Text}
    {chain : Chain} (h : Reads identifier previous text chain) (later : Text) :
    exists longer : Chain,
      Reads identifier previous (text ++ later) longer ∧ Continues chain longer := by
  induction h with
  | stop _ =>
      rcases exists_reads identifier _ _ with ⟨longer, hlonger⟩
      exact ⟨longer, hlonger, continues_nil longer⟩
  | @token previous text rest t chain hnext hrest ih =>
      rcases Factor.next?_append_later later hnext with hsame | ⟨rfl, hmark, u, left, hother, hu⟩
      · rcases ih with ⟨longer, hlonger, hcontinues⟩
        exact ⟨t :: longer, Reads.token hsame hlonger, continues_cons hcontinues t⟩
      · rw [eq_nil_of_reads_nil hrest]
        rcases exists_reads identifier (some u) left with ⟨longer, hlonger⟩
        exact ⟨u :: longer, Reads.token hother hlonger, continues_singleton hmark hu longer⟩

theorem read_continues_append (identifier raw later : Text) :
    (read (Token.ofIdentifier identifier) raw).map Token.name <+:
        (read (Token.ofIdentifier identifier) (raw ++ later)).map Token.name ∧
      (read (Token.ofIdentifier identifier) raw).calls <+:
        (read (Token.ofIdentifier identifier) (raw ++ later)).calls ∧
      (read (Token.ofIdentifier identifier) raw <+:
          read (Token.ofIdentifier identifier) (raw ++ later) ∨
        exists (front : Chain) (t : Token),
          read (Token.ofIdentifier identifier) raw = front ++ [t] ∧ t.mark? = some '(' ∧
            front ++ [t.withMark ';'] <+:
              read (Token.ofIdentifier identifier) (raw ++ later)) := by
  rcases exists_reads_append (read_eq_iff.mp rfl) later with ⟨longer, hlonger, hcontinues⟩
  rw [← read_eq_iff.mpr hlonger] at hcontinues
  have hnames := names_prefix_of_continues hcontinues
  refine ⟨hnames, ?_, hcontinues⟩
  rw [calls, calls, List.map_tail, List.map_tail, ← List.drop_one, ← List.drop_one]
  exact hnames.drop 1

-- A call that is cut behind its parenthesis is ended by the text that follows.
example :
    read (Token.ofIdentifier "Lib".toList) "Lib.x(".toList =
        [⟨"Lib.".toList⟩, ⟨"x(".toList⟩] ∧
      read (Token.ofIdentifier "Lib".toList) ("Lib.x(".toList ++ ");y.".toList) =
        [⟨"Lib.".toList⟩, ⟨"x;".toList⟩, ⟨"y.".toList⟩] :=
  ⟨by cbv, by cbv⟩

end Chain

end CallChains
