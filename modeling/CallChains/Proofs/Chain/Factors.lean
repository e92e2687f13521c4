import CallChains.Proofs.Chain.Reading
import Mathlib.Tactic.Tauto

/-!
# The grammar of a chain

The grammar says how a statement is cut into factors, each of which is read as one
token, and a rest that begins no token.  It does not mention the reader: a factor is a
name with its mark, and behind an opening parenthesis the text that follows decides
what belongs to the factor and which mark the token gets.

Main statements: every statement is cut in exactly one way, and the chain that is read
from it is made of the tokens of its factors.
-/

namespace CallChains

structure Factor where
  text : Text
  token : Token
deriving DecidableEq, Repr

namespace Factor

/-- A mark may end a name behind a previous token.  A closing parenthesis does so
directly behind the token of the identifier only. -/
def MayEnd (identifier : Token) (previous : Option Token) (mark : Char) : Prop :=
  mark = '.' ∨ mark = '(' ∨ mark = ';' ∨ (mark = ')' ∧ previous = some identifier)

def Begins (identifier : Token) (previous : Option Token) (text : Text) : Prop :=
  exists (name : Text) (mark : Char) (rest : Text), isIdentifier name = true ∧
    MayEnd identifier previous mark ∧ text = name ++ mark :: rest

/-- The factors that a name and a mark form, each in front of the text behind it. -/
inductive Stands (name : Text) : Char -> Factor -> Text -> Prop where
  | plain {mark : Char} {behind : Text} (hmark : mark ≠ '(') :
      Stands name mark ⟨name ++ [mark], ⟨name ++ [mark]⟩⟩ behind
  | opened {behind : Text} (hbehind : behind.head? ≠ some ')') :
      Stands name '(' ⟨name ++ ['('], ⟨name ++ ['(']⟩⟩ behind
  | continued {behind : Text} :
      Stands name '(' ⟨name ++ ['(', ')', '.'], ⟨name ++ ['(']⟩⟩ behind
  | ended {behind : Text} :
      Stands name '(' ⟨name ++ ['(', ')', ';'], ⟨name ++ [';']⟩⟩ behind
  | closed {behind : Text} (hdot : behind.head? ≠ some '.')
      (hsemicolon : behind.head? ≠ some ';') :
      Stands name '(' ⟨name ++ ['(', ')'], ⟨name ++ ['(']⟩⟩ behind

end Factor

namespace Chain

/-- The text behind a previous token is cut into factors and a rest. -/
inductive Factors (identifier : Token) : Option Token -> Text -> List Factor -> Text -> Prop where
  | stop {previous : Option Token} {rest : Text}
      (hrest : ¬ Factor.Begins identifier previous rest) :
      Factors identifier previous rest [] rest
  | factor {previous : Option Token} {name behind rest : Text} {mark : Char} {f : Factor}
      {factors : List Factor} (hname : isIdentifier name = true)
      (hmark : Factor.MayEnd identifier previous mark)
      (hstands : Factor.Stands name mark f behind)
      (hfactors : Factors identifier (some f.token) behind factors rest) :
      Factors identifier previous (f.text ++ behind) (f :: factors) rest

end Chain

namespace Factor

/-!
## One factor

A factor in front of a text is what the reader takes off as the next token.
-/

section Reading

variable {identifier : Token} {previous : Option Token} {name behind : Text} {mark : Char}
  {f : Factor}

theorem mem_marks_iff_mayEnd :
    mark ∈ (Position.after identifier previous).marks <-> MayEnd identifier previous mark := by
  unfold Position.after MayEnd
  by_cases hprevious : previous = some identifier
  · rw [if_pos hprevious]
    simp only [Position.marks, List.mem_cons, List.not_mem_nil, hprevious, and_true]
    tauto
  · rw [if_neg hprevious]
    simp only [Position.marks, List.mem_cons, List.not_mem_nil, hprevious, and_false]

theorem mem_marks_of_mayEnd (hmark : MayEnd identifier previous mark) : mark ∈ Token.marks :=
  Token.mem_marks_of_mem_position (mem_marks_iff_mayEnd.mpr hmark)

theorem begins_of_stands (hname : isIdentifier name = true)
    (hmark : MayEnd identifier previous mark) (hstands : Stands name mark f behind) :
    Begins identifier previous (f.text ++ behind) := by
  cases hstands with
  | plain hne => exact ⟨name, mark, behind, hname, hmark, by simp⟩
  | opened hbehind => exact ⟨name, '(', behind, hname, hmark, by simp⟩
  | continued => exact ⟨name, '(', ')' :: '.' :: behind, hname, hmark, by simp⟩
  | ended => exact ⟨name, '(', ')' :: ';' :: behind, hname, hmark, by simp⟩
  | closed hdot hsemicolon => exact ⟨name, '(', ')' :: behind, hname, hmark, by simp⟩

theorem exists_stands (name : Text) (mark : Char) (rest : Text) :
    exists (f : Factor) (behind : Text),
      name ++ mark :: rest = f.text ++ behind ∧ Stands name mark f behind := by
  by_cases hmark : mark = '('
  · subst hmark
    by_cases hclose : rest.head? = some ')'
    · rcases List.head?_eq_some_iff.mp hclose with ⟨after, rfl⟩
      by_cases hdot : after.head? = some '.'
      · rcases List.head?_eq_some_iff.mp hdot with ⟨behind, rfl⟩
        exact ⟨_, behind, by simp, Stands.continued⟩
      · by_cases hsemicolon : after.head? = some ';'
        · rcases List.head?_eq_some_iff.mp hsemicolon with ⟨behind, rfl⟩
          exact ⟨_, behind, by simp, Stands.ended⟩
        · exact ⟨_, after, by simp, Stands.closed hdot hsemicolon⟩
    · exact ⟨_, rest, by simp, Stands.opened hclose⟩
  · exact ⟨_, rest, by simp, Stands.plain hmark⟩

theorem next?_of_stands (hname : isIdentifier name = true)
    (hmark : MayEnd identifier previous mark) (hstands : Stands name mark f behind) :
    Token.next? (Position.after identifier previous) (f.text ++ behind) =
      some (f.token, behind) := by
  have hmem := mem_marks_iff_mayEnd.mpr hmark
  cases hstands with
  | plain hne =>
      rw [List.append_assoc, List.singleton_append, Token.next?_mark hname hmem hne]
  | opened hbehind =>
      rw [List.append_assoc, List.singleton_append, Token.next?_append hname hmem,
        Token.closeCall_open hbehind]
  | continued =>
      rw [List.append_assoc, List.cons_append, Token.next?_append hname hmem]
      exact congrArg some Token.closeCall_dot
  | ended =>
      rw [List.append_assoc, List.cons_append, Token.next?_append hname hmem]
      exact congrArg some (Token.closeCall_semicolon hname)
  | closed hdot hsemicolon =>
      rw [List.append_assoc, List.cons_append, Token.next?_append hname hmem]
      exact congrArg some (Token.closeCall_closed hdot hsemicolon)

theorem begins_of_read? {text rest : Text} {t : Token}
    (h : Token.read? (Position.after identifier previous) text = some (t, rest)) :
    Begins identifier previous text := by
  have hparts : text.takeWhile Char.isAlphanum ++ text.dropWhile Char.isAlphanum = text :=
    List.takeWhile_append_dropWhile
  have hall : forall c, c ∈ text.takeWhile Char.isAlphanum -> c.isAlphanum = true := by
    intro c hc
    exact List.mem_takeWhile_imp hc
  unfold Token.read? at h
  split at h
  · next c name mark behind hname hbehind =>
      split at h
      · next hmark =>
          refine ⟨c :: name, mark, behind, ?_, ?_, ?_⟩
          · rw [isIdentifier_iff, ← hname]
            exact ⟨by simp [hname], hall⟩
          · rw [← mem_marks_iff_mayEnd]
            simpa using hmark
          · rw [← hname, ← hbehind, hparts]
      · cases h
  · cases h

theorem next?_eq_none_iff {text : Text} :
    Token.next? (Position.after identifier previous) text = none <->
      ¬ Begins identifier previous text := by
  constructor
  · intro hnone hbegins
    rcases hbegins with ⟨name, mark, rest, hname, hmark, htext⟩
    rw [htext, Token.next?_append hname (mem_marks_iff_mayEnd.mpr hmark)] at hnone
    cases hnone
  · intro hbegins
    rw [Token.next?, Option.map_eq_none_iff]
    cases hread : Token.read? (Position.after identifier previous) text with
    | none => rfl
    | some taken => exact absurd (begins_of_read? hread) hbegins

theorem next?_eq_some_iff {text behind : Text} {t : Token} :
    Token.next? (Position.after identifier previous) text = some (t, behind) <->
      exists (name : Text) (mark : Char) (f : Factor), isIdentifier name = true ∧
        MayEnd identifier previous mark ∧ Stands name mark f behind ∧
          text = f.text ++ behind ∧ f.token = t := by
  constructor
  · intro hnext
    have hbegins : Begins identifier previous text := by
      by_contra hnot
      rw [next?_eq_none_iff.mpr hnot] at hnext
      cases hnext
    rcases hbegins with ⟨name, mark, rest, hname, hmark, htext⟩
    rcases exists_stands name mark rest with ⟨f, after, hrest, hstands⟩
    rw [htext, hrest, next?_of_stands hname hmark hstands] at hnext
    cases hnext
    exact ⟨name, mark, f, hname, hmark, hstands, htext.trans hrest, rfl⟩
  · intro h
    rcases h with ⟨name, mark, f, hname, hmark, hstands, rfl, rfl⟩
    exact next?_of_stands hname hmark hstands

/-!
## The size of a factor
-/

theorem two_le_length_of_stands (hname : isIdentifier name = true)
    (hstands : Stands name mark f behind) : 2 <= f.text.length := by
  have hpos : 1 <= name.length := List.length_pos_iff.mpr (isIdentifier_iff.mp hname).1
  cases hstands with
  | plain _ => simpa using hpos
  | opened _ => simpa using hpos
  | continued => simp
  | ended => simp
  | closed _ _ => simp

/-- The loop gets on by two characters or more with each token. -/
theorem length_next?_add_two {text rest : Text} {t : Token}
    (h : Token.next? (Position.after identifier previous) text = some (t, rest)) :
    rest.length + 2 <= text.length := by
  rcases next?_eq_some_iff.mp h with ⟨name, mark, f, hname, _, hstands, rfl, _⟩
  have hlength := two_le_length_of_stands hname hstands
  rw [List.length_append]
  omega

theorem exists_mark_of_stands (hname : isIdentifier name = true)
    (hmark : mark ∈ Token.marks) (hstands : Stands name mark f behind) :
    exists last : Char, last ∈ Token.marks ∧ f.token.text = f.token.name ++ [last] := by
  have hwritten : forall last, last ∈ Token.marks -> exists c, c ∈ Token.marks ∧
      name ++ [last] = Token.name ⟨name ++ [last]⟩ ++ [c] := by
    intro last hlast
    exact ⟨last, hlast, by rw [Token.name_append hname hlast]⟩
  -- Only the semicolon behind an empty call gives the token another mark.
  cases hstands with
  | plain _ => exact hwritten mark hmark
  | opened _ => exact hwritten '(' hmark
  | continued => exact hwritten '(' hmark
  | ended => exact hwritten ';' (by decide)
  | closed _ _ => exact hwritten '(' hmark

end Reading

end Factor

namespace Chain

/-!
## All factors
-/

section Cutting

variable {identifier : Token} {previous : Option Token} {text rest : Text}
  {factors front back : List Factor}

theorem factors_of_reads {chain : Chain} (h : Reads identifier previous text chain) :
    exists (factors : List Factor) (rest : Text),
      Factors identifier previous text factors rest ∧ factors.map Factor.token = chain := by
  induction h with
  | @stop previous text hnone =>
      exact ⟨[], text, Factors.stop (Factor.next?_eq_none_iff.mp hnone), rfl⟩
  | @token previous text behind t chain hnext _ ih =>
      rcases ih with ⟨factors, rest, hfactors, htokens⟩
      rcases Factor.next?_eq_some_iff.mp hnext with
        ⟨name, mark, f, hname, hmark, hstands, rfl, rfl⟩
      refine ⟨f :: factors, rest, Factors.factor hname hmark hstands hfactors, ?_⟩
      rw [List.map_cons, htokens]

theorem reads_of_factors (h : Factors identifier previous text factors rest) :
    Reads identifier previous text (factors.map Factor.token) := by
  induction h with
  | stop hrest => exact Reads.stop (Factor.next?_eq_none_iff.mpr hrest)
  | factor hname hmark hstands _ ih =>
      exact Reads.token (Factor.next?_of_stands hname hmark hstands) ih

theorem read_of_factors {raw : Text} (h : Factors identifier none raw factors rest) :
    read identifier raw = factors.map Factor.token :=
  read_eq_iff.mpr (reads_of_factors h)

theorem exists_factors (identifier : Token) (raw : Text) :
    exists (factors : List Factor) (rest : Text), Factors identifier none raw factors rest := by
  rcases exists_reads identifier none raw with ⟨chain, hreads⟩
  rcases factors_of_reads hreads with ⟨factors, rest, hfactors, _⟩
  exact ⟨factors, rest, hfactors⟩

theorem exists_factors_behind (h : Factors identifier previous text (front ++ back) rest) :
    exists (last : Option Token) (behind : Text),
      text = front.flatMap Factor.text ++ behind ∧ Factors identifier last behind back rest := by
  induction front generalizing previous text with
  | nil => exact ⟨previous, text, rfl, h⟩
  | cons f front ih =>
      cases h with
      | factor _ _ _ hlater =>
          rcases ih hlater with ⟨last, behind, rfl, hback⟩
          exact ⟨last, behind, by rw [List.flatMap_cons, List.append_assoc], hback⟩

theorem factors_unique {others : List Factor} {other : Text}
    (h : Factors identifier previous text factors rest)
    (hother : Factors identifier previous text others other) :
    factors = others ∧ rest = other := by
  induction h generalizing others other with
  | stop hrest =>
      cases hother with
      | stop _ => exact ⟨rfl, rfl⟩
      | factor hname hmark hstands _ =>
          exact absurd (Factor.begins_of_stands hname hmark hstands) hrest
  | @factor previous name behind rest mark f factors hname hmark hstands _ ih =>
      generalize htext : f.text ++ behind = text at hother
      cases hother with
      | stop hrest =>
          rw [← htext] at hrest
          exact absurd (Factor.begins_of_stands hname hmark hstands) hrest
      | @factor _ name' behind' _ mark' g others hname' hmark' hstands' hothers =>
          -- Both first factors are what the reader takes off, so they have the same token
          -- and leave the same text.
          have hnext := Factor.next?_of_stands hname hmark hstands
          rw [htext, Factor.next?_of_stands hname' hmark' hstands'] at hnext
          have hbehind : behind' = behind := congrArg Prod.snd (Option.some.inj hnext)
          have htoken : g.token = f.token := congrArg Prod.fst (Option.some.inj hnext)
          subst hbehind
          rw [htoken] at hothers
          rcases ih hothers with ⟨hsame, hrest⟩
          have hfactor : f = g := by
            cases f
            cases g
            cases htoken
            cases List.append_cancel_right htext
            rfl
          exact ⟨by rw [hfactor, hsame], hrest⟩

theorem text_of_factors (h : Factors identifier previous text factors rest) :
    text = factors.flatMap Factor.text ++ rest := by
  induction h with
  | stop _ => rfl
  | factor _ _ _ _ ih => rw [List.flatMap_cons, List.append_assoc, ← ih]

theorem forall_mem_factors (h : Factors identifier previous text factors rest) {f : Factor}
    (hf : f ∈ factors) :
    2 <= f.text.length ∧
      exists mark : Char, mark ∈ Token.marks ∧ f.token.text = f.token.name ++ [mark] := by
  induction h with
  | stop _ => cases hf
  | factor hname hmark hstands _ ih =>
      cases hf with
      | head =>
          exact ⟨Factor.two_le_length_of_stands hname hstands,
            Factor.exists_mark_of_stands hname (Factor.mem_marks_of_mayEnd hmark) hstands⟩
      | tail _ hf => exact ih hf

end Cutting

theorem exists_unique_factors (identifier raw : Text) :
    (exists (factors : List Factor) (rest : Text),
      Factors (Token.ofIdentifier identifier) none raw factors rest ∧
        (forall (others : List Factor) (other : Text),
          Factors (Token.ofIdentifier identifier) none raw others other ->
            others = factors ∧ other = rest) ∧
        read (Token.ofIdentifier identifier) raw = factors.map Factor.token ∧
        raw = factors.flatMap Factor.text ++ rest ∧
        forall f, f ∈ factors ->
          2 <= f.text.length ∧
            exists mark : Char, mark ∈ Token.marks ∧ f.token.text = f.token.name ++ [mark]) ∧
      forall (previous : Option Token) (text rest : Text) (t : Token),
        Token.next? (Position.after (Token.ofIdentifier identifier) previous) text =
            some (t, rest) ->
          rest.length + 2 <= text.length := by
  constructor
  · rcases exists_reads (Token.ofIdentifier identifier) none raw with ⟨chain, hreads⟩
    rcases factors_of_reads hreads with ⟨factors, rest, hfactors, htokens⟩
    refine ⟨factors, rest, hfactors, ?_, ?_, text_of_factors hfactors, ?_⟩
    · intro others other hothers
      exact factors_unique hothers hfactors
    · rw [htokens, read_eq_iff]
      exact hreads
    · intro f hf
      exact forall_mem_factors hfactors hf
  · intro previous text rest t hnext
    exact Factor.length_next?_add_two hnext

end Chain

end CallChains
