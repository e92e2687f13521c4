import CallChains.Chain.Grammar
import CallChains.Settings
import Mathlib.Data.List.TakeWhile

/-!
# Reading tokens one after another

`Reads` is the loop of reading without its accumulator: the tokens read from a text
behind a previous token.  Before it stand the ways in which a single token is read,
one for each way in which the text goes on behind a name.
-/

namespace CallChains

theorem isIdentifier_iff {text : Text} :
    isIdentifier text = true <-> text ≠ [] ∧ forall c, c ∈ text -> c.isAlphanum = true := by
  simp [isIdentifier]

theorem notMem_of_isIdentifier {text : Text} (h : isIdentifier text = true) {c : Char}
    (hc : ¬ c.isAlphanum = true) : c ∉ text := by
  intro hmem
  exact hc ((isIdentifier_iff.mp h).2 c hmem)

theorem toNat_of_isAlphanum {c : Char} (h : c.isAlphanum = true) :
    0x30 <= c.toNat ∧ c.toNat < 0x80 := by
  have hbounds : (65 <= c.toNat ∧ c.toNat <= 90) ∨ (97 <= c.toNat ∧ c.toNat <= 122) ∨
      (48 <= c.toNat ∧ c.toNat <= 57) := by
    rcases Bool.or_eq_true_iff.mp h with halpha | hdigit
    · rcases Bool.or_eq_true_iff.mp halpha with hupper | hlower
      · exact Or.inl (of_decide_eq_true hupper)
      · rcases Bool.and_eq_true_iff.mp hlower with ⟨hlow, hhigh⟩
        exact Or.inr (Or.inl ⟨of_decide_eq_true hlow, of_decide_eq_true hhigh⟩)
    · rcases Bool.and_eq_true_iff.mp hdigit with ⟨hlow, hhigh⟩
      exact Or.inr (Or.inr ⟨of_decide_eq_true hlow, of_decide_eq_true hhigh⟩)
  omega

namespace Token

/-!
## Names and their marks
-/

section Names

variable {name : Text} {mark : Char}

theorem not_isAlphanum_of_mem_marks (hmark : mark ∈ marks) : ¬ mark.isAlphanum = true := by
  simp only [marks, List.mem_cons, List.not_mem_nil, or_false] at hmark
  rcases hmark with rfl | rfl | rfl | rfl
  · decide
  · decide
  · decide
  · decide

theorem mem_marks_of_mem_position {p : Position} (hmark : mark ∈ p.marks) : mark ∈ marks := by
  cases p with
  | behindIdentifier => exact hmark
  | elsewhere =>
      simp only [Position.marks, List.mem_cons, List.not_mem_nil, or_false] at hmark
      rcases hmark with rfl | rfl | rfl
      · decide
      · decide
      · decide

theorem name_append (hname : isIdentifier name = true) (hmark : mark ∈ marks) :
    Token.name ⟨name ++ [mark]⟩ = name := by
  rcases isIdentifier_iff.mp hname with ⟨hne, hall⟩
  rcases List.eq_nil_or_concat name with hnil | ⟨front, last, rfl⟩
  · exact absurd hnil hne
  · have hlast : last ∉ marks := by
      intro hmem
      exact not_isAlphanum_of_mem_marks hmem (hall last (by simp))
    simp [Token.name, hmark, hlast]

theorem mark?_append (hmark : mark ∈ marks) : mark? ⟨name ++ [mark]⟩ = some mark := by
  simp [mark?, hmark]

theorem withMark_append (hname : isIdentifier name = true) (hmark : mark ∈ marks) (c : Char) :
    withMark ⟨name ++ [mark]⟩ c = ⟨name ++ [c]⟩ := by
  rw [withMark, name_append hname hmark]

end Names

/-!
## Closing a call
-/

section Closing

variable {name rest : Text} {mark : Char}

theorem closeCall_of_ne (hmark : mark ∈ marks) (hne : mark ≠ '(') :
    closeCall ⟨name ++ [mark]⟩ rest = (⟨name ++ [mark]⟩, rest) := by
  unfold closeCall
  rw [mark?_append hmark, if_neg (by simpa using hne)]

theorem closeCall_dot :
    closeCall ⟨name ++ ['(']⟩ (')' :: '.' :: rest) = (⟨name ++ ['(']⟩, rest) := by
  unfold closeCall
  rw [mark?_append (by decide), if_pos rfl]
  rfl

theorem closeCall_semicolon (hname : isIdentifier name = true) :
    closeCall ⟨name ++ ['(']⟩ (')' :: ';' :: rest) = (⟨name ++ [';']⟩, rest) := by
  unfold closeCall
  rw [mark?_append (by decide), if_pos rfl]
  have hmark : withMark ⟨name ++ ['(']⟩ ';' = ⟨name ++ [';']⟩ :=
    withMark_append hname (by decide) ';'
  simp only [hmark]

theorem closeCall_closed (hdot : rest.head? ≠ some '.') (hsemicolon : rest.head? ≠ some ';') :
    closeCall ⟨name ++ ['(']⟩ (')' :: rest) = (⟨name ++ ['(']⟩, rest) := by
  unfold closeCall
  rw [mark?_append (by decide), if_pos rfl]
  cases rest with
  | nil => rfl
  | cons c rest =>
      split
      · next h =>
          cases h
          exact absurd rfl hdot
      · next h =>
          cases h
          exact absurd rfl hsemicolon
      · next h =>
          cases h
          rfl
      · next hother => exact absurd rfl (hother (c :: rest))

theorem closeCall_open (hclose : rest.head? ≠ some ')') :
    closeCall ⟨name ++ ['(']⟩ rest = (⟨name ++ ['(']⟩, rest) := by
  unfold closeCall
  rw [mark?_append (by decide), if_pos rfl]
  cases rest with
  | nil => rfl
  | cons c rest =>
      have hc : c ≠ ')' := by
        intro hc
        exact hclose (congrArg some hc)
      split
      · next h => exact absurd (List.cons_eq_cons.mp h).1 hc
      · next h => exact absurd (List.cons_eq_cons.mp h).1 hc
      · next h => exact absurd (List.cons_eq_cons.mp h).1 hc
      · rfl

end Closing

/-!
## Reading one token
-/

section Reading

variable {p : Position} {name rest : Text} {mark : Char}

theorem read?_append (hname : isIdentifier name = true) (hmark : mark ∈ p.marks) :
    read? p (name ++ mark :: rest) = some (⟨name ++ [mark]⟩, rest) := by
  rcases isIdentifier_iff.mp hname with ⟨hne, hall⟩
  have hstop := not_isAlphanum_of_mem_marks (mem_marks_of_mem_position hmark)
  unfold read?
  rw [List.takeWhile_append_of_pos hall, List.dropWhile_append_of_pos hall,
    List.takeWhile_cons_of_neg hstop, List.dropWhile_cons_of_neg hstop, List.append_nil]
  cases name with
  | nil => exact absurd rfl hne
  | cons c name => simp [hmark]

theorem read?_of_head? (h : forall c, rest.head? = some c -> ¬ c.isAlphanum = true) :
    read? p rest = none := by
  unfold read?
  cases rest with
  | nil => rfl
  | cons c rest => rw [List.takeWhile_cons_of_neg (h c rfl)]

theorem next?_append (hname : isIdentifier name = true) (hmark : mark ∈ p.marks) :
    next? p (name ++ mark :: rest) = some (closeCall ⟨name ++ [mark]⟩ rest) := by
  rw [next?, read?_append hname hmark, Option.map_some]

theorem next?_mark (hname : isIdentifier name = true) (hmark : mark ∈ p.marks)
    (hne : mark ≠ '(') :
    next? p (name ++ mark :: rest) = some (⟨name ++ [mark]⟩, rest) := by
  rw [next?_append hname hmark, closeCall_of_ne (mem_marks_of_mem_position hmark) hne]

theorem open_mem_marks (p : Position) : '(' ∈ p.marks := by
  cases p <;> decide

theorem dot_mem_marks (p : Position) : '.' ∈ p.marks := by
  cases p <;> decide

theorem semicolon_mem_marks (p : Position) : ';' ∈ p.marks := by
  cases p <;> decide

theorem next?_ofIdentifier {identifier : Text} (h : isIdentifier identifier = true)
    (p : Position) (rest : Text) :
    next? p (identifier ++ '.' :: rest) = some (Token.ofIdentifier identifier, rest) :=
  next?_mark h (dot_mem_marks p) (by decide)

theorem next?_of_head? (h : forall c, rest.head? = some c -> ¬ c.isAlphanum = true) :
    next? p rest = none := by
  rw [next?, read?_of_head? h, Option.map_none]

end Reading

end Token

namespace Chain

/-- The chain that is read from a text behind a previous token. -/
inductive Reads (identifier : Token) : Option Token -> Text -> Chain -> Prop where
  | stop {previous : Option Token} {text : Text}
      (hnone : Token.next? (Position.after identifier previous) text = none) :
      Reads identifier previous text []
  | token {previous : Option Token} {text rest : Text} {t : Token} {chain : Chain}
      (hnext : Token.next? (Position.after identifier previous) text = some (t, rest))
      (hrest : Reads identifier (some t) rest chain) :
      Reads identifier previous text (t :: chain)

/-!
## The loop as a relation
-/

theorem readFrom_of_none {identifier : Token} {reversed : Chain} {text : Text}
    (h : Token.next? (Position.after identifier reversed.head?) text = none) :
    readFrom identifier reversed text = reversed.reverse := by
  unfold readFrom
  split
  · rfl
  · next hsome =>
      rw [h] at hsome
      cases hsome

theorem readFrom_of_some {identifier t : Token} {reversed : Chain} {text rest : Text}
    (h : Token.next? (Position.after identifier reversed.head?) text = some (t, rest)) :
    readFrom identifier reversed text = readFrom identifier (t :: reversed) rest := by
  rw [readFrom]
  split
  · next hnone =>
      rw [h] at hnone
      cases hnone
  · next hsome =>
      rw [h] at hsome
      cases hsome
      rfl

theorem readFrom_of_reads {identifier : Token} {reversed chain : Chain} {text : Text}
    (h : Reads identifier reversed.head? text chain) :
    readFrom identifier reversed text = reversed.reverse ++ chain := by
  generalize hprevious : reversed.head? = previous at h
  induction h generalizing reversed with
  | stop hnone =>
      subst hprevious
      rw [readFrom_of_none hnone, List.append_nil]
  | token hnext _ ih =>
      subst hprevious
      rw [readFrom_of_some hnext, ih rfl]
      simp

theorem exists_reads (identifier : Token) (previous : Option Token) (text : Text) :
    exists chain : Chain, Reads identifier previous text chain := by
  cases hnext : Token.next? (Position.after identifier previous) text with
  | none => exact ⟨[], Reads.stop hnext⟩
  | some taken =>
      have hshorter : taken.2.length < text.length := Token.length_next? hnext
      rcases exists_reads identifier (some taken.1) taken.2 with ⟨chain, hchain⟩
      exact ⟨taken.1 :: chain, Reads.token hnext hchain⟩
termination_by text.length

theorem read_eq_iff {identifier : Token} {statement : Text} {chain : Chain} :
    read identifier statement = chain <-> Reads identifier none statement chain := by
  have hread : forall other, Reads identifier none statement other ->
      read identifier statement = other := by
    intro other hother
    have hhead : Reads identifier (List.head? []) statement other := hother
    exact readFrom_of_reads hhead
  constructor
  · intro h
    rcases exists_reads identifier none statement with ⟨other, hother⟩
    rw [← h, hread other hother]
    exact hother
  · exact hread chain

theorem exists_read_lead {identifier : Text} (h : isIdentifier identifier = true)
    (rest : Text) :
    exists tail : Chain,
      read (Token.ofIdentifier identifier) (identifier ++ '.' :: rest) =
        Token.ofIdentifier identifier :: tail := by
  rcases exists_reads (Token.ofIdentifier identifier) (some (Token.ofIdentifier identifier))
    rest with ⟨tail, htail⟩
  exact ⟨tail, read_eq_iff.mpr (Reads.token (Token.next?_ofIdentifier h _ rest) htail)⟩

end Chain

end CallChains
