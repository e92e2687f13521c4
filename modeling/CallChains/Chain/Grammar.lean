import CallChains.Chain

/-!
# Reading a chain from a statement

Tokens are taken off the front of a statement until none is left that fits.  A
token is a name of ASCII letters and digits with the mark that ends it.  Directly
behind the token of the identifier a name may also end in a closing parenthesis,
as in `(Library.version)`; everywhere else it ends in a dot, an opening
parenthesis or a semicolon.

An opening parenthesis that is closed at once is an empty call.  Its closing
parenthesis is passed over, together with the dot that goes on from it; a
semicolon behind it becomes the mark of the token.
-/

namespace CallChains

/-- Where a token stands in its chain, as far as that decides how it may end. -/
inductive Position where
  | behindIdentifier
  | elsewhere
deriving DecidableEq, Repr

namespace Position

def after (identifier : Token) (previous : Option Token) : Position :=
  if previous = some identifier then .behindIdentifier else .elsewhere

def marks : Position → List Char
  | .behindIdentifier => ['.', '(', ')', ';']
  | .elsewhere => ['.', '(', ';']

end Position

namespace Token

def read? (p : Position) (text : Text) : Option (Token × Text) :=
  match text.takeWhile Char.isAlphanum, text.dropWhile Char.isAlphanum with
  | c :: name, e :: rest =>
      if p.marks.contains e then some (⟨c :: name ++ [e]⟩, rest) else none
  | _, _ => none

/-- Pass over what closes an empty call behind a token that opens one. -/
def closeCall (t : Token) (text : Text) : Token × Text :=
  if t.mark? = some '(' then
    match text with
    | ')' :: '.' :: rest => (t, rest)
    | ')' :: ';' :: rest => (t.withMark ';', rest)
    | ')' :: rest => (t, rest)
    | _ => (t, text)
  else
    (t, text)

def next? (p : Position) (text : Text) : Option (Token × Text) :=
  (read? p text).map fun taken => closeCall taken.1 taken.2

/-!
## Reading makes the text shorter
-/

theorem length_read? {p : Position} {text rest : Text} {t : Token}
    (h : read? p text = some (t, rest)) : rest.length < text.length := by
  have hparts : text.takeWhile Char.isAlphanum ++ text.dropWhile Char.isAlphanum = text :=
    List.takeWhile_append_dropWhile
  have hlength := congrArg List.length hparts
  unfold read? at h
  split at h
  · next c name e behind hname hrest =>
      rw [hname, hrest] at hlength
      split at h
      · cases h
        simp at hlength
        omega
      · cases h
  · cases h

theorem length_closeCall (t : Token) (text : Text) :
    (closeCall t text).2.length <= text.length := by
  unfold closeCall
  split
  · split
    · simp only [List.length_cons]
      omega
    · simp only [List.length_cons]
      omega
    · simp
    · exact Nat.le_refl _
  · exact Nat.le_refl _

theorem length_next? {p : Position} {text rest : Text} {t : Token}
    (h : next? p text = some (t, rest)) : rest.length < text.length := by
  unfold next? at h
  rcases Option.map_eq_some_iff.mp h with ⟨⟨u, behind⟩, hread, hclose⟩
  have hle := length_closeCall u behind
  have hlt := length_read? hread
  have hrest : (closeCall u behind).2 = rest := congrArg Prod.snd hclose
  rw [hrest] at hle
  exact Nat.lt_of_le_of_lt hle hlt

end Token

namespace Chain

/-- Read tokens while there are any; `reversed` holds those read so far, the last
one first. -/
def readFrom (identifier : Token) (reversed : Chain) (text : Text) : Chain :=
  match _ : Token.next? (Position.after identifier reversed.head?) text with
  | none => reversed.reverse
  | some (t, rest) => readFrom identifier (t :: reversed) rest
termination_by text.length
decreasing_by exact Token.length_next? (by assumption)

/-- The chain that a statement holds.  Reading stops at the first place where no
token fits, and keeps the tokens before it. -/
def read (identifier : Token) (statement : Text) : Chain :=
  readFrom identifier [] statement

end Chain

end CallChains
