import CallChains.Pattern

/-!
# Raw matches

A raw match is a statement as it stands in the text: it begins with the lead of
the pattern, stays on its line behind the lead, and runs to the last semicolon
of that line.  Matches are found from left to right; a position inside a match
begins no other one.

`findAll` walks over the text once.  It carries the current position and the
number of characters that the latest match still covers.
-/

namespace CallChains

/-- A match: the number of characters before it, and the matched text. -/
structure RawMatch where
  start : Nat
  text : Text
deriving DecidableEq, Repr

namespace RawMatch

/-!
## The end of a statement
-/

/-- The length of a line up to its last semicolon, where `length` characters of
the line have been passed and `reached` is the answer for these. -/
def reachFrom (length reached : Nat) : Text → Nat
  | [] => reached
  | c :: rest =>
      if c = '\n' then reached
      else reachFrom (length + 1) (if c = ';' then length + 1 else reached) rest

/-- The number of characters up to and including the last semicolon of the first
line, `0` if that line has no semicolon. -/
def reach (text : Text) : Nat := reachFrom 0 0 text

def lengthAt? (lead text : Text) : Option Nat :=
  match lead.isPrefixOf? text with
  | none => none
  | some rest => if reach rest = 0 then none else some (lead.length + reach rest)

/-!
## Matches from left to right
-/

/-- Walk over the text behind the first `position` characters, of which the latest
match covers the next `covered` ones; `found` holds the matches so far, the last
one first. -/
def scan (lead : Text) (position covered : Nat) (found : List RawMatch) :
    Text → List RawMatch
  | [] => found.reverse
  | c :: rest =>
      match covered with
      | covered + 1 => scan lead (position + 1) covered found rest
      | 0 =>
          match lengthAt? lead (c :: rest) with
          | none => scan lead (position + 1) 0 found rest
          | some length =>
              scan lead (position + 1) (length - 1)
                (⟨position, (c :: rest).take length⟩ :: found) rest

end RawMatch

def Pattern.findAll (p : Pattern) (text : Text) : List RawMatch :=
  RawMatch.scan p.lead 0 0 [] text

end CallChains
