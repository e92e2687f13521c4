import CallChains.Text

/-!
# Match patterns

The pattern of an identifier describes the statements that are looked for: the
identifier itself, a dot, and then as much of the line as possible up to and
including a semicolon.  Its text is the regular expression `identifier\..*;+`, in
which the characters of the identifier stand for themselves.

A compiled pattern may not exceed `sizeLimit` bytes, which rules out only
identifiers of an absurd length.
-/

namespace CallChains

def sizeLimit : Nat := 10485760

/-- The size of the compiled pattern of an identifier: each character takes 64
bytes. -/
def compiledSize (identifier : Text) : Nat := 64 * identifier.length

/-- A pattern, given by an identifier that is not too long for one. -/
structure Pattern where
  identifier : Text
  fits : compiledSize identifier <= sizeLimit
deriving DecidableEq, Repr

namespace Pattern

def ofIdentifier? (identifier : Text) : Option Pattern :=
  if h : compiledSize identifier <= sizeLimit then some ⟨identifier, h⟩ else none

def lead (p : Pattern) : Text := p.identifier ++ ['.']

def special : List Char :=
  ['\\', '.', '+', '*', '?', '(', ')', '|', '[', ']', '\x7b', '\x7d', '^', '$', '#', '&',
    '-', '~']

def escapedChar (c : Char) : Text :=
  if special.contains c then ['\\', c] else [c]

def text (p : Pattern) : Text :=
  p.identifier.flatMap escapedChar ++ "\\..*;+".toList

theorem ofIdentifier?_eq_none_iff (identifier : Text) :
    ofIdentifier? identifier = none ↔ sizeLimit < compiledSize identifier := by
  unfold ofIdentifier?
  split
  · next h => simp [Nat.not_lt.mpr h]
  · next h => simp [Nat.not_le.mp h]

end Pattern

end CallChains
