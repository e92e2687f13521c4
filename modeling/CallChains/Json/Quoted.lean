import CallChains.Text

/-!
# Quoted strings of a document

A string stands between double quotes.  A double quote, a backslash and the
characters below `U+0020` are escaped: the common ones by a letter, the others by
their number in four lower-case hexadecimal digits.  All other characters stand
for themselves.
-/

namespace CallChains

namespace Json

def hexadecimal (n : Nat) : Text :=
  [n / 4096 % 16, n / 256 % 16, n / 16 % 16, n % 16].map Nat.digitChar

def escaped (c : Char) : Text :=
  if c = '"' then ['\\', '"']
  else if c = '\\' then ['\\', '\\']
  else if c = '\x08' then ['\\', 'b']
  else if c = '\x0c' then ['\\', 'f']
  else if c = '\n' then ['\\', 'n']
  else if c = '\r' then ['\\', 'r']
  else if c = '\t' then ['\\', 't']
  else if c.toNat < 0x20 then '\\' :: 'u' :: hexadecimal c.toNat
  else [c]

def quoted (text : Text) : Text := '"' :: (text.flatMap escaped ++ ['"'])

end Json

end CallChains
