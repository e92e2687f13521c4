import CallChains.Text

/-!
# Quoted texts

A quoted text stands between double quotes; inside, a double quote and a
backslash each take a backslash before them.
-/

namespace CallChains

namespace Text

def quotedChar (c : Char) : Text :=
  if c = '"' || c = '\\' then ['\\', c] else [c]

def quoted (text : Text) : Text :=
  '"' :: (text.flatMap quotedChar ++ ['"'])

end Text

end CallChains
