import CallChains.Text

/-!
# Paths

A path is a text whose parts are divided by slashes.  It begins at the root if its
first character is a slash, and in the working directory otherwise.  Empty parts
count for nothing, except that a path which ends in a slash asks for a directory.
-/

namespace CallChains

namespace Store

inductive Part where
  | here
  | parent
  | name (text : Text)
deriving DecidableEq, Repr

namespace Part

def ofText (text : Text) : Part :=
  if text = ['.'] then .here
  else if text = ['.', '.'] then .parent
  else .name text

end Part

def pieces (path : Text) : List Text :=
  (path.splitBy fun a b => a != '/' && b != '/').filter (· != ['/'])

structure Path where
  fromRoot : Bool
  parts : List Part
  /-- Whether a slash stands behind the last part. -/
  slashed : Bool
deriving DecidableEq, Repr

def Path.ofText (text : Text) : Path where
  fromRoot := text.head? == some '/'
  parts := (pieces text).map Part.ofText
  slashed := text.getLast? == some '/'

end Store

end CallChains
