import CallChains.Forest
import CallChains.Json.Quoted

/-!
# Nested objects

A forest is written as an object whose members are its branches; the value of a
member is again an object.  The compact form has no blanks.  The pretty form puts
each member on a line of its own, four blanks deeper on each level.  An empty
object is a pair of braces in both.

The writers take the text that comes after what they write, so that no part of a
deep object is copied again on each level.
-/

namespace CallChains

namespace Json

/-- The members of an object without its braces, and then `after`. -/
def compactMembers : Forest → Text → Text
  | .nil, after => after
  | .branch name below others, after =>
      quoted name ++ ':' :: '\x7b' :: compactMembers below ('\x7d' ::
        (if others.isEmpty then after else ',' :: compactMembers others after))

def compact (object : Forest) : Text :=
  '\x7b' :: compactMembers object ['\x7d']

def indent (level : Nat) : Text := List.replicate (4 * level) ' '

def prettyMembers (level : Nat) : Forest → Text → Text
  | .nil, after => after
  | .branch name below others, after =>
      let next :=
        if others.isEmpty then after
        else ',' :: '\n' :: prettyMembers level others after
      indent level ++ (quoted name ++ ':' :: ' ' :: '\x7b' ::
        (if below.isEmpty then '\x7d' :: next
         else '\n' :: prettyMembers (level + 1) below
          ('\n' :: (indent level ++ '\x7d' :: next))))

def pretty (object : Forest) : Text :=
  if object.isEmpty then ['\x7b', '\x7d']
  else '\x7b' :: '\n' :: prettyMembers 1 object ['\n', '\x7d']

end Json

end CallChains
