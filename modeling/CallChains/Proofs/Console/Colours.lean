import CallChains.Console.Colour
import Mathlib.Data.List.Infix

/-!
# Coloured texts written out

A text in a colour stands between two control sequences.  If the text has the second one of
these itself, each of the pieces between its occurrences is in the colour.
-/

namespace CallChains

namespace Console

namespace Colour

end Colour

end Console

end CallChains
