import CallChains.Text

/-!
# Coloured texts

A text is coloured by a sequence of control characters before it, and a reset
behind it.  A reset inside of the text would end the colour early, so the colour
is set again behind it.
-/

namespace CallChains

namespace Console

inductive Colour where
  | red
  | green
  | yellow
  | blue
  | cyan
deriving DecidableEq, Repr

namespace Colour

def number : Colour → Nat
  | .red => 31
  | .green => 32
  | .yellow => 33
  | .blue => 34
  | .cyan => 36

def start (c : Colour) : Text := '\x1b' :: '[' :: (Text.ofNat c.number ++ ['m'])

def reset : Text := ['\x1b', '[', '0', 'm']

/-- The text with the colour set again behind each reset in it. -/
def renewed (c : Colour) : Text → Text
  | '\x1b' :: '[' :: '0' :: 'm' :: rest => reset ++ (c.start ++ c.renewed rest)
  | first :: rest => first :: c.renewed rest
  | [] => []

/-- Whether to use colours, by the environment: they may be forced or ruled out, and
else are for a terminal unless they are switched off.  A variable that is `0` is
set but says no. -/
def isEnabled (forced ruledOut switch : Option Text) (terminal : Bool) : Bool :=
  if forced.any (· != ['0']) then true
  else if ruledOut.isSome then false
  else terminal && switch != some ['0']

def paint (c : Colour) (enabled : Bool) (text : Text) : Text :=
  if enabled then c.start ++ c.renewed text ++ reset else text

end Colour

end Console

end CallChains
