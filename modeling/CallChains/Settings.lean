import CallChains.Clock
import CallChains.Failure

/-!
# Settings of a run

What is looked for, where the document goes, and how long the first input is
waited for.  An identifier is valid if it can be the name of a token: one or more
ASCII letters or digits.
-/

namespace CallChains

structure Settings where
  identifier : Text
  output : Text
  timeout : Duration
deriving DecidableEq, Repr

def isIdentifier (text : Text) : Bool := !text.isEmpty && text.all Char.isAlphanum

namespace Settings

def defaultOutput : Text := "../logfile.json".toList

def defaultTimeoutMillis : UInt64 := 500

/-- The default settings, with any text in the place of the identifier. -/
def unchecked (identifier : Text) : Settings :=
  ⟨identifier, defaultOutput, Duration.ofMillis defaultTimeoutMillis⟩

def ofIdentifier (identifier : Text) : Except Failure Settings :=
  if isIdentifier identifier then .ok (unchecked identifier)
  else .error (.invalidIdentifier identifier)

end Settings

end CallChains
