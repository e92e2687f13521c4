import CallChains.Fault
import CallChains.Pattern

/-!
# Failures of a run

The reasons for which a run yields no report.  A bad identifier and a missing
input are mistakes in the use of the program, and are answered with a hint how it
is used.
-/

namespace CallChains

inductive Failure where
  /-- The identifier cannot be the name of a token. -/
  | invalidIdentifier (identifier : Text)
  /-- No byte came before the input ended or the wait was over. -/
  | noInput (waitedMillis : Nat)
  /-- No statement begins at the identifier. -/
  | noMatches (pattern : Pattern)
  /-- The input could not be read. -/
  | unreadable (fault : Fault)
  /-- The pattern of the identifier is too large. -/
  | patternTooLarge
deriving DecidableEq, Repr

namespace Failure

def isMisuse : Failure → Bool
  | .invalidIdentifier _ => true
  | .noInput _ => true
  | _ => false

def message : Failure → Text
  | .invalidIdentifier identifier =>
      "invalid identifier '".toList ++ identifier ++
        "': expected one or more ASCII letters or digits".toList
  | .noInput waitedMillis =>
      "no piped input received within ".toList ++ Text.ofNat waitedMillis ++ "ms".toList
  | .noMatches pattern => "no matches found for regexp ".toList ++ pattern.text
  | .unreadable fault => "failed to read input: ".toList ++ fault.message
  | .patternTooLarge =>
      "invalid match pattern: Compiled regex exceeds size limit of ".toList ++
        Text.ofNat sizeLimit ++ " bytes.".toList

end Failure

end CallChains
