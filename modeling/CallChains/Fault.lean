import CallChains.Fault.SystemText

/-!
# Faults of reading and writing

Reading the input or writing a file may fail for reasons outside the program.  A
fault is such a reason.  A system fault shows its number behind its text.
-/

namespace CallChains

inductive Fault where
  /-- A system call failed with this error number. -/
  | system (number : Nat)
  /-- A path holds the character that ends a path for the system. -/
  | nulInPath
  /-- Any other reason, in words. -/
  | other (reason : Text)
deriving DecidableEq, Repr

namespace Fault

def noSuchFile : Fault := .system 2
def interrupted : Fault := .system 4
def notDirectory : Fault := .system 20
def isDirectory : Fault := .system 21
def nameTooLong : Fault := .system 36

def message : Fault → Text
  | .system number =>
      SystemText.ofNumber number ++ " (os error ".toList ++ Text.ofNat number ++ [')']
  | .nulInPath => "file name contained an unexpected NUL byte".toList
  | .other reason => reason

end Fault

end CallChains
