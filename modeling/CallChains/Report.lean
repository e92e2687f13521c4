import CallChains.Document
import CallChains.Settings
import CallChains.Survey

/-!
# Reports

The report of a text holds what was counted at each stage and the document.  It
is made from the survey of the text; a text without a match has no report.
-/

namespace CallChains

structure Report where
  pattern : Pattern
  /-- The number of raw matches. -/
  matchCount : Nat
  /-- The number of distinct texts among them. -/
  textCount : Nat
  /-- The number of distinct chains. -/
  chainCount : Nat
  /-- The number of nodes of the trie. -/
  methodCount : Nat
  output : Text
  /-- Why the document could not be written, if it could not. -/
  writeFault : Option Fault
  document : Document
deriving DecidableEq

def Survey.report? (s : Survey) (output : Text) : Option Report :=
  if s.found.isEmpty then none
  else
    let chains := s.chains
    let trie := CallTrie.ofChains chains
    some {
      pattern := s.pattern
      matchCount := s.found.length
      textCount := s.stages.length
      chainCount := chains.length
      methodCount := trie.count
      output
      writeFault := none
      document := ⟨s.identifier, trie⟩ }

def Settings.survey (settings : Settings) (text : Text) : Except Failure Survey :=
  match Pattern.ofIdentifier? settings.identifier with
  | none => .error .patternTooLarge
  | some pattern => .ok (Survey.ofText pattern text)

def Report.ofText (settings : Settings) (text : Text) : Except Failure Report := do
  let s ← settings.survey text
  match s.report? settings.output with
  | none => .error (.noMatches s.pattern)
  | some report => .ok report

end CallChains
