import CallChains.Chain.Grammar
import CallChains.Chain.Split
import CallChains.FirstSeen
import CallChains.RawMatch

/-!
# Surveys

A survey is everything that is seen in a text on the way to its report, stage by
stage: the raw matches, and for each distinct one the chain it holds and the
split of that chain.
-/

namespace CallChains

structure Stage where
  raw : Text
  chain : Chain
  split : Split
deriving DecidableEq, Repr

def Stage.ofRaw (identifier : Token) (raw : Text) : Stage :=
  let chain := Chain.read identifier raw
  ⟨raw, chain, chain.split identifier⟩

structure Survey where
  pattern : Pattern
  found : List RawMatch
  stages : List Stage

namespace Survey

def distinctTexts (found : List RawMatch) : List Text :=
  FirstSeen.distinct (found.map RawMatch.text)

def ofText (pattern : Pattern) (text : Text) : Survey :=
  let found := pattern.findAll text
  let identifier := Token.ofIdentifier pattern.identifier
  ⟨pattern, found, (distinctTexts found).map (Stage.ofRaw identifier)⟩

def identifier (s : Survey) : Token := Token.ofIdentifier s.pattern.identifier

/-- The chains of each stage that have tokens. -/
def chainLists (s : Survey) : List (List Chain) :=
  s.stages.map fun stage => stage.split.toList.filter (!·.isEmpty)

def chains (s : Survey) : List Chain := FirstSeen.distinct s.chainLists.flatten

end Survey

end CallChains
