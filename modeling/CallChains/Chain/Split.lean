import CallChains.Chain

/-!
# Splitting a chain where the identifier comes in again

A statement may use the identifier inside of a call, as in
`Library.open(Library.path());`.  Every token of the identifier behind the first
token of a chain starts a chain of its own.
-/

namespace CallChains

/-- A chain that is not cut, or the parts of one that is, in order. -/
inductive Split where
  | whole (chain : Chain)
  | parts (chains : List Chain)
deriving DecidableEq, Repr

namespace Split

def toList : Split → List Chain
  | .whole chain => [chain]
  | .parts chains => chains

def length : Split → Nat
  | .whole _ => 1
  | .parts chains => chains.length

def isEmpty (s : Split) : Bool := s.length == 0

/-- A place where a chain is cut: the index of the identifier, and the chain
before the cut. -/
structure Cut where
  start : Nat
  chain : Chain
deriving DecidableEq, Repr

def cutsOf : List Chain → List Cut
  | first :: second :: rest =>
      ⟨first.length, (first :: second :: rest).flatten⟩ :: cutsOf (second :: rest)
  | _ => []

def cuts (s : Split) : List Cut := cutsOf s.toList

end Split

namespace Chain

/-- Cut the chain before every token of the identifier but a first one.  The empty
chain has nothing to cut. -/
def split (identifier : Token) (chain : Chain) : Split :=
  match chain.splitBy fun _ next => next != identifier with
  | first :: second :: rest => .parts (first :: second :: rest)
  | _ => .whole chain

end Chain

end CallChains
