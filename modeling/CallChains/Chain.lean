import CallChains.Token

/-!
# Call chains

A chain is a sequence of tokens.  In a chain read from a statement the first
token is that of the identifier and the names of the others are the methods
called on it, but the operations here are those of any sequence.
-/

namespace CallChains

abbrev Chain := List Token

namespace Chain

def push (chain : Chain) (t : Token) : Chain := chain ++ [t]

def startsWith (chain : Chain) (t : Token) : Bool := chain.head? == some t

def indexFrom? (chain : Chain) (t : Token) (start : Nat) : Option Nat :=
  ((chain.drop start).idxOf? t).map (start + ·)

def splitAt? (chain : Chain) (index : Nat) : Option (Chain × Chain) :=
  if index <= chain.length then some (chain.splitAt index) else none

/-- The names of the calls, which are the tokens behind the first one. -/
def calls (chain : Chain) : List Text := chain.tail.map Token.name

def display (chain : Chain) : Text :=
  '[' :: (Text.join ", ".toList (chain.map Token.text) ++ [']'])

theorem append_of_splitAt? {chain front back : Chain} {index : Nat}
    (h : chain.splitAt? index = some (front, back)) :
    front ++ back = chain ∧ front.length = index := by
  unfold splitAt? at h
  split at h
  · next hle =>
      rw [List.splitAt_eq, Option.some.injEq, Prod.mk.injEq] at h
      rw [← h.1, ← h.2]
      exact ⟨List.take_append_drop index chain, List.length_take_of_le hle⟩
  · cases h

end Chain

end CallChains
