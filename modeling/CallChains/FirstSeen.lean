import Std.Data.HashSet

/-!
# First occurrences

A list without its repetitions: an element is kept exactly where it comes for
the first time, so the order of the kept elements is the order of the list.  The
elements met so far are held in a hash set, and `distinctFrom` hands that set on,
so that a sequence of lists can be reduced piece by piece.
-/

namespace CallChains

namespace FirstSeen

variable {α : Type} [BEq α] [Hashable α]

/-- The elements met so far, as a set, and the kept ones, the last one first. -/
structure State (α : Type) [BEq α] [Hashable α] where
  seen : Std.HashSet α
  reversed : List α

def State.meet (s : State α) (x : α) : State α :=
  if s.seen.contains x then s else ⟨s.seen.insert x, x :: s.reversed⟩

/-- The elements of `xs` outside `seen`, each at its first occurrence, and the set
with the elements of `xs` added. -/
def distinctFrom (seen : Std.HashSet α) (xs : List α) : List α × Std.HashSet α :=
  let final := xs.foldl State.meet ⟨seen, []⟩
  (final.reversed.reverse, final.seen)

def distinct (xs : List α) : List α :=
  (distinctFrom ∅ xs).1

/-- For each list, its elements that occur neither earlier in it nor in a list
before it. -/
def news (lists : List (List α)) : List (List α) :=
  let final := lists.foldl
    (fun (s : List (List α) × Std.HashSet α) xs =>
      let (fresh, seen) := distinctFrom s.2 xs
      (fresh :: s.1, seen))
    ([], ∅)
  final.1.reverse

end FirstSeen

end CallChains
