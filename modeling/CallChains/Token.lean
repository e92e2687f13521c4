import CallChains.Text

/-!
# Tokens

A token is one link of a call chain as it was written: a name and the mark that
ends it, as in `Library.`, `open(` or `close;`.
-/

namespace CallChains

structure Token where
  text : Text
deriving DecidableEq, Hashable, Repr

namespace Token

def marks : List Char := ['.', '(', ')', ';']

def ofIdentifier (identifier : Text) : Token := ⟨identifier ++ ['.']⟩

/-- The text without all the marks at its end. -/
def name (t : Token) : Text :=
  (t.text.reverse.dropWhile marks.contains).reverse

def mark? (t : Token) : Option Char :=
  t.text.getLast?.filter marks.contains

def withMark (t : Token) (c : Char) : Token := ⟨t.name ++ [c]⟩

@[simp] theorem text_ofIdentifier (identifier : Text) :
    (ofIdentifier identifier).text = identifier ++ ['.'] := rfl

theorem ofIdentifier_injective {identifier other : Text}
    (h : ofIdentifier identifier = ofIdentifier other) : identifier = other :=
  List.append_cancel_right (congrArg text h)

@[simp] theorem mark?_ofIdentifier (identifier : Text) :
    (ofIdentifier identifier).mark? = some '.' := by
  simp [mark?, marks]

theorem name_of_mark?_eq_none {t : Token} (h : t.mark? = none) : t.name = t.text := by
  cases hlast : t.text.getLast? with
  | none =>
      rw [List.getLast?_eq_none_iff] at hlast
      simp [name, hlast]
  | some c =>
      rcases List.getLast?_eq_some_iff.mp hlast with ⟨front, hfront⟩
      have hc : marks.contains c = false := by
        simpa [mark?, hlast] using h
      simp only [name, hfront, List.reverse_append, List.reverse_singleton,
        List.singleton_append, List.dropWhile_cons, hc]
      simp

end Token

end CallChains
