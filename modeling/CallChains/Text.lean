/-!
# Texts

Everything that is read, mined or printed is a text: a list of Unicode
characters.  Keeping texts as lists lets matching, tokenizing and printing be
defined by recursion on the text itself; strings appear only where the program
meets the outside world.
-/

namespace CallChains

abbrev Text := List Char

namespace Text

def ofNat (n : Nat) : Text := Nat.toDigits 10 n

def join (separator : Text) (texts : List Text) : Text :=
  (texts.intersperse separator).flatten

def byteCount (text : Text) : Nat :=
  text.foldl (fun count c => count + c.utf8Size) 0

/-- A number that tells most texts apart, for hash tables. -/
def hash (text : Text) : UInt64 :=
  text.foldl (fun h c => mixHash h c.toNat.toUInt64) 7

instance : Hashable Text := ⟨hash⟩

end Text

end CallChains
