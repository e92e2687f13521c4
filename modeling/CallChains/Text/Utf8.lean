import CallChains.Text

/-!
# Reading UTF-8 with replacement

Bytes become characters from left to right.  A lead byte announces how many
continuation bytes follow and in which range the first of them lies; all later
ones lie in `80`–`BF`.  Where the bytes stop following this table, what has been
read of the broken character becomes one `U+FFFD`, and reading goes on with the
byte that did not fit, so no byte that begins a character is ever lost.

The reader is a fold of `Decoder.step` over the bytes: it takes the bytes in any
pieces, and its state is the character in the making together with the
characters finished so far.
-/

namespace CallChains

namespace Utf8

def replacement : Char := Char.ofNat 0xFFFD

/-- A character whose lead byte has been read: its value so far, how many bytes
are missing, and the range in which the next byte must lie. -/
structure Unfinished where
  value : Nat
  missing : Nat
  low : UInt8
  high : UInt8
deriving DecidableEq, Repr

inductive Lead where
  | whole (c : Char)
  | first (u : Unfinished)
  | stray
deriving DecidableEq, Repr

/-- The table of lead bytes.  `C0`, `C1` and `F5`–`FF` begin no character; the
narrowed ranges after `E0`, `ED`, `F0` and `F4` leave out overlong forms,
surrogates and values above `U+10FFFF`. -/
def Lead.ofByte (b : UInt8) : Lead :=
  if b < 0x80 then .whole (Char.ofNat b.toNat)
  else if b < 0xC2 then .stray
  else if b < 0xE0 then .first ⟨b.toNat - 0xC0, 1, 0x80, 0xBF⟩
  else if b = 0xE0 then .first ⟨0, 2, 0xA0, 0xBF⟩
  else if b = 0xED then .first ⟨13, 2, 0x80, 0x9F⟩
  else if b < 0xF0 then .first ⟨b.toNat - 0xE0, 2, 0x80, 0xBF⟩
  else if b = 0xF0 then .first ⟨0, 3, 0x90, 0xBF⟩
  else if b < 0xF4 then .first ⟨b.toNat - 0xF0, 3, 0x80, 0xBF⟩
  else if b = 0xF4 then .first ⟨4, 3, 0x80, 0x8F⟩
  else .stray

def Unfinished.accepts (u : Unfinished) (b : UInt8) : Bool :=
  u.low <= b && b <= u.high

def Unfinished.extended (u : Unfinished) (b : UInt8) : Nat :=
  u.value * 64 + b.toNat % 64

/-- The state of the reader; `reversed` holds the finished characters, the last
one first. -/
structure Decoder where
  unfinished : Option Unfinished
  reversed : Text

namespace Decoder

def initial : Decoder := ⟨none, []⟩

def begin (reversed : Text) (b : UInt8) : Decoder :=
  match Lead.ofByte b with
  | .whole c => ⟨none, c :: reversed⟩
  | .first u => ⟨some u, reversed⟩
  | .stray => ⟨none, replacement :: reversed⟩

def step (d : Decoder) (b : UInt8) : Decoder :=
  match d.unfinished with
  | none => begin d.reversed b
  | some u =>
      if u.accepts b then
        if u.missing = 1 then
          ⟨none, Char.ofNat (u.extended b) :: d.reversed⟩
        else
          ⟨some ⟨u.extended b, u.missing - 1, 0x80, 0xBF⟩, d.reversed⟩
      else
        begin (replacement :: d.reversed) b

def finish (d : Decoder) : Text :=
  match d.unfinished with
  | none => d.reversed.reverse
  | some _ => (replacement :: d.reversed).reverse

end Decoder

/-- The text of a byte sequence, with one `U+FFFD` for every longest piece that
begins no character or breaks off. -/
def decode (bytes : List UInt8) : Text :=
  (bytes.foldl Decoder.step Decoder.initial).finish

def encode (text : Text) : List UInt8 :=
  text.flatMap String.utf8EncodeChar

end Utf8

end CallChains
