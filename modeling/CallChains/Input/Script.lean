import CallChains.Fault

/-!
# Scripts of an input

What an input does, seen by its reader, is a script: a list of events, one for
each time the reader asks for bytes.  The reader asks again after an interruption
and stops at the end of the input, at any other fault, and when it dies.  Data
that does not fit into the buffer of the reader arrives in several chunks.

The arrival of a script is all that comes out of it: the chunks in order, and how
they end.
-/

namespace CallChains

namespace Input

inductive Event where
  /-- Bytes; no bytes at all are the end of the input. -/
  | data (bytes : List UInt8)
  | fault (f : Fault)
  /-- The reader dies, which its listener takes for the end of the input. -/
  | death
  /-- Nothing happens ever after. -/
  | silence
deriving DecidableEq, Repr

abbrev Script := List Event

inductive Ending where
  | closed
  | failed (f : Fault)
  | silent
deriving DecidableEq, Repr

structure Arrival where
  chunks : List (List UInt8)
  ending : Ending
deriving DecidableEq, Repr

namespace Arrival

def bytes (a : Arrival) : List UInt8 := a.chunks.flatten

end Arrival

def bufferSize : Nat := 8192

/-- Bytes cut into pieces that fit into the buffer; only the last may be smaller. -/
def pieces (bytes : List UInt8) : List (List UInt8) :=
  if bytes.length <= bufferSize then [bytes]
  else bytes.take bufferSize :: pieces (bytes.drop bufferSize)
termination_by bytes.length
decreasing_by
  simp only [List.length_drop]
  unfold bufferSize at *
  omega

def Script.arrival : Script → Arrival
  | [] => ⟨[], .closed⟩
  | .data [] :: _ => ⟨[], .closed⟩
  | .data (b :: bytes) :: rest =>
      let later := Script.arrival rest
      ⟨pieces (b :: bytes) ++ later.chunks, later.ending⟩
  | .fault f :: rest =>
      if f = Fault.interrupted then Script.arrival rest else ⟨[], .failed f⟩
  | .death :: _ => ⟨[], .closed⟩
  | .silence :: _ => ⟨[], .silent⟩

end Input

end CallChains
