import CallChains.Clock
import CallChains.Failure
import CallChains.Input.Script
import CallChains.Text.Utf8

/-!
# Streams

A stream is an input that can be read once, with a bound on the wait for its
first bytes.  As long as nothing has arrived the deadline counts; once there are
bytes the read lasts until the input ends.  The bytes are then decoded as a
whole, so a character may be cut anywhere by the chunks.

A read need not return: it waits for ever if the input falls silent behind some
bytes, and it cannot start if the clock cannot show its deadline.
-/

namespace CallChains

structure Reading where
  chunkSizes : List Nat
  result : Except Failure Text

namespace Input

inductive Halt where
  | endlessWait
  | deadlineOutOfRange
deriving DecidableEq, Repr

def textOf (timeout : Duration) (bytes : List UInt8) : Except Failure Text :=
  if bytes.isEmpty then .error (.noInput timeout.reportedMillis)
  else .ok (Utf8.decode bytes)

/-- Receive an arrival, waiting at most the timeout for its first chunk. -/
def Arrival.receive (timeout : Duration) (a : Arrival) : Except Halt Reading :=
  let sizes := a.chunks.map List.length
  match a.ending with
  | .closed => .ok ⟨sizes, textOf timeout a.bytes⟩
  | .failed f => .ok ⟨sizes, .error (.unreadable f)⟩
  | .silent =>
      if a.bytes.isEmpty then .ok ⟨sizes, .error (.noInput timeout.reportedMillis)⟩
      else .error .endlessWait

/-- A stream whose script is gone once it has been read. -/
structure Stream where
  script : Option Script
  timeout : Duration

namespace Stream

def ofScript (script : Script) (timeout : Duration) : Stream := ⟨some script, timeout⟩

def read (now : Instant) (s : Stream) : Except Halt (Reading × Stream) :=
  match s.script with
  | none => .ok (⟨[], .error (.noInput s.timeout.reportedMillis)⟩, s)
  | some script =>
      match now.after? s.timeout with
      | none => .error .deadlineOutOfRange
      | some _ => do
          let reading ← script.arrival.receive s.timeout
          return (reading, { s with script := none })

end Stream

end Input

end CallChains
