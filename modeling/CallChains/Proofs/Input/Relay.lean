import CallChains.Proofs.Input.Outlook
import Mathlib.Logic.Relation

/-!
# The relay of an input

A reader asks for bytes and sends what it gets through a queue to a listener.  Both go
on independently of each other, in any order; the listener counts the time only as long
as it has no bytes and none are in the queue.

The invariant that carries everything is the outlook of a relay: the bytes that the
listener has, those in the queue and those still to be read, one after another, and how
they end.  No step changes it as long as the listener waits, so the listener can only
return the outcome that the script had from the start.
-/

namespace CallChains

namespace Input

inductive Message where
  | chunk (bytes : List UInt8)
  | closed
  | failed (f : Fault)
deriving DecidableEq, Repr

/-- The reader is about to ask for bytes, about to send, or gone with its end of the
queue. -/
inductive Reader where
  | asking (script : Script)
  | sending (message : Message) (script : Script)
  | gone
deriving DecidableEq, Repr

inductive Verdict where
  | timedOut
  | returned (result : Except Failure Text)

def Verdict.result (timeout : Duration) : Verdict -> Except Failure Text
  | .timedOut => .error (.noInput timeout.reportedMillis)
  | .returned result => result

/-- The reader, the messages in flight, the bytes that the listener has received, and
its verdict once there is one. -/
structure Relay where
  reader : Reader
  queue : List Message
  buffer : List UInt8
  verdict : Option Verdict

def Script.putBack (left : List UInt8) (script : Script) : Script :=
  if left = [] then script else .data left :: script

def Reader.behind (script : Script) : Message -> Reader
  | .chunk _ => .asking script
  | _ => .gone

/-- What the reader gets to send when it asks, and the script behind it.  Data may come in
pieces of any size that fits into the buffer. -/
inductive Script.Answers : Script -> Message -> Script -> Prop where
  | data {piece left : List UInt8} {script : Script} (hne : piece ≠ [])
      (hfits : piece.length <= bufferSize) :
      Answers (.data (piece ++ left) :: script) (.chunk piece) (script.putBack left)
  | empty {script : Script} : Answers (.data [] :: script) .closed script
  | finish : Answers [] .closed []
  | fault {f : Fault} {script : Script} (hf : f ≠ Fault.interrupted) :
      Answers (.fault f :: script) (.failed f) script

namespace Relay

def start (script : Script) : Relay := ⟨.asking script, [], [], none⟩

inductive Step (timeout : Duration) : Relay -> Relay -> Prop where
  | ask {script rest : Script} {message : Message} {queue : List Message}
      {buffer : List UInt8} {verdict : Option Verdict}
      (hanswers : script.Answers message rest) :
      Step timeout ⟨.asking script, queue, buffer, verdict⟩
        ⟨.sending message rest, queue, buffer, verdict⟩
  | retry {script : Script} {queue : List Message} {buffer : List UInt8}
      {verdict : Option Verdict} :
      Step timeout ⟨.asking (.fault Fault.interrupted :: script), queue, buffer, verdict⟩
        ⟨.asking script, queue, buffer, verdict⟩
  | die {script : Script} {queue : List Message} {buffer : List UInt8}
      {verdict : Option Verdict} :
      Step timeout ⟨.asking (.death :: script), queue, buffer, verdict⟩
        ⟨.gone, queue, buffer, verdict⟩
  | send {message : Message} {script : Script} {queue : List Message}
      {buffer : List UInt8} :
      Step timeout ⟨.sending message script, queue, buffer, none⟩
        ⟨.behind script message, queue ++ [message], buffer, none⟩
  /-- Nobody listens any more. -/
  | hangUp {message : Message} {script : Script} {queue : List Message}
      {buffer : List UInt8} {verdict : Verdict} :
      Step timeout ⟨.sending message script, queue, buffer, some verdict⟩
        ⟨.gone, queue, buffer, some verdict⟩
  | chunk {reader : Reader} {bytes buffer : List UInt8} {queue : List Message} :
      Step timeout ⟨reader, .chunk bytes :: queue, buffer, none⟩
        ⟨reader, queue, buffer ++ bytes, none⟩
  | closed {reader : Reader} {buffer : List UInt8} {queue : List Message} :
      Step timeout ⟨reader, .closed :: queue, buffer, none⟩
        ⟨reader, queue, buffer, some (.returned (textOf timeout buffer))⟩
  | failed {reader : Reader} {f : Fault} {buffer : List UInt8} {queue : List Message} :
      Step timeout ⟨reader, .failed f :: queue, buffer, none⟩
        ⟨reader, queue, buffer, some (.returned (.error (.unreadable f)))⟩
  | disconnected {buffer : List UInt8} :
      Step timeout ⟨.gone, [], buffer, none⟩
        ⟨.gone, [], buffer, some (.returned (textOf timeout buffer))⟩
  | timeOut {reader : Reader} :
      Step timeout ⟨reader, [], [], none⟩ ⟨reader, [], [], some .timedOut⟩

def Run (timeout : Duration) : Relay -> Relay -> Prop :=
  Relation.ReflTransGen (Step timeout)

end Relay

/-!
## The outlook of a relay
-/

def Message.before : Message -> Outlook -> Outlook
  | .chunk bytes, o => o.after bytes
  | .closed, _ => Outlook.nothing
  | .failed f, _ => ⟨[], .failed f⟩

def Reader.outlook : Reader -> Outlook
  | .asking script => script.outlook
  | .sending message script => message.before script.outlook
  | .gone => Outlook.nothing

theorem Reader.before_outlook_behind (message : Message) (script : Script) :
    message.before (Reader.behind script message).outlook =
      message.before script.outlook := by
  cases message <;> rfl

theorem Script.outlook_putBack (left : List UInt8) (script : Script) :
    (script.putBack left).outlook = script.outlook.after left := by
  unfold putBack
  split
  · next hleft => rw [hleft, Outlook.after_nil]
  · next hleft => rw [outlook_data hleft]

theorem Script.outlook_of_answers {script rest : Script} {message : Message}
    (h : script.Answers message rest) : message.before rest.outlook = script.outlook := by
  cases h with
  | data hne _ =>
      rw [outlook_putBack, outlook_data (List.append_ne_nil_of_left_ne_nil hne _),
        Message.before, Outlook.after_after]
  | empty => exact outlook_empty.symm
  | finish => rfl
  | fault hf => exact (outlook_failed hf).symm

namespace Relay

def coming (r : Relay) : Outlook := r.queue.foldr Message.before r.reader.outlook

def outlook (r : Relay) : Outlook := r.coming.after r.buffer

/-- What holds of a relay at any time, where `o` is the outlook it began with.  While the
listener waits nothing has been lost, repeated or reordered. -/
structure Sound (timeout : Duration) (o : Outlook) (r : Relay) : Prop where
  waiting : r.verdict = none -> r.outlook = o
  timedOut : r.verdict = some .timedOut -> r.buffer = []
  returned : forall result, r.verdict = some (.returned result) ->
    o.outcome? timeout = some result

section Steps

variable {timeout : Duration} {o : Outlook}

theorem sound_start (script : Script) : Sound timeout script.outlook (start script) := by
  constructor
  · intro _
    rfl
  · intro h
    cases h
  · intro result h
    cases h

theorem sound_of_outlook_eq {reader other : Reader} {queue : List Message}
    {buffer : List UInt8} {verdict : Option Verdict}
    (h : Sound timeout o ⟨reader, queue, buffer, verdict⟩)
    (hsame : other.outlook = reader.outlook) :
    Sound timeout o ⟨other, queue, buffer, verdict⟩ := by
  constructor
  · intro hwaiting
    rw [← h.waiting hwaiting, outlook, outlook, coming, coming, hsame]
  · exact h.timedOut
  · exact h.returned

theorem sound_of_waiting {r next : Relay} (hr : r.verdict = none)
    (hnext : next.verdict = none) (hsame : next.outlook = r.outlook)
    (h : Sound timeout o r) : Sound timeout o next := by
  constructor
  · intro _
    rw [hsame, h.waiting hr]
  · intro htimedOut
    rw [hnext] at htimedOut
    cases htimedOut
  · intro result hreturned
    rw [hnext] at hreturned
    cases hreturned

theorem sound_of_returned {r next : Relay} {result : Except Failure Text}
    (hr : r.verdict = none) (hnext : next.verdict = some (.returned result))
    (houtcome : r.outlook.outcome? timeout = some result)
    (h : Sound timeout o r) : Sound timeout o next := by
  constructor
  · intro hwaiting
    rw [hnext] at hwaiting
    cases hwaiting
  · intro htimedOut
    rw [hnext] at htimedOut
    cases htimedOut
  · intro other hother
    rw [hnext] at hother
    cases hother
    rw [← h.waiting hr]
    exact houtcome

theorem sound_step {r next : Relay} (hstep : Step timeout r next) (h : Sound timeout o r) :
    Sound timeout o next := by
  cases hstep with
  | ask hanswers => exact sound_of_outlook_eq h (Script.outlook_of_answers hanswers)
  | retry => exact sound_of_outlook_eq h Script.outlook_interrupted.symm
  | die => exact sound_of_outlook_eq h Script.outlook_death.symm
  | send =>
      -- The message moves from the reader to the end of the queue, which is next to it.
      apply sound_of_waiting rfl rfl ?_ h
      simp only [outlook, coming, List.foldr_append, List.foldr_cons, List.foldr_nil,
        Reader.before_outlook_behind]
      rfl
  | hangUp =>
      constructor
      · intro hwaiting
        cases hwaiting
      · exact h.timedOut
      · exact h.returned
  | chunk =>
      apply sound_of_waiting rfl rfl ?_ h
      simp only [outlook, coming, List.foldr_cons, Message.before, Outlook.after_after]
  | closed =>
      -- Nothing counts behind the message, so the bytes are all that there are.
      apply sound_of_returned rfl rfl ?_ h
      simp only [outlook, coming, List.foldr_cons, Message.before, Outlook.outcome?_nothing]
  | failed =>
      apply sound_of_returned rfl rfl ?_ h
      rfl
  | disconnected =>
      apply sound_of_returned rfl rfl ?_ h
      exact Outlook.outcome?_nothing timeout _
  | timeOut =>
      constructor
      · intro hwaiting
        cases hwaiting
      · intro _
        rfl
      · intro result hreturned
        cases hreturned

theorem sound_run {r final : Relay} (hrun : Run timeout r final) (h : Sound timeout o r) :
    Sound timeout o final := by
  induction hrun with
  | refl => exact h
  | tail _ hstep ih => exact sound_step hstep ih

theorem sound_of_run {script : Script} {final : Relay}
    (hrun : Run timeout (start script) final) : Sound timeout script.outlook final :=
  sound_run hrun (sound_start script)

end Steps

end Relay

end Input

end CallChains
