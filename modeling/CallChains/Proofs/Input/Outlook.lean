import CallChains.Input.Stream

/-!
# What a script comes to

The outlook of a script is all that its listener can make out in the end: the bytes in
front of the first event at which the reader stops, and how that event ends them.  It
does not depend on how the bytes are divided among events and chunks.

Main statements: the arrival of a script has the bytes and the ending of its outlook,
and a read that returns gives the outcome of the outlook, or has waited in vain for the
first byte.
-/

namespace CallChains

namespace Input

namespace Event

def stops : Event -> Bool
  | .data bytes => bytes.isEmpty
  | .fault f => f != Fault.interrupted
  | .death => true
  | .silence => true

def bytes : Event -> List UInt8
  | .data bytes => bytes
  | _ => []

def ending : Event -> Ending
  | .fault f => .failed f
  | .silence => .silent
  | _ => .closed

end Event

/-- Bytes that come, and how they end. -/
structure Outlook where
  bytes : List UInt8
  ending : Ending
deriving DecidableEq, Repr

namespace Outlook

def nothing : Outlook := ⟨[], .closed⟩

def after (bytes : List UInt8) (o : Outlook) : Outlook := ⟨bytes ++ o.bytes, o.ending⟩

/-- What a read comes to, if not to a wait without end: a fault counts even behind data. -/
def outcome? (timeout : Duration) (o : Outlook) : Option (Except Failure Text) :=
  match o.ending with
  | .failed f => some (.error (.unreadable f))
  | .closed =>
      if o.bytes = [] then some (.error (.noInput timeout.reportedMillis))
      else some (.ok (Utf8.decode o.bytes))
  | .silent => none

@[simp] theorem after_nil (o : Outlook) : after [] o = o := rfl

@[simp] theorem after_after (bytes later : List UInt8) (o : Outlook) :
    after bytes (after later o) = after (bytes ++ later) o := by
  simp [after]

theorem outcome?_closed (timeout : Duration) (bytes : List UInt8) :
    outcome? timeout ⟨bytes, .closed⟩ = some (textOf timeout bytes) := by
  cases bytes with
  | nil => rfl
  | cons b bytes => simp [outcome?, textOf]

theorem ending_ne_silent_of_outcome? {timeout : Duration} {o : Outlook}
    {result : Except Failure Text} (h : o.outcome? timeout = some result) :
    o.ending ≠ .silent := by
  intro hsilent
  rw [outcome?, hsilent] at h
  cases h

theorem outcome?_nothing (timeout : Duration) (bytes : List UInt8) :
    (nothing.after bytes).outcome? timeout = some (textOf timeout bytes) := by
  rw [after, nothing, List.append_nil, outcome?_closed]

end Outlook

namespace Script

/-- The bytes of all events before the first one at which the reader stops. -/
def data (script : Script) : List UInt8 :=
  (script.takeWhile (!·.stops)).flatMap Event.bytes

def ending (script : Script) : Ending :=
  match script.find? Event.stops with
  | none => .closed
  | some event => event.ending

def outlook (script : Script) : Outlook := ⟨script.data, script.ending⟩

/-!
## The outlook event by event
-/

section Events

variable {event : Event} {script : Script}

theorem outlook_of_stops (h : event.stops = true) :
    outlook (event :: script) = ⟨[], event.ending⟩ := by
  simp [outlook, data, ending, h]

theorem outlook_of_goes_on (h : event.stops = false) :
    outlook (event :: script) = (outlook script).after event.bytes := by
  simp [outlook, data, ending, h, Outlook.after]

theorem outlook_data {bytes : List UInt8} (h : bytes ≠ []) :
    outlook (.data bytes :: script) = (outlook script).after bytes :=
  outlook_of_goes_on (by simpa [Event.stops] using h)

@[simp] theorem outlook_empty : outlook (.data [] :: script) = Outlook.nothing :=
  outlook_of_stops rfl

@[simp] theorem outlook_death : outlook (.death :: script) = Outlook.nothing :=
  outlook_of_stops rfl

@[simp] theorem outlook_silence : outlook (.silence :: script) = ⟨[], .silent⟩ :=
  outlook_of_stops rfl

@[simp] theorem outlook_interrupted :
    outlook (.fault Fault.interrupted :: script) = outlook script :=
  outlook_of_goes_on rfl

theorem outlook_failed {f : Fault} (h : f ≠ Fault.interrupted) :
    outlook (.fault f :: script) = ⟨[], .failed f⟩ :=
  outlook_of_stops (by simpa [Event.stops] using h)

end Events

end Script

/-!
## The arrival of a script
-/

theorem flatten_pieces (bytes : List UInt8) : (pieces bytes).flatten = bytes := by
  unfold pieces
  split
  · exact List.flatten_singleton
  · rw [List.flatten_cons, flatten_pieces, List.take_append_drop]
termination_by bytes.length
decreasing_by
  simp only [List.length_drop]
  unfold bufferSize at *
  omega

def Arrival.outlook (a : Arrival) : Outlook := ⟨a.bytes, a.ending⟩

theorem Script.outlook_arrival (script : Script) :
    (Script.arrival script).outlook = script.outlook := by
  induction script with
  | nil => rfl
  | cons event script ih =>
      cases event with
      | data bytes =>
          cases bytes with
          | nil => exact outlook_empty.symm
          | cons b bytes =>
              rw [outlook_data (List.cons_ne_nil b bytes), ← ih, arrival, Arrival.outlook,
                Arrival.bytes, List.flatten_append, flatten_pieces]
              rfl
      | fault f =>
          rw [arrival]
          split
          · next hf => rw [ih, hf, outlook_interrupted]
          · next hf => exact (outlook_failed hf).symm
      | death => exact outlook_death.symm
      | silence => exact outlook_silence.symm

/-!
## Reading a stream
-/

theorem Arrival.receive_eq (timeout : Duration) (a : Arrival) :
    a.receive timeout =
      match a.outlook.outcome? timeout with
      | some result => .ok ⟨a.chunks.map List.length, result⟩
      | none =>
          if a.bytes = [] then
            .ok ⟨a.chunks.map List.length, .error (.noInput timeout.reportedMillis)⟩
          else .error .endlessWait := by
  unfold receive
  cases hending : a.ending with
  | closed =>
      rw [outlook, hending, Outlook.outcome?_closed]
  | failed f =>
      rw [outlook, hending]
      rfl
  | silent =>
      rw [outlook, hending]
      simp [Outlook.outcome?]

theorem Stream.read_ofScript (now : Instant) (script : Script) (timeout : Duration) :
    read now (ofScript script timeout) =
      match now.after? timeout with
      | none => .error .deadlineOutOfRange
      | some _ =>
          (script.arrival.receive timeout).map fun reading => (reading, ⟨none, timeout⟩) := by
  simp only [read, ofScript]
  cases script.arrival.receive timeout with
  | error halt => rfl
  | ok reading => rfl

theorem Stream.exists_read_of_outcome? {timeout : Duration} {now deadline : Instant}
    {script : Script} {result : Except Failure Text}
    (hdeadline : now.after? timeout = some deadline)
    (houtcome : script.outlook.outcome? timeout = some result) :
    exists (reading : Reading) (next : Stream),
      read now (ofScript script timeout) = .ok (reading, next) ∧ reading.result = result := by
  refine ⟨⟨script.arrival.chunks.map List.length, result⟩, ⟨none, timeout⟩, ?_, rfl⟩
  rw [read_ofScript, hdeadline, Arrival.receive_eq, Script.outlook_arrival, houtcome]
  rfl

theorem Stream.result_of_read {timeout : Duration} {now : Instant} {script : Script}
    {reading : Reading} {next : Stream}
    (h : read now (ofScript script timeout) = .ok (reading, next)) :
    script.outlook.outcome? timeout = some reading.result ∨
      (script.outlook.outcome? timeout = none ∧
        reading.result = .error (.noInput timeout.reportedMillis)) := by
  rw [read_ofScript] at h
  split at h
  · cases h
  · rw [Arrival.receive_eq, Script.outlook_arrival] at h
    split at h
    · next houtcome =>
        cases h
        exact Or.inl houtcome
    · next houtcome =>
        split at h
        · cases h
          exact Or.inr ⟨houtcome, rfl⟩
        · cases h

end Input

end CallChains
