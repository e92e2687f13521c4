import CallChains.Console.Session

/-!
# The program

The world of a session on a host: the standard input, read in another thread so
that the wait for its first bytes can end, and the file system.
-/

namespace CallChains

namespace Console

namespace Host

def faultOf : IO.Error → Fault
  | .alreadyExists _ code _ => .system code.toNat
  | .otherError code _ => .system code.toNat
  | .resourceBusy code _ => .system code.toNat
  | .resourceVanished code _ => .system code.toNat
  | .unsupportedOperation code _ => .system code.toNat
  | .hardwareFault code _ => .system code.toNat
  | .unsatisfiedConstraints code _ => .system code.toNat
  | .illegalOperation code _ => .system code.toNat
  | .protocolError code _ => .system code.toNat
  | .timeExpired code _ => .system code.toNat
  | .interrupted _ code _ => .system code.toNat
  | .noFileOrDirectory _ code _ => .system code.toNat
  | .invalidArgument _ code _ => .system code.toNat
  | .permissionDenied _ code _ => .system code.toNat
  | .resourceExhausted _ code _ => .system code.toNat
  | .inappropriateType _ code _ => .system code.toNat
  | .noSuchThing _ code _ => .system code.toNat
  | .unexpectedEof => .other "end of file".toList
  | .userError reason => .other reason.toList

partial def readChunks (input : IO.FS.Stream) (chunks : Array ByteArray) :
    IO (Array ByteArray) := do
  let chunk ← input.read Input.bufferSize.toUSize
  if chunk.isEmpty then return chunks
  readChunks input (chunks.push chunk)

/-- Read the first chunk.  One byte is enough to end the wait, so it is waited for
alone. -/
def readFirst (input : IO.FS.Stream) (arrived : IO.Ref Bool) : IO (Array ByteArray) := do
  let first ← input.read 1
  if first.isEmpty then return #[]
  arrived.set true
  let rest ← input.read (Input.bufferSize - 1).toUSize
  readChunks input #[first ++ rest]

/-- Wait for the end of a task; without limit once something has arrived, and else
up to the deadline. -/
partial def await {α : Type} (task : Task α) (arrived : IO.Ref Bool) (deadline : Nat) :
    IO (Option α) := do
  if ← IO.hasFinished task then return some (← IO.wait task)
  if ← arrived.get then return some (← IO.wait task)
  if deadline <= (← IO.monoNanosNow) then return none
  IO.sleep 1
  await task arrived deadline

def readInput (timeout : Duration) : IO Reading := do
  let start ← IO.monoNanosNow
  let deadline := start + timeout.seconds.toNat * nanosPerSecond + timeout.nanos
  let arrived ← IO.mkRef false
  let task ← IO.asTask (readFirst (← IO.getStdin) arrived) Task.Priority.dedicated
  return match ← await task arrived deadline with
    | none => ⟨[], .error (.noInput timeout.reportedMillis)⟩
    | some (.error e) => ⟨[], .error (.unreadable (faultOf e))⟩
    | some (.ok chunks) =>
        ⟨chunks.toList.map ByteArray.size,
          Input.textOf timeout (chunks.toList.flatMap ByteArray.toList)⟩

def writeFile (path content : Text) : IO (Except Fault Unit) := do
  if path.contains '\x00' then return .error .nulInPath
  try
    IO.FS.writeFile (String.ofList path) (String.ofList content)
    return .ok ()
  catch e => return .error (faultOf e)

def world : World IO := ⟨readInput, writeFile⟩

def environment : IO Environment := do
  let setting (name : String) : IO (Option Text) :=
    return (← IO.getEnv name).map String.toList
  return {
    coloured := Colour.isEnabled (← setting "CLICOLOR_FORCE") (← setting "NO_COLOR")
      (← setting "CLICOLOR") (← (← IO.getStdout).isTty)
    logLevel := ← setting "RUST_LOG" }

end Host

end Console

end CallChains

/-- The texts of the session are out before the program ends; if the wait for the
input was given up, the end comes when the thread that reads it comes to an end. -/
def main (arguments : List String) : IO UInt32 := do
  let exit ← CallChains.Console.session CallChains.Console.Host.world
    (← CallChains.Console.Host.environment) (arguments.map String.toList)
  let output ← IO.getStdout
  output.putStr (String.ofList exit.output)
  output.flush
  let error ← IO.getStderr
  error.putStr (String.ofList exit.error)
  error.flush
  return exit.status.toUInt32
