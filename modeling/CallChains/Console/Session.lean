import CallChains.Console.Help
import CallChains.Console.Screen
import CallChains.Run

/-!
# Sessions

A session is one use of the program: from its arguments and its environment to
the exit status and the texts on both outputs.  How the input is read and a file
is written is left to the world of the session, so that the same session runs on
a host and in a theory.
-/

namespace CallChains

namespace Console

structure Environment where
  coloured : Bool
  /-- The log level asked for, if any. -/
  logLevel : Option Text

/-- The world of a session: its input, read with a bound on the wait, and the files
it writes, each as a text under a path. -/
structure World (m : Type → Type) where
  read : Duration → m Reading
  write : Text → Text → m (Except Fault Unit)

structure Exit where
  status : Nat
  output : Text
  error : Text
deriving DecidableEq, Repr

/-- The filter of the log: everything up to debug records if the command is
verbose, else what the environment names, else warnings. -/
def logFilter (verbose : Bool) (env : Environment) : Log.Filter :=
  if verbose then some .debug
  else (env.logLevel.bind Log.Filter.ofText?).getD (some .warn)

def exitOf (coloured : Bool) (filter : Log.Filter) (run : Run) : Exit :=
  let log := ((Log.lines filter run.log).map fun text => line [text]).flatten
  match run.result with
  | .ok report =>
      ⟨0, reportScreen coloured report, log ++ warningScreen coloured report⟩
  | .error failure => ⟨1, [], log ++ failureScreen coloured failure⟩

def Command.run {m : Type → Type} [Monad m] (world : World m) (env : Environment)
    (c : Command) : m Exit :=
  match Settings.ofIdentifier c.identifier with
  | .error failure => return ⟨1, [], failureScreen env.coloured failure⟩
  | .ok settings => do
      let settings : Settings :=
        { settings with output := c.output, timeout := Duration.ofMillis c.timeoutMillis }
      let run ← Run.perform (world.read settings.timeout)
        (fun path document => world.write path document.pretty) settings
      return exitOf env.coloured (logFilter c.verbose env) run

def session {m : Type → Type} [Monad m] (world : World m) (env : Environment)
    (arguments : List Text) : m Exit :=
  match Request.ofArguments arguments with
  | .error e => return ⟨2, [], e.message⟩
  | .ok .help => return ⟨0, helpText, []⟩
  | .ok .version => return ⟨0, versionText, []⟩
  | .ok (.run c) => c.run world env

end Console

end CallChains
