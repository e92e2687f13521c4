import CallChains.Settings

/-!
# Command lines

The arguments of the program are read from left to right.  An option that takes a
value finds it behind an equals sign, behind its letter, or in the next argument;
letters without values may share a dash.  Behind a lone `--` every argument stands
for itself.  A request for help or for the version is answered as soon as it is
reached, so a mistake counts only if it comes before such a request.
-/

namespace CallChains

namespace Console

structure Command where
  identifier : Text
  output : Text
  timeoutMillis : UInt64
  verbose : Bool
deriving DecidableEq, Repr

inductive Request where
  | run (c : Command)
  | help
  | version
deriving DecidableEq, Repr

inductive UsageError where
  | unknownOption (text : Text)
  | missingValue (option : Text)
  | needlessValue (option : Text)
  | invalidValue (option value : Text)
  | repeatedOption (option : Text)
  | unexpectedArgument (text : Text)
  | missingIdentifier
deriving DecidableEq, Repr

inductive ValueOption where
  | output
  | timeout
deriving DecidableEq, Repr

namespace ValueOption

def name : ValueOption → Text
  | .output => "--output <OUTPUT>".toList
  | .timeout => "--timeout-ms <TIMEOUT_MS>".toList

end ValueOption

/-- The number of milliseconds that a text shows: decimal digits, behind a plus sign
or not, of a value that 64 bits hold. -/
def millis? (text : Text) : Option UInt64 :=
  let digits := if text.head? = some '+' then text.tail else text
  if digits.isEmpty || !digits.all Char.isDigit then none
  else
    let value := digits.foldl (fun n c => n * 10 + (c.toNat - '0'.toNat)) 0
    if value < UInt64.size then some (UInt64.ofNat value) else none

/-!
## What has been read so far
-/

structure Draft where
  identifier : Option Text
  output : Option Text
  timeoutMillis : Option UInt64
  verbose : Bool
deriving DecidableEq, Repr

namespace Draft

def empty : Draft := ⟨none, none, none, false⟩

def takeArgument (d : Draft) (text : Text) : Except UsageError Draft :=
  match d.identifier with
  | none => .ok { d with identifier := some text }
  | some _ => .error (.unexpectedArgument text)

def takeValue (d : Draft) (o : ValueOption) (value : Text) : Except UsageError Draft :=
  match o with
  | .output =>
      if d.output.isSome then .error (.repeatedOption o.name)
      else if value.isEmpty then .error (.invalidValue o.name value)
      else .ok { d with output := some value }
  | .timeout =>
      if d.timeoutMillis.isSome then .error (.repeatedOption o.name)
      else
        match millis? value with
        | none => .error (.invalidValue o.name value)
        | some millis => .ok { d with timeoutMillis := some millis }

def takeVerbose (d : Draft) : Except UsageError Draft :=
  if d.verbose then .error (.repeatedOption "--verbose".toList)
  else .ok { d with verbose := true }

def finish (d : Draft) : Except UsageError Request :=
  match d.identifier with
  | none => .error .missingIdentifier
  | some identifier =>
      .ok (.run {
        identifier
        output := d.output.getD Settings.defaultOutput
        timeoutMillis := d.timeoutMillis.getD Settings.defaultTimeoutMillis
        verbose := d.verbose })

end Draft

/-!
## Reading the arguments
-/

/-- What follows from one argument: go on, go on with the value of an option, or
answer at once. -/
inductive Effect where
  | proceed (d : Draft)
  | expect (d : Draft) (o : ValueOption)
  | answer (r : Request)
deriving DecidableEq, Repr

def takeLetters (d : Draft) : Text → Except UsageError Effect
  | [] => .ok (.proceed d)
  | 'v' :: rest => do takeLetters (← d.takeVerbose) rest
  | 'h' :: _ => .ok (.answer .help)
  | 'V' :: _ => .ok (.answer .version)
  | ['o'] => .ok (.expect d .output)
  | 'o' :: '=' :: value => do return .proceed (← d.takeValue .output value)
  | 'o' :: value => do return .proceed (← d.takeValue .output value)
  | c :: _ => .error (.unknownOption ['-', c])

def takeWord (d : Draft) (word : Text) (value : Option Text) : Except UsageError Effect :=
  let valued (o : ValueOption) : Except UsageError Effect :=
    match value with
    | none => .ok (.expect d o)
    | some v => do return .proceed (← d.takeValue o v)
  let plain (effect : Except UsageError Effect) : Except UsageError Effect :=
    match value with
    | none => effect
    | some _ => .error (.needlessValue ("--".toList ++ word))
  if word = "output".toList then valued .output
  else if word = "timeout-ms".toList then valued .timeout
  else if word = "verbose".toList then plain (do return .proceed (← d.takeVerbose))
  else if word = "help".toList then plain (.ok (.answer .help))
  else if word = "version".toList then plain (.ok (.answer .version))
  else .error (.unknownOption ("--".toList ++ word))

/-- Whether an argument is an option and not a value; a lone dash is a value. -/
def isOption (argument : Text) : Bool :=
  argument.head? == some '-' && argument != ['-']

def takeAny (d : Draft) (argument : Text) : Except UsageError Effect :=
  match argument with
  | '-' :: '-' :: option =>
      let word := option.takeWhile (· != '=')
      takeWord d word (option.dropWhile (· != '=')).tail?
  | '-' :: c :: letters => takeLetters d (c :: letters)
  | text => do return .proceed (← d.takeArgument text)

def readFrom (d : Draft) : List Text → Except UsageError Request
  | [] => d.finish
  | argument :: rest =>
      if argument = ['-', '-'] then do (← rest.foldlM Draft.takeArgument d).finish
      else
        match takeAny d argument with
        | .error e => .error e
        | .ok (.answer request) => .ok request
        | .ok (.proceed next) => readFrom next rest
        | .ok (.expect next o) =>
            match rest with
            | [] => .error (.missingValue o.name)
            | value :: rest =>
                if isOption value then .error (.missingValue o.name)
                else
                  match next.takeValue o value with
                  | .error e => .error e
                  | .ok filled => readFrom filled rest

def Request.ofArguments (arguments : List Text) : Except UsageError Request :=
  readFrom Draft.empty arguments

end Console

end CallChains
