import CallChains.Chain
import CallChains.Fault
import CallChains.Pattern
import CallChains.Text.Quoted

/-!
# The log

Each thing worth a line in the log is a record.  A record has a level, and a
filter shows the records up to a level.  The line of a record is its level, its
message, and its fields.
-/

namespace CallChains

namespace Log

inductive Level where
  | error
  | warn
  | info
  | debug
  | trace
deriving DecidableEq, Repr

namespace Level

def all : List Level := [.error, .warn, .info, .debug, .trace]

def rank : Level → Nat
  | .error => 1
  | .warn => 2
  | .info => 3
  | .debug => 4
  | .trace => 5

def name : Level → Text
  | .error => "ERROR".toList
  | .warn => "WARN".toList
  | .info => "INFO".toList
  | .debug => "DEBUG".toList
  | .trace => "TRACE".toList

end Level

/-- The highest level shown, or none at all. -/
abbrev Filter := Option Level

namespace Filter

/-- The filter named by a text in any case, or by its number from `0` to `5`. -/
def ofText? (text : Text) : Option Filter :=
  let upper := text.map Char.toUpper
  if upper = "OFF".toList || upper = ['0'] then some none
  else
    (Level.all.find? fun l => upper = l.name || upper = Text.ofNat l.rank).map some

def shows (f : Filter) (l : Level) : Bool :=
  match f with
  | none => false
  | some highest => l.rank <= highest.rank

end Filter

inductive Record where
  | inputChunk (bytes : Nat)
  | matchCount (pattern : Pattern) (count : Nat)
  | textCount (count : Nat)
  | chainCut (start : Nat) (chain : Chain)
  | chainFound (chain : Chain)
  | chainCount (count : Nat)
  | methodCount (count : Nat)
  | writeFailed (path : Text) (fault : Fault)
deriving DecidableEq, Repr

namespace Record

def level : Record → Level
  | .inputChunk _ => .debug
  | .matchCount _ _ => .info
  | .textCount _ => .info
  | .chainCut _ _ => .debug
  | .chainFound _ => .debug
  | .chainCount _ => .info
  | .methodCount _ => .info
  | .writeFailed _ _ => .error

def message : Record → Text
  | .inputChunk _ => "input chunk".toList
  | .matchCount _ _ => "raw matches".toList
  | .textCount _ => "unique raw matches".toList
  | .chainCut _ _ => "nested chain found".toList
  | .chainFound _ => "chain".toList
  | .chainCount _ => "unique chains".toList
  | .methodCount _ => "unique methods".toList
  | .writeFailed _ _ => "failed to write method tree".toList

def fields : Record → List (String × Text)
  | .inputChunk bytes => [("bytes", Text.ofNat bytes)]
  | .matchCount pattern count =>
      [("pattern", Text.quoted pattern.text), ("count", Text.ofNat count)]
  | .textCount count => [("count", Text.ofNat count)]
  | .chainCut start chain => [("start", Text.ofNat start), ("chain", chain.display)]
  | .chainFound chain => [("chain", chain.display)]
  | .chainCount count => [("count", Text.ofNat count)]
  | .methodCount count => [("count", Text.ofNat count)]
  | .writeFailed path fault => [("path", path), ("error", fault.message)]

def line (r : Record) : Text :=
  r.level.name ++ ' ' :: r.message ++
    r.fields.flatMap fun field => ' ' :: field.1.toList ++ '=' :: field.2

end Record

def lines (filter : Filter) (records : List Record) : List Text :=
  (records.filter fun r => filter.shows r.level).map Record.line

end Log

end CallChains
