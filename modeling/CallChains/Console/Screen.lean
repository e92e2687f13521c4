import CallChains.Console.Colour
import CallChains.Report

/-!
# What a run shows on the terminal

A report shows its counts on the standard output, and there also where the
document went; a document that could not be written is a warning on the standard
error.  A failure shows its message on the standard error, with a hint if it is a
mistake in the use of the program.
-/

namespace CallChains

namespace Console

def line (parts : List Text) : Text := parts.flatten ++ ['\n']

def usageExample : Text := "ag 'React.' -Q | method-tree React".toList

def reportScreen (coloured : Bool) (r : Report) : Text :=
  let count (n : Nat) : Text := Colour.blue.paint coloured (Text.ofNat n)
  line ["\n  Searching input for regexp: ".toList,
      Colour.yellow.paint coloured r.pattern.text, "\n".toList] ++
    line ["  Found ".toList, count r.matchCount, " matches".toList] ++
    line ["  Found ".toList, count r.textCount, " unique strings".toList] ++
    line ["  Found ".toList, count r.chainCount, " unique method calls\n".toList] ++
    line ["  Built method tree".toList] ++
    line ["  Found ".toList, Text.ofNat r.methodCount, " unique methods\n".toList] ++
    match r.writeFault with
    | some _ => []
    | none =>
        line ["  ".toList, Colour.green.paint coloured "COMPLETE:".toList,
          " Wrote method tree to ".toList, Colour.green.paint coloured r.output,
          "\n".toList]

def warningScreen (coloured : Bool) (r : Report) : Text :=
  match r.writeFault with
  | none => []
  | some fault =>
      line ["  ".toList, Colour.yellow.paint coloured "WARN:".toList,
        " could not write ".toList, r.output, ": ".toList, fault.message, "\n".toList]

def failureScreen (coloured : Bool) (failure : Failure) : Text :=
  line ["\n".toList, Colour.red.paint coloured "error:".toList, " ".toList,
      failure.message] ++
    if failure.isMisuse then
      line [Colour.red.paint coloured "Pipe search output into the tool, e.g.".toList,
        "\n  ".toList, Colour.cyan.paint coloured usageExample, "\n".toList]
    else []

end Console

end CallChains
