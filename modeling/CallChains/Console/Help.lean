import CallChains.Console.Arguments

/-!
# Texts about the command line

The help and the version, which are printed on request, and what is said about a
mistake in the arguments.
-/

namespace CallChains

namespace Console

def helpLines : List String :=
  ["Method Tree - Mine chained method calls on a named object from piped search output into a JSON call tree.",
    "",
    "Usage: method-tree [OPTIONS] <IDENTIFIER>",
    "",
    "Arguments:",
    "  <IDENTIFIER>  Object whose chained method calls are mined (e.g. React)",
    "",
    "Options:",
    "  -o, --output <OUTPUT>          Output path for the JSON method tree [default: ../logfile.json]",
    "      --timeout-ms <TIMEOUT_MS>  How long to wait for piped input before giving up [default: 500]",
    "  -v, --verbose                  Enable debug output",
    "  -h, --help                     Print help",
    "  -V, --version                  Print version",
    "",
    "Example:",
    "  ag 'React.' -Q | method-tree React"]

def helpText : Text := (helpLines.map fun text => text.toList ++ ['\n']).flatten

def versionText : Text := "method_tree 0.1.0\n".toList

namespace UsageError

def reason : UsageError → Text
  | .unknownOption text => "unexpected argument '".toList ++ text ++ "' found".toList
  | .missingValue option => "a value is required for '".toList ++ option ++ ['\'']
  | .needlessValue option => "no value is expected for '".toList ++ option ++ ['\'']
  | .invalidValue option value =>
      "invalid value '".toList ++ value ++ "' for '".toList ++ option ++ ['\'']
  | .repeatedOption option =>
      "the argument '".toList ++ option ++ "' cannot be used multiple times".toList
  | .unexpectedArgument text => "unexpected argument '".toList ++ text ++ "' found".toList
  | .missingIdentifier => "the argument <IDENTIFIER> is required".toList

def message (e : UsageError) : Text :=
  "error: ".toList ++ e.reason ++
    "\n\nUsage: method-tree [OPTIONS] <IDENTIFIER>\n".toList ++
    "\nFor more information, try '--help'.\n".toList

end UsageError

end Console

end CallChains
