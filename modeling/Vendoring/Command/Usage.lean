import Vendoring.Command.Arguments

/-!
# Usage

What a user is told about the command line: how to use it, and what is wrong
with one that makes no sense.
-/

namespace Vendoring.Command

/-- What a line says about a command or an option. -/
def usageLine (form purpose : String) : String :=
  "  " ++ form ++ "\n          " ++ purpose ++ "\n"

def commandLines : String :=
  usageLine "sync <source> <destination> [--manifest FILE] [--dry-run] [--no-amalgamate]"
      "Copy changed files and regenerate the aggregate unit"
    ++ usageLine "status <source> <destination> [--manifest FILE] [--json]"
      "Show which vendored files differ from their sources"
    ++ usageLine "diff <source> <destination> [--manifest FILE]"
      "Show what sync would change"
    ++ usageLine "manifest [--output FILE]" "Print or export the built-in manifest"

def optionLines : String :=
  usageLine "-v, --verbose" "Log progress details"
    ++ usageLine "-h, --help" "Print help"
    ++ usageLine "-V, --version" "Print version"

def usageText : String :=
  "Vendor a fixed subset of a source tree\n\nUsage: carve [-v] <command>\n\nCommands:\n"
    ++ commandLines ++ "\nOptions:\n" ++ optionLines

def UsageError.message : UsageError → String
  | .unknownArgument s => "unexpected argument '" ++ s ++ "'"
  | .unknownCommand s => "unknown command '" ++ s ++ "'"
  | .repeated option => "'" ++ option ++ "' is given more than once"
  | .valueMissing option => "'" ++ option ++ "' needs a value"
  | .valueUnexpected option => "'" ++ option ++ "' takes no value"
  | .rootMissing => "the source and the destination are required"
  | .commandMissing => "a command is required"

end Vendoring.Command
