import Alternation.Cli.Run

/-!
# The command line program

Runs an invocation on the real files of the working directory: the files are read and written
through `IO`, and the standard input is read only when `convert` has no input file. A usage error
or a failure is reported on the standard error with a nonzero exit code.

Main results:

* `main`: the program.
-/

namespace Alternation

namespace Cli

/-- Reads a stream to its end, line by line. -/
partial def readAll (stream : IO.FS.Stream) (acc : String) : IO String := do
  let line ← stream.getLine
  if line.isEmpty then return acc else readAll stream (acc ++ line)

instance : FileSystem IO where
  readFile? p := do
    try return some (← IO.FS.readFile p) catch _ => return none
  isFile p := do
    try
      let _ ← IO.FS.readFile p
      return true
    catch _ => return false
  writeFile p t := do
    try
      IO.FS.writeFile p t
      return true
    catch _ => return false
  readStdin := do readAll (← IO.getStdin) ""

/-- What the program says for a command line that does not start a run. -/
def Usage.text : Usage → String
  | .displayHelp | .displayHelpOnMissing =>
    "Usage: triex [OPTIONS] <COMMAND>\n\nCommands:\n  convert  Convert input to a regex pattern.\n" ++
    "  batch    Batch convert file contents to patterns.\n"
  | .displayVersion => "triex\n"
  | .argumentConflict => "error: an argument cannot be used with one or more of the other arguments"
  | .unknownArgument => "error: unexpected argument found"
  | .invalidSubcommand => "error: unrecognized subcommand"
  | .invalidValue => "error: a value is required but none was supplied"
  | .missingSubcommand => "error: a subcommand is required"
  | .tooManyValues => "error: unexpected value for an argument that takes none"

end Cli

end Alternation

open Alternation in
/-- Reads the command line, runs it, and reports. -/
def main (args : List String) : IO UInt32 := do
  match Cli.parse args with
  | .error u =>
    match u with
    | .displayHelp | .displayVersion =>
      IO.print (Cli.Usage.text u)
      return 0
    | _ =>
      IO.eprint (Cli.Usage.text u)
      return 2
  | .ok inv =>
    match ← (inv.run : ExceptT Failure IO (Option String)).run with
    | .ok out =>
      if let some t := out then IO.print t
      return 0
    | .error f =>
      IO.eprintln ("Error: " ++ f.message)
      return 1
