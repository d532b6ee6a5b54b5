import Alternation.Cli.Args
import Alternation.Cli.Workspace
import Alternation.Ingest
import Alternation.Pattern.Wrap
import Alternation.Settings.Load

/-!
# Running a command

The settings of a run are those of the settings file named by `--config`, or the defaults, with
the options of the command line on top; options that break a settings rule fail the run inside
the context "Invalid command-line options".

`convert` reads its values from the input file or the standard input, drops trailing blanks, and
fails with "No input provided" when nothing is left; otherwise it writes the pattern and a line
break to the output file, or hands it back as the standard output.

`batch` first checks that every listed path is an existing file, then converts the files in
order: a file that is blank after dropping trailing blanks is skipped, and the pattern of any
other goes, followed by a line break, to its output path. A failure while converting a file
fails the run inside the context "Failed to convert" and the file's path; outputs written
before it stay.

Main results:

* `Cli.resolveSettings`: the settings of a run.
* `Cli.convert`, `Cli.batch`: the two commands; `Cli.runBatch`: a batch under given settings.
* `Cli.Invocation.run`: the run of an invocation, and its standard output.
-/

namespace Alternation

namespace Cli

variable {m : Type → Type} [Monad m] [FileSystem m]

/-- The settings the options replace: boundaries and strictness only when given, the group kind
    when `-c` or `-n` was given (`-c` first), the delimiter and the suffix when given. -/
def Options.overrides (o : Options) (suffix : Option String) : Overrides where
  boundary := if o.boundary then some true else none
  capturing := if o.capture then some true else if o.nonCapture then some false else none
  delimiter := o.delimiter
  suffix := suffix
  strict := if o.strict then some true else none

/-- The settings of a run: the settings file or the defaults, then the options. -/
def resolveSettings (o : Options) (suffix : Option String) : ExceptT Failure m Settings := do
  let base ← match o.config with
    | some path => do
      let text ← (FileSystem.readFile? path : m (Option String))
      ExceptT.mk (pure (Settings.load path text))
    | none => pure {}
  match base.applyOverrides (o.overrides suffix) with
  | .ok s => pure s
  | .error p => throw ⟨["Invalid command-line options"], .invalid p⟩

/-- The text of a file, or a failure naming it. -/
def readInput (path : String) : ExceptT Failure m String := do
  match ← (FileSystem.readFile? path : m (Option String)) with
  | some t => pure t
  | none => throw ⟨["Failed to read input file: " ++ path], .io⟩

/-- The pattern text of a raw input under the settings, with its line break. -/
def patternText (raw : String) (s : Settings) (json : Bool) : Except Failure String :=
  (Ingest.trie raw s json).map fun t => t.pattern s.boundary s.capturing ++ "\n"

/-- Converts the input file, or the standard input, and writes the pattern to the output file;
    without an output file the pattern is the standard output. -/
def convert (o : Options) (input output : Option String) : ExceptT Failure m (Option String) := do
  let s ← resolveSettings o none
  let raw ← match input with
    | some p => readInput p
    | none => (FileSystem.readStdin : m String)
  let raw := Text.trimEnd raw
  if raw.isEmpty then throw (Failure.of (.plain "No input provided"))
  let text ← ExceptT.mk (pure (patternText raw s o.json))
  match output with
  | some p =>
    if ← (FileSystem.writeFile p text : m Bool) then pure none
    else throw ⟨["Failed to create output file: " ++ p], .io⟩
  | none => pure (some text)

/-- Fails with the first listed path that names no existing file. -/
def checkFiles : List String → ExceptT Failure m Unit
  | [] => pure ()
  | f :: rest => do
    if ← (FileSystem.isFile f : m Bool) then checkFiles rest
    else throw (Failure.of (.plain ("File does not exist: " ++ f)))

/-- Converts one file of a batch. -/
def convertFile (s : Settings) (json : Bool) (f : String) : ExceptT Failure m Unit := do
  let raw := Text.trimEnd (← readInput f)
  if raw.isEmpty then return
  match patternText raw s json with
  | .error e => throw (e.within ("Failed to convert " ++ f))
  | .ok text =>
    let out := Path.outputPath f s.suffix
    if ← (FileSystem.writeFile out text : m Bool) then pure ()
    else throw ⟨["Failed to write output file: " ++ out], .io⟩

/-- Converts every listed file under the settings after checking that all exist. -/
def runBatch (s : Settings) (json : Bool) (files : List String) : ExceptT Failure m Unit := do
  checkFiles files
  files.forM (convertFile s json)

/-- Converts every listed file under the settings of the run. -/
def batch (o : Options) (suffix : Option String) (files : List String) : ExceptT Failure m Unit := do
  let s ← resolveSettings o suffix
  runBatch s o.json files

/-- Runs an invocation; the result is the standard output, `none` when the run writes only
    files. -/
def Invocation.run (inv : Invocation) : ExceptT Failure m (Option String) :=
  match inv.command with
  | .convert input output => convert inv.options input output
  | .batch suffix files => do
    batch inv.options suffix files
    pure none

end Cli

end Alternation
