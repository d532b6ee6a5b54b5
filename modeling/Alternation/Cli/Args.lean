/-!
# Reading the command line

The command line has options before its command, the command `convert` or `batch`, and the
command's own words after it. The shared options (`-b`, `-c`, `-n`, `-d`, `--strict`, `--json`,
`--config`, `--debug`, `-q`) may stand on either side of the command; `-h` is known on both sides
and `-V` only before the command. `convert` takes `-i` and `-o`, `batch` takes `-s` and any number
of file names.

Words are read one scope at a time, left to right:

* `--name` or `--name=value` is a long option, `-abc` a cluster of short options; a short option
  that takes a value takes the rest of its cluster (after an optional `=`) or the next word;
* an awaited value is the next word that is not an option and not `--`, even a command name;
* before the command, a word that names a command starts it, unless a value is awaited;
* `--` makes every later word a plain word;
* an option given twice in one scope, `-c` with `-n`, and `--debug` with `-q` are refused;
* an option, and a run of file names, are settled when the next option is read or the scope
  ends: an awaited value that never came is refused then, and so is an empty path (the settings
  file, the input, the output or a file name);
* an unknown option is refused at once, before anything unsettled is looked at.

An option given on both sides of the command takes its value from the command's side.

Main results:

* `Cli.Usage`: why a command line does not start a run.
* `Cli.readScope`: the words of one scope.
* `Cli.parse`: the invocation a command line asks for.
-/

namespace Alternation

namespace Cli

/-- Why a command line does not start a run: a refusal, or a request to show the help or the
    version. -/
inductive Usage where
  | argumentConflict
  | unknownArgument
  | invalidSubcommand
  | invalidValue
  | missingSubcommand
  | tooManyValues
  | displayHelp
  | displayVersion
  | displayHelpOnMissing
deriving DecidableEq, Repr

/-- The options of the command line. -/
inductive Flag where
  | boundary
  | capture
  | nonCapture
  | delimiter
  | strict
  | json
  | config
  | debug
  | quiet
  | help
  | version
  | input
  | output
  | suffix
deriving DecidableEq, Repr

namespace Flag

/-- The long name of an option. -/
def long : Flag → String
  | .boundary => "boundary"
  | .capture => "capture"
  | .nonCapture => "non-capture"
  | .delimiter => "delimiter"
  | .strict => "strict"
  | .json => "json"
  | .config => "config"
  | .debug => "debug"
  | .quiet => "quiet"
  | .help => "help"
  | .version => "version"
  | .input => "in"
  | .output => "out"
  | .suffix => "suffix"

/-- The short name of an option, if it has one. -/
def short? : Flag → Option Char
  | .boundary => some 'b'
  | .capture => some 'c'
  | .nonCapture => some 'n'
  | .delimiter => some 'd'
  | .quiet => some 'q'
  | .help => some 'h'
  | .version => some 'V'
  | .input => some 'i'
  | .output => some 'o'
  | .suffix => some 's'
  | _ => none

/-- Whether an option takes a value. -/
def takesValue : Flag → Bool
  | .delimiter | .config | .input | .output | .suffix => true
  | _ => false

/-- Whether an option's value is a path, which must not be empty. -/
def takesPath : Flag → Bool
  | .config | .input | .output => true
  | _ => false

end Flag

/-- Where a word is read: before the command, or after `convert` or `batch`. -/
inductive Scope where
  | top
  | convert
  | batch
deriving DecidableEq, Repr

namespace Scope

/-- The options known in a scope. -/
def flags : Scope → List Flag
  | .top =>
    [.boundary, .capture, .nonCapture, .delimiter, .strict, .json, .config, .debug, .quiet,
     .help, .version]
  | .convert =>
    [.boundary, .capture, .nonCapture, .delimiter, .strict, .json, .config, .debug, .quiet,
     .help, .input, .output]
  | .batch =>
    [.boundary, .capture, .nonCapture, .delimiter, .strict, .json, .config, .debug, .quiet,
     .help, .suffix]

/-- The option of a scope with a long name. -/
def findLong (s : Scope) (name : String) : Option Flag :=
  s.flags.find? (·.long = name)

/-- The option of a scope with a short name. -/
def findShort (s : Scope) (c : Char) : Option Flag :=
  s.flags.find? (·.short? = some c)

end Scope

/-- What one scope received: the options without value, the options with their values, and the
    plain words, each in order. -/
structure Given where
  flags : List Flag := []
  values : List (Flag × String) := []
  words : List String := []
deriving Repr

namespace Given

/-- Whether an option was given. -/
def has (g : Given) (f : Flag) : Bool :=
  g.flags.contains f || g.values.any (·.1 == f)

/-- The value of an option. -/
def value? (g : Given) (f : Flag) : Option String :=
  g.values.lookup f

/-- Records an option with the values that came with it: an option that takes a value needs
    exactly one, an option given before is refused, a path must not be empty, and help and
    version stop the reading. -/
def record (g : Given) (f : Flag) (vals : List String) : Except Usage Given :=
  if f.takesValue && vals.isEmpty then .error .invalidValue
  else if g.has f then .error .argumentConflict
  else if f = .help then .error .displayHelp
  else if f = .version then .error .displayVersion
  else
    match vals with
    | v :: _ =>
      if f.takesPath && v.isEmpty then .error .invalidValue
      else .ok { g with values := g.values ++ [(f, v)] }
    | [] => .ok { g with flags := g.flags ++ [f] }

/-- Records a run of file names; an empty one is refused. -/
def recordWords (g : Given) (ws : List String) : Except Usage Given :=
  if ws.any (·.isEmpty) then .error .invalidValue
  else .ok { g with words := g.words ++ ws }

/-- Whether two options that exclude each other were both given. -/
def conflicting (g : Given) : Bool :=
  (g.has .capture && g.has .nonCapture) || (g.has .debug && g.has .quiet)

end Given

/-- The reading of one scope: what it received, the option whose values are still collected,
    whether a value is awaited, the file names not yet settled, and whether `--` was passed. -/
structure Reading where
  given : Given := {}
  pending : Option (Flag × List String) := none
  awaiting : Bool := false
  words : List String := []
  trailing : Bool := false

namespace Reading

/-- Records the option whose values were being collected. -/
def resolveOption (r : Reading) : Except Usage Reading :=
  match r.pending with
  | none => .ok r
  | some (f, vals) =>
    (r.given.record f vals).map fun g => { r with given := g, pending := none, awaiting := false }

/-- Records the option whose values were being collected and the file names not yet settled. -/
def resolve (r : Reading) : Except Usage Reading := do
  let r ← r.resolveOption
  if r.words.isEmpty then pure r
  else
    let g ← r.given.recordWords r.words
    pure { r with given := g, words := [] }

/-- Records an option with its values, after the one being collected. -/
def react (r : Reading) (f : Flag) (vals : List String) : Except Usage Reading := do
  let r ← r.resolve
  let g ← r.given.record f vals
  pure { r with given := g }

/-- Starts collecting the values of an option, after recording the one being collected. -/
def await (r : Reading) (f : Flag) : Except Usage Reading := do
  let r ← r.resolve
  pure { r with pending := some (f, []), awaiting := true }

end Reading

/-- Reads a cluster of short options. -/
def readShorts (s : Scope) (r : Reading) : List Char → Except Usage Reading
  | [] => .ok r
  | c :: more =>
    match s.findShort c with
    | none => .error .unknownArgument
    | some f =>
      if f.takesValue then
        match more with
        | [] => r.await f
        | '=' :: v => r.react f [String.ofList v]
        | v => r.react f [String.ofList v]
      else
        match r.react f [] with
        | .ok r => readShorts s r more
        | .error e => .error e

/-- The names of the commands. -/
def commandScope? (w : String) : Option Scope :=
  if w = "convert" then some .convert else if w = "batch" then some .batch else none

/-- What the word `help` before the command asks for: the help, when nothing or one command
    name follows it. -/
def helpRequest (rest : List String) : Usage :=
  match rest with
  | [] => .displayHelp
  | [w] => if (commandScope? w).isSome ∨ w = "help" then .displayHelp else .invalidSubcommand
  | _ => .invalidSubcommand

/-- Reads the words of a scope. At the top, a command word ends the reading and hands back the
    command's scope and the words after it. -/
def readScope (s : Scope) : Reading → List String → Except Usage (Reading × Option (Scope × List String))
  | r, [] => .ok (r, none)
  | r, w :: rest =>
    if !r.trailing && w = "--" then readScope s { r with trailing := true } rest
    else if !r.trailing && w.startsWith "--" then
      let body := (w.toList.drop 2)
      let name := String.ofList (body.takeWhile (· ≠ '='))
      let value? := match body.dropWhile (· ≠ '=') with
        | '=' :: v => some (String.ofList v)
        | _ => none
      match s.findLong name with
      | none => .error .unknownArgument
      | some f =>
        let next :=
          if f.takesValue then
            match value? with
            | some v => r.react f [v]
            | none => r.await f
          else
            match value? with
            | some _ => .error .tooManyValues
            | none => r.react f []
        match next with
        | .ok r => readScope s r rest
        | .error e => .error e
    else if !r.trailing && w.startsWith "-" && w != "-" then
      match readShorts s r (w.toList.drop 1) with
      | .ok r => readScope s r rest
      | .error e => .error e
    else if !r.trailing && r.awaiting then
      readScope s { r with pending := r.pending.map (fun (f, vs) => (f, vs ++ [w])),
                           awaiting := false } rest
    else if !r.trailing && s = .top && ((commandScope? w).isSome || w = "help") then
      match commandScope? w with
      | some c => .ok (r, some (c, rest))
      | none => .error (helpRequest rest)
    else
      match s with
      | .batch =>
        match r.resolveOption with
        | .ok r => readScope s { r with words := r.words ++ [w] } rest
        | .error e => .error e
      | .top =>
        .error (if r.trailing && ((commandScope? w).isSome || w = "help") then .unknownArgument
          else .invalidSubcommand)
      | .convert => .error .unknownArgument

/-- Ends the reading of a scope: the option being collected is recorded, a top scope without a
    command asks for the help when it received nothing and is refused otherwise, and options
    that exclude each other are refused. -/
def finishScope (s : Scope) (hasCommand : Bool) (r : Reading) : Except Usage Given := do
  let r ← r.resolve
  if s = .top && !hasCommand then
    if r.given.flags.isEmpty && r.given.values.isEmpty then throw .displayHelpOnMissing
    else throw .missingSubcommand
  if r.given.conflicting then throw .argumentConflict
  pure r.given

/-- The shared options of a run. -/
structure Options where
  boundary : Bool := false
  capture : Bool := false
  nonCapture : Bool := false
  delimiter : Option String := none
  strict : Bool := false
  json : Bool := false
  config : Option String := none
  debug : Bool := false
  quiet : Bool := false
deriving DecidableEq, Repr

/-- What a run does. -/
inductive Command where
  /-- Reads values from a file or the standard input and writes one pattern. -/
  | convert (input : Option String) (output : Option String)
  /-- Writes the pattern of each file next to it. -/
  | batch (suffix : Option String) (files : List String)
deriving DecidableEq, Repr

/-- A command line that starts a run. -/
structure Invocation where
  options : Options
  command : Command
deriving DecidableEq, Repr

/-- The shared options from what the two scopes received; the command's side wins. -/
def Options.ofScopes (top cmd : Given) : Options :=
  let flag := fun f => cmd.has f || top.has f
  let value := fun f => (cmd.value? f).or (top.value? f)
  { boundary := flag .boundary, capture := flag .capture, nonCapture := flag .nonCapture,
    delimiter := value .delimiter, strict := flag .strict, json := flag .json,
    config := value .config, debug := flag .debug, quiet := flag .quiet }

/-- The invocation a command line asks for, or why it does not start a run. The command's words
    are read, and checked, before the scope in front of the command is checked. -/
def parse (args : List String) : Except Usage Invocation := do
  let (r, cmd?) ← readScope .top {} args
  match cmd? with
  | none =>
    let _ ← finishScope .top false r
    throw .missingSubcommand
  | some (s, rest) =>
    let (rc, _) ← readScope s {} rest
    let cmd ← finishScope s true rc
    let top ← finishScope .top true r
    let command := match s with
      | .batch => Command.batch (cmd.value? .suffix) cmd.words
      | _ => Command.convert (cmd.value? .input) (cmd.value? .output)
    pure ⟨Options.ofScopes top cmd, command⟩

end Cli

end Alternation
