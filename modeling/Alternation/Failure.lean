import Alternation.Candidate
import Alternation.Settings.Basic

/-!
# Failures

A failed run has a cause and the contexts it failed in, outermost first. The message of a failure
names what went wrong at the level a reader can act on: for a value without text, a broken
settings rule, or a failure of its own, the contexts followed by the cause; for unreadable or
unwritable files, JSON or YAML text of the wrong shape, only the outermost context, which names
the file or the input.

Main results:

* `Cause.text`: what a cause says on its own.
* `Failure.message`: the message of a failure.
* `Failure.within`: a failure inside one more context.
-/

namespace Alternation

/-- What made a run fail. -/
inductive Cause where
  /-- A strict addition met a value without text. -/
  | coercion (value : Unsupported)
  /-- Settings broke a rule. -/
  | invalid (problem : Problem)
  /-- A file could not be read, created or written. -/
  | io
  /-- A text is not JSON of the expected shape. -/
  | json
  /-- A settings text is not YAML of the expected shape. -/
  | yaml
  /-- A failure with a text of its own. -/
  | plain (text : String)
deriving DecidableEq, Repr

namespace Cause

/-- What a cause says on its own. -/
def text : Cause → String
  | .coercion u => "Cannot add value " ++ u.repr ++ " of type " ++ u.kind
  | .invalid p => "Invalid configuration: " ++ p.message
  | .io => "input/output error"
  | .json => "malformed JSON"
  | .yaml => "malformed YAML"
  | .plain t => t

end Cause

/-- A cause with the contexts it occurred in, outermost first. -/
structure Failure where
  context : List String
  cause : Cause
deriving DecidableEq, Repr

namespace Failure

/-- A failure in no context. -/
def of (cause : Cause) : Failure := ⟨[], cause⟩

/-- The failure inside one more, outer, context. -/
def within (outer : String) (f : Failure) : Failure :=
  { f with context := outer :: f.context }

/-- The message: the contexts and the cause's text joined by `: ` for values without text,
    broken settings rules and plain failures; the outermost context alone for files and
    malformed text. -/
def message (f : Failure) : String :=
  match f.cause with
  | .io | .json | .yaml => f.context.headD f.cause.text
  | _ => ": ".intercalate (f.context ++ [f.cause.text])

end Failure

end Alternation
