import Alternation.Yaml.Cursor

/-!
# YAML tokens

The lexer cuts a text into tokens: the markers of the stream, of documents and of
collections, the indicators of entries, keys and values, anchors, aliases, tags and scalars.
Block collections have no brackets in the text; the lexer makes their start and end tokens
from the indentation.

A scalar keeps the style it was written in, since the meaning of a scalar can depend on it: a
plain `true` is a boolean where a quoted one is text.

Main results:

* `Yaml.Style`: how a scalar was written.
* `Yaml.Token`: the tokens of a text.
-/

namespace Alternation

namespace Yaml

/-- How a scalar was written. -/
inductive Style where
  | plain
  | singleQuoted
  | doubleQuoted
  | literal
  | folded
deriving DecidableEq, Repr, Inhabited

/-- The tokens of a YAML text. -/
inductive Token where
  | streamStart
  | streamEnd
  /-- `%YAML major.minor` -/
  | versionDirective (major minor : Nat)
  /-- `%TAG handle prefix` -/
  | tagDirective (handle pfx : String)
  | documentStart
  | documentEnd
  | blockSequenceStart
  | blockMappingStart
  | blockEnd
  | flowSequenceStart
  | flowSequenceEnd
  | flowMappingStart
  | flowMappingEnd
  | blockEntry
  | flowEntry
  | key
  | value
  | alias (name : String)
  | anchor (name : String)
  /-- A tag as written: its handle and its suffix. -/
  | tag (handle suffix : String)
  | scalar (text : String) (style : Style)
deriving DecidableEq, Repr, Inhabited

end Yaml

end Alternation
