import Alternation.Text.Split

/-!
# Settings

The settings of a run: word boundaries, the kind of group, the delimiter between input values,
the suffix of batch output names, and whether an unsupported value stops the run. Settings come
from a settings file or the defaults, then from the options of the command line, and are checked
after each: the delimiter and the suffix must not be empty, and the suffix must not hold a path
separator.

Main results:

* `Settings.problem?`: the first rule a value breaks, in the order above.
* `Settings.override`: options that are given replace the settings' values.
* `Settings.applyOverrides`: overriding, then checking.
* `Settings.splitValues`: the raw input without trailing blanks, cut by the delimiter or by line
  breaks.
-/

namespace Alternation

/-- The settings of a run. -/
structure Settings where
  /-- Put the pattern between word boundaries. -/
  boundary : Bool := false
  /-- `some true` for a capturing group, `some false` for a non-capturing one, `none` to leave
      the choice to the boundary request. -/
  capturing : Option Bool := none
  /-- The text between input values; `none` cuts at line breaks. -/
  delimiter : Option String := none
  /-- Inserted before the extension of each batch output name. -/
  suffix : String := "triex"
  /-- Stop at the first value without text instead of skipping it. -/
  strict : Bool := false
deriving DecidableEq, Repr, Inhabited

/-- Options that replace settings where they are given. -/
structure Overrides where
  boundary : Option Bool := none
  capturing : Option Bool := none
  delimiter : Option String := none
  suffix : Option String := none
  strict : Option Bool := none
deriving DecidableEq, Repr, Inhabited

/-- A rule that a settings value breaks. -/
inductive Problem where
  | emptyDelimiter
  | emptySuffix
  | separatorInSuffix (suffix : String)
deriving DecidableEq, Repr

namespace Problem

/-- What the broken rule says. -/
def message : Problem → String
  | .emptyDelimiter => "delimiter must not be empty"
  | .emptySuffix => "suffix must not be empty"
  | .separatorInSuffix s => "suffix must not contain path separators: '" ++ s ++ "'"

end Problem

namespace Settings

/-- The first rule the settings break: an empty delimiter, an empty suffix, a suffix with `/`
    or a backslash. -/
def problem? (s : Settings) : Option Problem :=
  if s.delimiter = some "" then some .emptyDelimiter
  else if s.suffix.isEmpty then some .emptySuffix
  else if s.suffix.toList.any (fun c => c = '/' ∨ c = '\\') then some (.separatorInSuffix s.suffix)
  else none

/-- The settings themselves when they break no rule. -/
def validate (s : Settings) : Except Problem Settings :=
  match s.problem? with
  | some p => .error p
  | none => .ok s

/-- The settings with every given option in place of its value. -/
def override (s : Settings) (o : Overrides) : Settings where
  boundary := o.boundary.getD s.boundary
  capturing := o.capturing.or s.capturing
  delimiter := o.delimiter.or s.delimiter
  suffix := o.suffix.getD s.suffix
  strict := o.strict.getD s.strict

/-- Overrides the settings, then checks them. -/
def applyOverrides (s : Settings) (o : Overrides) : Except Problem Settings :=
  (s.override o).validate

/-- The raw input values: trailing blanks dropped, then cut by the delimiter, or by line breaks
    when there is none. -/
def splitValues (s : Settings) (raw : String) : List String :=
  let trimmed := Text.trimEnd raw
  match s.delimiter with
  | some d => (Text.splitOn d.toList trimmed.toList).map String.ofList
  | none => Text.splitLines trimmed

end Settings

end Alternation
