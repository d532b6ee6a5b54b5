import Alternation.Failure
import Alternation.Yaml.Document

/-!
# Settings from a YAML document

A settings document is a mapping from field names to values, an empty plain scalar, or no
document at all. Every field has its default; a key that is not a field name has its value
passed over, whatever it is, and a field named twice is refused. A key must be a scalar, or an
alias of one. A value may be an alias; it is read at its anchor.

* A boolean field takes a plain `true` or `false` (also `True`, `TRUE`, `False`, `FALSE`),
  whatever its tag.
* A text field takes the text of any scalar.
* An optional field is empty for a plain scalar that is empty or a null word without a tag, or
  a null word tagged as null; another plain scalar tagged as null is refused. Otherwise it is
  read as its field.
* Anything else is refused.

Main results:

* `Settings.ofDocument`: the settings of a loaded document.
* `Settings.load`: the settings of a settings file's text, checked, or why there are none.
-/

namespace Alternation

namespace Settings

/-- The names of the settings fields. -/
def fieldNames : List String :=
  ["boundary", "capturing", "delimiter", "suffix", "strict"]

/-- A boolean field's value. -/
def boolOf? : Option Yaml.Item → Option Bool
  | some (.scalar _ w .plain) => Yaml.boolWord? w
  | _ => none

/-- A text field's value. -/
def textOf? : Option Yaml.Item → Option String
  | some (.scalar _ w _) => some w
  | _ => none

/-- Whether an optional field holds a value: `none` when the item is refused. -/
def present? : Option Yaml.Item → Option Bool
  | some (.scalar tag w .plain) =>
    match tag with
    | none => some (!w.isEmpty && !Yaml.isNullWord w)
    | some t => if t = Yaml.nullTag then (if Yaml.isNullWord w then some false else none) else some true
  | _ => some true

/-- An optional field's value, read by `read` when present. -/
def optionOf? {α : Type} (read : Option Yaml.Item → Option α) (i : Option Yaml.Item) :
    Option (Option α) :=
  match present? i with
  | none => none
  | some false => some none
  | some true => (read i).map some

/-- Sets the field `name` from the item at its value. -/
def setField (s : Settings) (name : String) (v : Option Yaml.Item) : Option Settings :=
  if name = "boundary" then (boolOf? v).map fun b => { s with boundary := b }
  else if name = "capturing" then (optionOf? boolOf? v).map fun c => { s with capturing := c }
  else if name = "delimiter" then (optionOf? textOf? v).map fun d => { s with delimiter := d }
  else if name = "suffix" then (textOf? v).map fun t => { s with suffix := t }
  else if name = "strict" then (boolOf? v).map fun b => { s with strict := b }
  else some s

/-- The entries of a mapping from `place` on, each known field named at most once. -/
def entries (d : Yaml.Document) : Nat → Nat → Settings → List String → Option Settings
  | 0, _, _, _ => none
  | fuel + 1, place, s, seen =>
    match d.items[place]? with
    | none => none
    | some .mappingEnd | some .void => some s
    | some _ =>
      match textOf? (d.resolve place) with
      | none => none
      | some name =>
        if name ∈ fieldNames then
          if name ∈ seen then none
          else
            match setField s name (d.resolve (place + 1)) with
            | none => none
            | some s => entries d fuel (place + 2) s (name :: seen)
        else
          match d.skipNode (d.items.size + 1) (place + 1) 0 with
          | none => none
          | some next => entries d fuel next s seen

/-- The settings of a loaded document. -/
def ofDocument (d : Yaml.Document) : Option Settings :=
  match d.resolve 0 with
  | some .mappingStart => entries d (d.items.size + 1) 1 {} []
  | some .void | some (.scalar _ "" .plain) => some {}
  | _ => none

/-- The settings of a settings file at `path`, from its text (`none` when it cannot be read):
    read, then checked. -/
def load (path : String) (text : Option String) : Except Failure Settings :=
  match text with
  | none => .error ⟨["Failed to read config file: " ++ path], .io⟩
  | some t =>
    match (Yaml.Document.ofText t).toOption.bind ofDocument with
    | none => .error ⟨["Failed to parse config file: " ++ path], .yaml⟩
    | some s =>
      match s.validate with
      | .ok s => .ok s
      | .error p => .error (Failure.of (.invalid p))

end Settings

end Alternation
