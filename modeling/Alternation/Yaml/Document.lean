import Alternation.Yaml.Event

/-!
# Loading one YAML document

A text is loaded as the flat list of its first document's events. An anchor gets a number and
the place of its event; an alias becomes the number of the anchor it names.

* An anchor's number is how many different names were anchored before it. A name anchored a
  second time keeps its own entry but takes that count as its number, so it may share a number
  with a later anchor; the place of a number is the one last given to it.
* An alias names an anchor seen before it; any other alias is refused.
* A stream without documents loads as one empty item.
* A stream with a second document is refused, as is any text that has no tokens or events.

The reading of scalars lives here too: the plain words for null and for the booleans.

Main results:

* `Yaml.Item`, `Yaml.Document`: a loaded document.
* `Yaml.Document.ofText`: the document of a text.
* `Yaml.isNullWord`, `Yaml.boolWord?`: the plain words for null and the booleans.
-/

namespace Alternation

namespace Yaml

/-- The events of a loaded document: an alias holds its anchor's number, and the tags of
    collections are dropped. `void` stands for a stream with no document. -/
inductive Item where
  | void
  | alias (anchor : Nat)
  | scalar (tag : Option String) (text : String) (style : Style)
  | sequenceStart
  | sequenceEnd
  | mappingStart
  | mappingEnd
deriving DecidableEq, Repr, Inhabited

/-- A loaded document: its items, and the place of each anchor number. -/
structure Document where
  items : Array Item := #[]
  places : List (Nat × Nat) := []
deriving Repr, Inhabited

/-- A document being loaded, with the number of each anchor name so far. -/
structure Loading where
  document : Document := {}
  anchors : List (String × Nat) := []
deriving Repr, Inhabited

namespace Loading

/-- Records the anchor of the next item. -/
def anchor (l : Loading) : Option String → Loading
  | none => l
  | some name =>
    let n := l.anchors.length
    let d := l.document
    { document := { d with places := (n, d.items.size) :: d.places.filter (·.1 != n) }
      anchors := (name, n) :: l.anchors.filter (·.1 != name) }

/-- Appends an item. -/
def push (l : Loading) (i : Item) : Loading :=
  { l with document := { l.document with items := l.document.items.push i } }

end Loading

/-- The first document of an event list, and the events after its end. -/
def Document.first : Nat → List Event → Loading → Except String (Document × List Event)
  | 0, _, _ => .error "document too long"
  | _, [], l => .ok (l.document, [])
  | fuel + 1, e :: rest, l =>
    match e with
    | .streamStart | .documentStart => Document.first fuel rest l
    | .streamEnd =>
      let l := if l.document.items.isEmpty then l.push .void else l
      .ok (l.document, [])
    | .documentEnd => .ok (l.document, rest)
    | .alias name =>
      match l.anchors.lookup name with
      | some n => Document.first fuel rest (l.push (.alias n))
      | none => .error "unknown anchor"
    | .scalar a tag text style => Document.first fuel rest ((l.anchor a).push (.scalar tag text style))
    | .sequenceStart a _ => Document.first fuel rest ((l.anchor a).push .sequenceStart)
    | .sequenceEnd => Document.first fuel rest (l.push .sequenceEnd)
    | .mappingStart a _ => Document.first fuel rest ((l.anchor a).push .mappingStart)
    | .mappingEnd => Document.first fuel rest (l.push .mappingEnd)

/-- The one document of a text. -/
def Document.ofText (text : String) : Except String Document := do
  let ts ← Token.scan text
  let es ← Event.ofTokens ts
  let (d, rest) ← Document.first (es.length + 1) es {}
  match rest with
  | [] | [.streamEnd] => .ok d
  | _ => .error "more than one document"

namespace Document

/-- The item at a place, an alias followed to its anchor's place. -/
def resolve (d : Document) (place : Nat) : Option Item :=
  match d.items[place]? with
  | some (.alias n) => (d.places.lookup n).bind (d.items[·]?)
  | i => i

/-- The place after the node at `place`, at most `fuel` items on. -/
def skipNode (d : Document) : Nat → Nat → Nat → Option Nat
  | 0, _, _ => none
  | fuel + 1, place, depth =>
    match d.items[place]? with
    | none => none
    | some (.sequenceStart) | some (.mappingStart) => d.skipNode fuel (place + 1) (depth + 1)
    | some (.sequenceEnd) | some (.mappingEnd) =>
      if depth ≤ 1 then some (place + 1) else d.skipNode fuel (place + 1) (depth - 1)
    | some _ => if depth = 0 then some (place + 1) else d.skipNode fuel (place + 1) depth

end Document

/-- The plain words for null; an empty plain scalar is null as well. -/
def isNullWord (w : String) : Bool :=
  w = "~" ∨ w = "null" ∨ w = "Null" ∨ w = "NULL"

/-- The plain words that stand for booleans. -/
def boolWord? (w : String) : Option Bool :=
  if w = "true" ∨ w = "True" ∨ w = "TRUE" then some true
  else if w = "false" ∨ w = "False" ∨ w = "FALSE" then some false
  else none

/-- The tag of null. -/
def nullTag : String := "tag:yaml.org,2002:null"

end Yaml

end Alternation
