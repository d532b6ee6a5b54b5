import Alternation.Yaml.Token.Lexer

/-!
# YAML events

The tokens of a text are read as a stream of events: documents, collections opening and
closing, scalars and aliases. The reading is a walk over the grammar: it stands at one place of
the grammar and keeps a stack of places to return to when the current node is done.

* A stream holds documents. The first may be implicit; a document with directives, and every
  later one, starts with `---`. A `...` ends a document; extra ones are passed.
* `%YAML` must be `1.1` or `1.2`, given at most once; a `%TAG` handle at most once per document.
* A node is an alias, or an optional anchor and tag (either order) and then a scalar or a
  collection. An anchor or tag with nothing after it is an empty plain scalar.
* A tag's handle is replaced by its prefix: `!` by `!`, `!!` by `tag:yaml.org,2002:`, or as a
  `%TAG` directive says; a handle without a prefix is refused. A verbatim tag stays as written.
* A missing key or value, or a missing sequence entry, is an empty plain scalar.
* A sequence may stand at its parent key's own indentation as the key's value.
* In a flow sequence, an entry that is a key with a value is a mapping of one entry. When its
  key is empty, the token after the `?` is used up with it.

Main results:

* `Yaml.Event`: the events of a stream.
* `Yaml.Walk.step`: the next event.
* `Yaml.Event.ofTokens`: all events of a token list.
-/

namespace Alternation

namespace Yaml

/-- The events of a YAML stream. A node's anchor and tag come with its first event; a tag is
    resolved against its handle's prefix. -/
inductive Event where
  | streamStart
  | streamEnd
  | documentStart
  | documentEnd
  | alias (name : String)
  | scalar (anchor tag : Option String) (text : String) (style : Style)
  | sequenceStart (anchor tag : Option String)
  | sequenceEnd
  | mappingStart (anchor tag : Option String)
  | mappingEnd
deriving DecidableEq, Repr, Inhabited

/-- The places of the grammar a walk can stand at. -/
inductive Place where
  | streamStart
  | implicitDocumentStart
  | documentStart
  | documentContent
  | documentEnd
  | blockNode
  | blockNodeOrIndentlessSequence
  | flowNode
  | blockSequenceFirstEntry
  | blockSequenceEntry
  | indentlessSequenceEntry
  | blockMappingFirstKey
  | blockMappingKey
  | blockMappingValue
  | flowSequenceFirstEntry
  | flowSequenceEntry
  | flowSequenceEntryMappingKey
  | flowSequenceEntryMappingValue
  | flowSequenceEntryMappingEnd
  | flowMappingFirstKey
  | flowMappingKey
  | flowMappingValue
  | flowMappingEmptyValue
  | finished
deriving DecidableEq, Repr, Inhabited

/-- A walk over the grammar: the tokens not yet used, its place, the places to return to, and
    the tag handles of the current document with their prefixes. -/
structure Walk where
  tokens : List Token
  place : Place := .streamStart
  returns : List Place := []
  handles : List (String × String) := []
deriving Repr, Inhabited

/-- The tag handles every document has. -/
def defaultTagDirectives : List (String × String) :=
  [("!", "!"), ("!!", "tag:yaml.org,2002:")]

namespace Walk

/-- The next token; the stream end once the tokens are used up. -/
def peek (p : Walk) : Token :=
  p.tokens.headD .streamEnd

/-- Uses the next token. -/
def skip (p : Walk) : Walk :=
  { p with tokens := p.tokens.drop 1 }

/-- Goes to a place and remembers where to return. -/
def enter (p : Walk) (next back : Place) : Walk :=
  { p with place := next, returns := back :: p.returns }

/-- Returns to the last remembered place. -/
def pop (p : Walk) : Walk :=
  match p.returns with
  | s :: rest => { p with place := s, returns := rest }
  | [] => { p with place := .finished }

/-- The empty plain scalar. -/
def emptyScalar : Event :=
  .scalar none none "" .plain

/-- Reads the directives before a document and adds the default tag handles. -/
def directives (p : Walk) : Except String Walk :=
  let rec go : Nat → Bool → Walk → Except String Walk
    | 0, _, p => .ok p
    | fuel + 1, seenVersion, p =>
      match p.peek with
      | .versionDirective major minor =>
        if seenVersion then .error "second %YAML directive"
        else if major != 1 || (minor != 1 && minor != 2) then .error "incompatible version"
        else go fuel true p.skip
      | .tagDirective handle pfx =>
        if p.handles.any (·.1 == handle) then .error "second %TAG for a handle"
        else go fuel seenVersion { p.skip with handles := p.handles ++ [(handle, pfx)] }
      | _ => .ok p
  (go (p.tokens.length + 1) false p).map fun p =>
    { p with handles := p.handles ++
        defaultTagDirectives.filter fun (h, _) => !p.handles.any (·.1 == h) }

/-- Whether a token may stand before a document's content. -/
def isDocumentBoundary : Token → Bool
  | .versionDirective _ _ | .tagDirective _ _ | .documentStart | .documentEnd | .streamEnd => true
  | _ => false

/-- Passes `...` tokens. -/
def skipDocumentEnds : Nat → Walk → Walk
  | 0, p => p
  | fuel + 1, p => if p.peek == .documentEnd then skipDocumentEnds fuel p.skip else p

/-- The start of a document, or the end of the stream. -/
def documentStart (p : Walk) (implicit : Bool) : Except String (Event × Walk) :=
  let p := if implicit then p else skipDocumentEnds (p.tokens.length + 1) p
  match p.peek with
  | .streamEnd => .ok (.streamEnd, { p.skip with place := .finished })
  | t =>
    if implicit && !(isDocumentBoundary t && t != .documentEnd) then
      (p.directives).map fun p => (.documentStart, p.enter .blockNode .documentEnd)
    else
      match p.directives with
      | .error e => .error e
      | .ok p =>
        if p.peek == .documentStart then
          .ok (.documentStart, (p.enter .documentContent .documentEnd).skip)
        else .error "expected a document start"

/-- The full tag of a handle and a suffix. -/
def resolveTag (p : Walk) (handle suffix : String) : Except String String :=
  if handle.isEmpty then .ok suffix
  else
    match p.handles.lookup handle with
    | some pfx => .ok (pfx ++ suffix)
    | none => .error "undefined tag handle"

/-- The optional anchor and tag in front of a node, in either order. -/
def properties (p : Walk) : Except String (Option String × Option String × Walk) :=
  match p.peek with
  | .anchor a =>
    let p := p.skip
    match p.peek with
    | .tag h x => (p.resolveTag h x).map fun t => (some a, some t, p.skip)
    | _ => .ok (some a, none, p)
  | .tag h x =>
    match p.resolveTag h x with
    | .error e => .error e
    | .ok t =>
      let p := p.skip
      match p.peek with
      | .anchor a => .ok (some a, some t, p.skip)
      | _ => .ok (none, some t, p)
  | _ => .ok (none, none, p)

/-- A node: in a block context (`block`) collections may be block ones, and as a mapping value
    (`indentless`) a sequence may start without indentation. -/
def node (p : Walk) (block indentless : Bool) : Except String (Event × Walk) :=
  match p.peek with
  | .alias a => .ok (.alias a, p.skip.pop)
  | _ =>
    match p.properties with
    | .error e => .error e
    | .ok (anchor, tag, p) =>
      match p.peek with
      | .blockEntry =>
        if indentless then .ok (.sequenceStart anchor tag, { p with place := .indentlessSequenceEntry })
        else if anchor.isSome || tag.isSome then .ok (.scalar anchor tag "" .plain, p.pop)
        else .error "expected node content"
      | .scalar text style => .ok (.scalar anchor tag text style, p.skip.pop)
      | .flowSequenceStart => .ok (.sequenceStart anchor tag, { p with place := .flowSequenceFirstEntry })
      | .flowMappingStart => .ok (.mappingStart anchor tag, { p with place := .flowMappingFirstKey })
      | .blockSequenceStart =>
        if block then .ok (.sequenceStart anchor tag, { p with place := .blockSequenceFirstEntry })
        else if anchor.isSome || tag.isSome then .ok (.scalar anchor tag "" .plain, p.pop)
        else .error "expected node content"
      | .blockMappingStart =>
        if block then .ok (.mappingStart anchor tag, { p with place := .blockMappingFirstKey })
        else if anchor.isSome || tag.isSome then .ok (.scalar anchor tag "" .plain, p.pop)
        else .error "expected node content"
      | _ =>
        if anchor.isSome || tag.isSome then .ok (.scalar anchor tag "" .plain, p.pop)
        else .error "expected node content"

/-- An entry of a block sequence, or its end. -/
def blockSequenceEntry (p : Walk) (first : Bool) : Except String (Event × Walk) :=
  let p := if first then p.skip else p
  match p.peek with
  | .blockEntry =>
    let p := p.skip
    match p.peek with
    | .blockEntry | .blockEnd => .ok (emptyScalar, { p with place := .blockSequenceEntry })
    | _ => (p.enter .blockNode .blockSequenceEntry).node true false
  | .blockEnd => .ok (.sequenceEnd, p.skip.pop)
  | _ => .error "expected a sequence entry"

/-- An entry of a sequence without indentation, or its end. -/
def indentlessSequenceEntry (p : Walk) : Except String (Event × Walk) :=
  match p.peek with
  | .blockEntry =>
    let p := p.skip
    match p.peek with
    | .blockEntry | .key | .value | .blockEnd =>
      .ok (emptyScalar, { p with place := .indentlessSequenceEntry })
    | _ => (p.enter .blockNode .indentlessSequenceEntry).node true false
  | _ => .ok (.sequenceEnd, p.pop)

/-- A key of a block mapping, or its end. -/
def blockMappingKey (p : Walk) (first : Bool) : Except String (Event × Walk) :=
  let p := if first then p.skip else p
  match p.peek with
  | .key =>
    let p := p.skip
    match p.peek with
    | .key | .value | .blockEnd => .ok (emptyScalar, { p with place := .blockMappingValue })
    | _ => (p.enter .blockNodeOrIndentlessSequence .blockMappingValue).node true true
  | .blockEnd => .ok (.mappingEnd, p.skip.pop)
  | _ => .error "expected a key"

/-- A value of a block mapping. -/
def blockMappingValue (p : Walk) : Except String (Event × Walk) :=
  match p.peek with
  | .value =>
    let p := p.skip
    match p.peek with
    | .key | .value | .blockEnd => .ok (emptyScalar, { p with place := .blockMappingKey })
    | _ => (p.enter .blockNodeOrIndentlessSequence .blockMappingKey).node true true
  | _ => .ok (emptyScalar, { p with place := .blockMappingKey })

/-- An entry of a flow sequence, or its end. -/
def flowSequenceEntry (p : Walk) (first : Bool) : Except String (Event × Walk) :=
  let p := if first then p.skip else p
  let finish := fun (p : Walk) => Except.ok (Event.sequenceEnd, p.skip.pop)
  if p.peek == .flowSequenceEnd then finish p
  else
    let next : Except String Walk :=
      if first then .ok p
      else if p.peek == .flowEntry then .ok p.skip
      else .error "expected , or ]"
    match next with
    | .error e => .error e
    | .ok p =>
      match p.peek with
      | .key => .ok (.mappingStart none none, { p.skip with place := .flowSequenceEntryMappingKey })
      | .flowSequenceEnd => finish p
      | _ => (p.enter .flowNode .flowSequenceEntry).node false false

/-- The key of a one-entry mapping in a flow sequence. An empty key also uses up the token
    after the `?`, so that `[? : x]` and `[?, x]` are refused and `[?]` runs past its `]`. -/
def flowSequenceEntryMappingKey (p : Walk) : Except String (Event × Walk) :=
  match p.peek with
  | .value | .flowEntry | .flowSequenceEnd =>
    .ok (emptyScalar, { p.skip with place := .flowSequenceEntryMappingValue })
  | _ => (p.enter .flowNode .flowSequenceEntryMappingValue).node false false

/-- The value of a one-entry mapping in a flow sequence. -/
def flowSequenceEntryMappingValue (p : Walk) : Except String (Event × Walk) :=
  let empty := fun (p : Walk) =>
    Except.ok (emptyScalar, { p with place := .flowSequenceEntryMappingEnd })
  match p.peek with
  | .value =>
    let p := p.skip
    match p.peek with
    | .flowEntry | .flowSequenceEnd => empty p
    | _ => (p.enter .flowNode .flowSequenceEntryMappingEnd).node false false
  | _ => empty p

/-- A key of a flow mapping, or its end. -/
def flowMappingKey (p : Walk) (first : Bool) : Except String (Event × Walk) :=
  let p := if first then p.skip else p
  let finish := fun (p : Walk) => Except.ok (Event.mappingEnd, p.skip.pop)
  if p.peek == .flowMappingEnd then finish p
  else
    let next : Except String Walk :=
      if first then .ok p
      else if p.peek == .flowEntry then .ok p.skip
      else .error "expected , or \x7d"
    match next with
    | .error e => .error e
    | .ok p =>
      match p.peek with
      | .key =>
        let p := p.skip
        match p.peek with
        | .value | .flowEntry | .flowMappingEnd => .ok (emptyScalar, { p with place := .flowMappingValue })
        | _ => (p.enter .flowNode .flowMappingValue).node false false
      | .flowMappingEnd => finish p
      | _ => (p.enter .flowNode .flowMappingEmptyValue).node false false

/-- A value of a flow mapping; `empty` after a key written without `:`. -/
def flowMappingValue (p : Walk) (empty : Bool) : Except String (Event × Walk) :=
  let none' := fun (p : Walk) => Except.ok (emptyScalar, { p with place := .flowMappingKey })
  if empty then none' p
  else
    match p.peek with
    | .value =>
      let p := p.skip
      match p.peek with
      | .flowEntry | .flowMappingEnd => none' p
      | _ => (p.enter .flowNode .flowMappingKey).node false false
    | _ => none' p

/-- The next event and the walk after it. -/
def step (p : Walk) : Except String (Event × Walk) :=
  match p.place with
  | .streamStart =>
    if p.peek == .streamStart then .ok (.streamStart, { p.skip with place := .implicitDocumentStart })
    else .error "expected the stream start"
  | .implicitDocumentStart => p.documentStart true
  | .documentStart => p.documentStart false
  | .documentContent =>
    if isDocumentBoundary p.peek then .ok (emptyScalar, p.pop) else p.node true false
  | .documentEnd =>
    let p := if p.peek == .documentEnd then p.skip else p
    .ok (.documentEnd, { p with place := .documentStart, handles := [] })
  | .blockNode => p.node true false
  | .blockNodeOrIndentlessSequence => p.node true true
  | .flowNode => p.node false false
  | .blockSequenceFirstEntry => p.blockSequenceEntry true
  | .blockSequenceEntry => p.blockSequenceEntry false
  | .indentlessSequenceEntry => p.indentlessSequenceEntry
  | .blockMappingFirstKey => p.blockMappingKey true
  | .blockMappingKey => p.blockMappingKey false
  | .blockMappingValue => p.blockMappingValue
  | .flowSequenceFirstEntry => p.flowSequenceEntry true
  | .flowSequenceEntry => p.flowSequenceEntry false
  | .flowSequenceEntryMappingKey => p.flowSequenceEntryMappingKey
  | .flowSequenceEntryMappingValue => p.flowSequenceEntryMappingValue
  | .flowSequenceEntryMappingEnd => .ok (.mappingEnd, { p with place := .flowSequenceEntry })
  | .flowMappingFirstKey => p.flowMappingKey true
  | .flowMappingKey => p.flowMappingKey false
  | .flowMappingValue => p.flowMappingValue false
  | .flowMappingEmptyValue => p.flowMappingValue true
  | .finished => .error "no events after the stream end"

/-- The events from the walk's place up to the stream end, at most `fuel` of them. -/
def run : Nat → Walk → List Event → Except String (List Event)
  | 0, _, _ => .error "too many events"
  | fuel + 1, p, acc =>
    match p.step with
    | .error e => .error e
    | .ok (.streamEnd, _) => .ok (Event.streamEnd :: acc).reverse
    | .ok (e, p) => run fuel p (e :: acc)

end Walk

/-- The events of a token list. -/
def Event.ofTokens (ts : List Token) : Except String (List Event) :=
  Walk.run (8 * ts.length + 16) { tokens := ts } []

end Yaml

end Alternation
