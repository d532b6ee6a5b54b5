import Alternation.Yaml.Token.Scalar
import Alternation.Yaml.Token.Property

/-!
# Scanning a YAML text into tokens

The lexer reads tokens one after the other. Two kinds of token are decided late.

*Block structure.* The lexer keeps a stack of indentations. A sequence entry `- ` or a mapping
key at a column deeper than the current indentation opens a block collection there, with a block
start token; a line that starts left of the current indentation closes collections, one block end
token each.

*Simple keys.* A mapping key written without `?` is only known to be a key when its `:` comes. So
where a key may start (at the start of a line, after `- `, `?`, `:` in a block, after `[`, `{` and
`,` in a flow collection) the lexer remembers the position of the next token. When a `:`
follows on the same line within 1024 characters, a key token, and if needed a mapping start, is
put in at that position. A remembered key that is too far away lapses; in a block collection, one
that starts at the collection's own indentation must be a key, and its lapse is refused.

Tabs may separate tokens in a flow collection and after a token that cannot start a key, but not
where indentation is counted.

Main results:

* `Yaml.Lexer.fetch`: reads the next token or tokens.
* `Yaml.Token.scan`: all tokens of a text, or why it cannot be read.
-/

namespace Alternation

namespace Yaml

/-- A position where a simple key may start: whether it still may, whether it must, the place in
    the token list its key token goes to, and its mark. -/
structure SimpleKey where
  possible : Bool := false
  required : Bool := false
  tokenNumber : Nat := 0
  mark : Mark := {}
deriving Repr, Inhabited

/-- The lexer: the cursor, the tokens so far, the flow depth, the current indentation (`-1` at
    the top) and the enclosing ones, whether a simple key may start here, one remembered simple
    key per flow level (the innermost first), and whether the stream has ended. -/
structure Lexer where
  cursor : Cursor
  tokens : List Token := []
  flowLevel : Nat := 0
  indent : Int := -1
  indents : List Int := []
  simpleKeyAllowed : Bool := true
  simpleKeys : List SimpleKey := [{}]
  ended : Bool := false
deriving Repr, Inhabited

/-- Puts an element into a list before the element at `n`, or at the end. -/
def insertAt {α : Type} (n : Nat) (a : α) (l : List α) : List α :=
  l.take n ++ a :: l.drop n

namespace Lexer

/-- Appends a token. -/
def push (s : Lexer) (t : Token) : Lexer :=
  { s with tokens := s.tokens ++ [t] }

/-- Lapses the remembered keys that are no longer on the current line or are more than 1024
    characters behind; a lapsing key that must be a key is refused. -/
def staleSimpleKeys (s : Lexer) : Except String Lexer :=
  let m := s.cursor.mark
  let step := fun (k : SimpleKey) =>
    if k.possible && (k.mark.line < m.line || k.mark.index + 1024 < m.index) then
      if k.required then Except.error "simple key without a colon"
      else Except.ok { k with possible := false }
    else Except.ok k
  (s.simpleKeys.mapM step).map fun ks => { s with simpleKeys := ks }

/-- Forgets the remembered key of the current flow level; a key that must be one is refused. -/
def removeSimpleKey (s : Lexer) : Except String Lexer :=
  match s.simpleKeys with
  | k :: rest =>
    if k.possible && k.required then .error "simple key without a colon"
    else .ok { s with simpleKeys := { k with possible := false } :: rest }
  | [] => .ok s

/-- Remembers that a simple key may start at the next token, when one may start here. In a
    block collection a key at the collection's own indentation must be a key. -/
def saveSimpleKey (s : Lexer) : Except String Lexer :=
  if s.simpleKeyAllowed then
    let key : SimpleKey :=
      { possible := true,
        required := s.flowLevel == 0 && s.indent == (s.cursor.mark.column : Int),
        tokenNumber := s.tokens.length,
        mark := s.cursor.mark }
    (s.removeSimpleKey).map fun s =>
      { s with simpleKeys := key :: s.simpleKeys.drop 1 }
  else .ok s

/-- Enters a flow collection. -/
def increaseFlowLevel (s : Lexer) : Lexer :=
  { s with simpleKeys := {} :: s.simpleKeys, flowLevel := s.flowLevel + 1 }

/-- Leaves a flow collection. -/
def decreaseFlowLevel (s : Lexer) : Lexer :=
  if s.flowLevel == 0 then s
  else { s with simpleKeys := s.simpleKeys.drop 1, flowLevel := s.flowLevel - 1 }

/-- Opens a block collection at `column` when it is deeper than the current indentation, putting
    its start token at place `number` of the token list, or at the end. -/
def rollIndent (s : Lexer) (column : Nat) (number : Option Nat) (t : Token) : Lexer :=
  if s.flowLevel == 0 && s.indent < (column : Int) then
    let tokens := match number with
      | some n => insertAt n t s.tokens
      | none => s.tokens ++ [t]
    { s with indents := s.indent :: s.indents, indent := column, tokens := tokens }
  else s

/-- Closes the block collections indented deeper than `column`. -/
def unrollIndent (s : Lexer) (column : Int) : Lexer :=
  if s.flowLevel != 0 then s
  else
    let rec go (indent : Int) (indents : List Int) (tokens : List Token) :
        Int × List Int × List Token :=
      match indents with
      | [] => (indent, [], tokens)
      | i :: rest =>
        if column < indent then go i rest (tokens ++ [.blockEnd]) else (indent, indents, tokens)
    let (indent, indents, tokens) := go s.indent s.indents s.tokens
    { s with indent := indent, indents := indents, tokens := tokens }

/-- Passes blanks, comments and line breaks up to the next token. A tab is passed only in a flow
    collection or where no simple key may start; a byte order mark at the start of a line is
    passed too. After a line break in a block collection a simple key may start. -/
def skipToToken : Nat → Lexer → Lexer
  | 0, s => s
  | fuel + 1, s =>
    let c := s.cursor
    let c := if c.mark.column == 0 && c.check '\uFEFF' then c.skip else c
    let tabs := s.flowLevel != 0 || !s.simpleKeyAllowed
    let c := (c.takeWhile (fun ch => ch = ' ' || (tabs && ch = '\t')) (c.rest.length + 1) []).2
    let c := if c.check '#' then c.skipComment else c
    if c.breakAt 0 then
      skipToToken fuel { s with cursor := c.skipLine,
                                simpleKeyAllowed := s.simpleKeyAllowed || s.flowLevel == 0 }
    else { s with cursor := c }

/-- Ends the stream: closes every block collection and forgets the simple key. -/
def fetchStreamEnd (s : Lexer) : Except String Lexer :=
  let s := s.unrollIndent (-1)
  (s.removeSimpleKey).map fun s =>
    { (s.push .streamEnd) with simpleKeyAllowed := false, ended := true }

/-- A token that closes every block collection first: a directive or a document marker. -/
def fetchAtLineStart (s : Lexer) (read : Cursor → Except String (Token × Cursor)) :
    Except String Lexer := do
  let s := s.unrollIndent (-1)
  let s ← s.removeSimpleKey
  let (t, c) ← read s.cursor
  pure { (s.push t) with simpleKeyAllowed := false, cursor := c }

/-- `[` or `{`. -/
def fetchFlowStart (s : Lexer) (t : Token) : Except String Lexer := do
  let s ← s.saveSimpleKey
  let s := s.increaseFlowLevel
  pure { (s.push t) with simpleKeyAllowed := true, cursor := s.cursor.skip }

/-- `]` or `}`. -/
def fetchFlowEnd (s : Lexer) (t : Token) : Except String Lexer := do
  let s ← s.removeSimpleKey
  let s := s.decreaseFlowLevel
  pure { (s.push t) with simpleKeyAllowed := false, cursor := s.cursor.skip }

/-- `,` in a flow collection. -/
def fetchFlowEntry (s : Lexer) : Except String Lexer := do
  let s ← s.removeSimpleKey
  pure { (s.push .flowEntry) with simpleKeyAllowed := true, cursor := s.cursor.skip }

/-- `- ` before a sequence entry. In a block collection it must stand where a key may start, and
    may open a sequence. -/
def fetchBlockEntry (s : Lexer) : Except String Lexer := do
  let s ← if s.flowLevel == 0 then
      if !s.simpleKeyAllowed then Except.error "sequence entry not allowed here"
      else pure (s.rollIndent s.cursor.mark.column none .blockSequenceStart)
    else pure s
  let s ← s.removeSimpleKey
  pure { (s.push .blockEntry) with simpleKeyAllowed := true, cursor := s.cursor.skip }

/-- `?` before a complex key. -/
def fetchKey (s : Lexer) : Except String Lexer := do
  let s ← if s.flowLevel == 0 then
      if !s.simpleKeyAllowed then Except.error "mapping key not allowed here"
      else pure (s.rollIndent s.cursor.mark.column none .blockMappingStart)
    else pure s
  let s ← s.removeSimpleKey
  pure { (s.push .key) with simpleKeyAllowed := s.flowLevel == 0, cursor := s.cursor.skip }

/-- `:` before a value. After a remembered simple key, the key token (and a mapping start, if
    the key opens a block mapping) goes in at the key's place. -/
def fetchValue (s : Lexer) : Except String Lexer := do
  let s ← match s.simpleKeys with
    | k :: rest =>
      if k.possible then
        let s := { s with tokens := insertAt k.tokenNumber .key s.tokens }
        let s := s.rollIndent k.mark.column (some k.tokenNumber) .blockMappingStart
        pure { s with simpleKeys := { k with possible := false } :: rest, simpleKeyAllowed := false }
      else if s.flowLevel == 0 then
        if !s.simpleKeyAllowed then Except.error "mapping value not allowed here"
        else
          let s := s.rollIndent s.cursor.mark.column none .blockMappingStart
          pure { s with simpleKeyAllowed := true }
      else pure { s with simpleKeyAllowed := false }
    | [] => Except.error "no simple key level"
  pure { (s.push .value) with cursor := s.cursor.skip }

/-- A token that may be a simple key and after which none may start: an anchor, an alias, a tag
    or a quoted scalar. -/
def fetchKeyable (s : Lexer) (read : Cursor → Except String (Token × Cursor)) :
    Except String Lexer := do
  let s ← s.saveSimpleKey
  let (t, c) ← read s.cursor
  pure { (s.push t) with simpleKeyAllowed := false, cursor := c }

/-- A block scalar; a simple key may follow it. -/
def fetchBlockScalar (s : Lexer) (literal : Bool) : Except String Lexer := do
  let s ← s.removeSimpleKey
  let (text, c) ← blockScalar literal s.indent s.cursor
  pure { (s.push (.scalar text (if literal then .literal else .folded))) with
    simpleKeyAllowed := true, cursor := c }

/-- A plain scalar; a simple key may follow it when it ended after a line break. -/
def fetchPlain (s : Lexer) : Except String Lexer := do
  let s ← s.saveSimpleKey
  let (text, broke, c) ← plainScalar (s.flowLevel != 0) s.indent s.cursor
  pure { (s.push (.scalar text .plain)) with simpleKeyAllowed := broke, cursor := c }

/-- Whether a plain scalar may start at the cursor. -/
def plainStarts (s : Lexer) : Bool :=
  let c := s.cursor
  match c.rest with
  | [] => false
  | ch :: _ =>
    let indicator := isBlank ch || isBreak ch || ch = '-' || ch = '?' || ch = ':' || ch = ',' ||
      ch = '[' || ch = ']' || ch = '\x7b' || ch = '\x7d' || ch = '#' || ch = '&' || ch = '*' ||
      ch = '!' || ch = '|' || ch = '>' || ch = '\'' || ch = '"' || ch = '%' || ch = '@' ||
      ch = '\x60'
    !indicator || (ch = '-' && !c.blankAt 1) ||
      (s.flowLevel == 0 && (ch = '?' || ch = ':') && !c.blankzAt 1)

/-- Reads the next token, with the block structure and key tokens it implies. -/
def fetch (s : Lexer) : Except String Lexer := do
  let s := skipToToken (s.cursor.rest.length + 1) s
  let s ← s.staleSimpleKeys
  let s := s.unrollIndent s.cursor.mark.column
  let c := s.cursor
  let flow := s.flowLevel != 0
  if c.atEnd then s.fetchStreamEnd
  else if c.mark.column == 0 && c.check '%' then s.fetchAtLineStart directive
  else if c.mark.column == 0 && c.checkAt 0 '-' && c.checkAt 1 '-' && c.checkAt 2 '-' &&
      c.blankzAt 3 then
    s.fetchAtLineStart fun c => .ok (.documentStart, c.skipN 3)
  else if c.mark.column == 0 && c.checkAt 0 '.' && c.checkAt 1 '.' && c.checkAt 2 '.' &&
      c.blankzAt 3 then
    s.fetchAtLineStart fun c => .ok (.documentEnd, c.skipN 3)
  else if c.check '[' then s.fetchFlowStart .flowSequenceStart
  else if c.check '\x7b' then s.fetchFlowStart .flowMappingStart
  else if c.check ']' then s.fetchFlowEnd .flowSequenceEnd
  else if c.check '\x7d' then s.fetchFlowEnd .flowMappingEnd
  else if c.check ',' then s.fetchFlowEntry
  else if c.check '-' && c.blankzAt 1 then s.fetchBlockEntry
  else if c.check '?' && (flow || c.blankzAt 1) then s.fetchKey
  else if c.check ':' && (flow || c.blankzAt 1) then s.fetchValue
  else if c.check '*' then s.fetchKeyable fun c => (anchorName c).map fun (n, c) => (.alias n, c)
  else if c.check '&' then s.fetchKeyable fun c => (anchorName c).map fun (n, c) => (.anchor n, c)
  else if c.check '!' then
    s.fetchKeyable fun c => (tagToken flow c).map fun ((h, x), c) => (.tag h x, c)
  else if c.check '|' && !flow then s.fetchBlockScalar true
  else if c.check '>' && !flow then s.fetchBlockScalar false
  else if c.check '\'' then
    s.fetchKeyable fun c => (quotedScalar true c).map fun (t, c) => (.scalar t .singleQuoted, c)
  else if c.check '"' then
    s.fetchKeyable fun c => (quotedScalar false c).map fun (t, c) => (.scalar t .doubleQuoted, c)
  else if s.plainStarts then s.fetchPlain
  else .error "character that cannot start a token"

/-- Reads tokens until the stream ends. -/
def run : Nat → Lexer → Except String Lexer
  | 0, _ => .error "too many tokens"
  | fuel + 1, s =>
    if s.ended then .ok s
    else
      match s.fetch with
      | .error e => .error e
      | .ok s => run fuel s

end Lexer

/-- The tokens of a text, from the stream start to the stream end. A character that may not
    appear in a text is refused wherever it stands. -/
def Token.scan (text : String) : Except String (List Token) :=
  let cs := text.toList
  if !cs.all allowed then .error "character not allowed"
  else
    let start : Lexer := { cursor := ⟨cs, {}⟩, tokens := [.streamStart] }
    (Lexer.run (2 * cs.length + 4) start).map (·.tokens)

end Yaml

end Alternation
