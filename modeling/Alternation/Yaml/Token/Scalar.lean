import Alternation.Yaml.Cursor

/-!
# YAML scalars

The text of a scalar is read from the cursor at its first character. Three kinds are read here.

A *plain* scalar runs over lines. On a line it ends at `: ` (a colon before a blank, a break or
the end), at ` #`, and in a flow collection also at `,`, `[`, `]`, `{` and `}`; a colon there
before one of `,?[]{}` is refused. It ends before a document marker at the start of a line and,
in a block collection, at a line indented less than the scalar's indentation; a tab in that
indentation is refused.

A *quoted* scalar runs to its closing quote: `''` stands for a quote in a single-quoted scalar,
and a double-quoted one has escapes. A document marker at the start of a line, or the end of the
text, inside it is refused.

In both, the blanks and breaks between two lines fold: a single line feed becomes a space, and
each further one stays; a line or paragraph separator stays as it is, and blanks at the start of
the next line go. Blanks inside a line stay.

A *block* scalar (`|` literal, `>` folded) has a header with an optional chomping indicator
(`-` strip, `+` keep) and an optional indentation digit, then lines indented at least as the
first non-empty one, or as the digit says. In a folded scalar a line feed between two lines that
do not start with a blank becomes a space. The final break is kept unless stripped; the blank
lines after it only when kept.

Main results:

* `Yaml.plainScalar`: a plain scalar, and whether it ended after a line break.
* `Yaml.quotedScalar`: a single- or double-quoted scalar.
* `Yaml.blockScalar`: a literal or folded scalar.
-/

namespace Alternation

namespace Yaml

/-- The buffers of a scalar whose lines fold: its text so far (last character first), the first
    break after the last line, the breaks after that one, the blanks after the last word of a
    line, and whether a break was passed since the last word. -/
structure Folding where
  text : List Char := []
  leadingBreak : List Char := []
  trailingBreaks : List Char := []
  whitespaces : List Char := []
  leadingBlanks : Bool := false
deriving Repr, Inhabited

namespace Folding

/-- Adds what stands between the last word and the next one: the blanks, or the folded
    breaks. -/
def join (f : Folding) : Folding :=
  if f.leadingBlanks then
    if f.leadingBreak.head? == some '\n' then
      if f.trailingBreaks.isEmpty then { f with text := ' ' :: f.text, leadingBreak := [] }
      else { f with text := f.trailingBreaks.reverse ++ f.text, trailingBreaks := [],
                    leadingBreak := [] }
    else
      { f with text := (f.leadingBreak ++ f.trailingBreaks).reverse ++ f.text, leadingBreak := [],
               trailingBreaks := [] }
  else { f with text := f.whitespaces.reverse ++ f.text, whitespaces := [] }

end Folding

/-- Passes the blanks and breaks after a word. Blanks before the first break are kept; after a
    break they are indentation, and a tab there before column `tabLimit` is refused. -/
def passBlanks (tabLimit : Option Int) : Nat → Cursor → Folding → Except String (Cursor × Folding)
  | 0, c, f => .ok (c, f)
  | fuel + 1, c, f =>
    match c.rest with
    | ch :: _ =>
      if isBlank ch then
        let early := match tabLimit with
          | some i => (c.mark.column : Int) < i
          | none => false
        if f.leadingBlanks && ch = '\t' && early then .error "tab in indentation"
        else if f.leadingBlanks then passBlanks tabLimit fuel c.skip f
        else passBlanks tabLimit fuel c.skip { f with whitespaces := f.whitespaces ++ [ch] }
      else if isBreak ch then
        let (b, c) := c.readLine
        if f.leadingBlanks then passBlanks tabLimit fuel c { f with trailingBreaks := f.trailingBreaks ++ b }
        else passBlanks tabLimit fuel c { f with whitespaces := [], leadingBreak := b, leadingBlanks := true }
      else .ok (c, f)
    | [] => .ok (c, f)

/-! ## Plain scalars -/

/-- Whether a character ends a plain scalar inside a flow collection. -/
def isFlowIndicator (c : Char) : Bool :=
  c = ',' || c = '[' || c = ']' || c = '\x7b' || c = '\x7d'

/-- Reads the words of one line of a plain scalar. -/
def plainWords (flow : Bool) : Nat → Cursor → Folding → Except String (Cursor × Folding)
  | 0, c, f => .ok (c, f)
  | fuel + 1, c, f =>
    match c.rest with
    | [] => .ok (c, f)
    | ch :: _ =>
      if isBlank ch || isBreak ch then .ok (c, f)
      else if flow && ch = ':' &&
          (match c.at? 1 with
           | some d => isFlowIndicator d || d = '?'
           | none => false) then
        .error "colon before a flow indicator"
      else if (ch = ':' && c.blankzAt 1) || (flow && isFlowIndicator ch) then .ok (c, f)
      else
        let f := if f.leadingBlanks || !f.whitespaces.isEmpty then { f.join with leadingBlanks := false }
          else f
        plainWords flow fuel c.skip { f with text := ch :: f.text }

/-- Reads the lines of a plain scalar indented at least `indent`. -/
def plainLines (flow : Bool) (indent : Int) : Nat → Cursor → Folding → Except String (Cursor × Folding)
  | 0, c, f => .ok (c, f)
  | fuel + 1, c, f =>
    if c.atDocumentMarker || c.check '#' then .ok (c, f)
    else
      match plainWords flow (c.rest.length + 1) c f with
      | .error e => .error e
      | .ok (c, f) =>
        if !(c.blankAt 0 || c.breakAt 0) then .ok (c, f)
        else
          match passBlanks (some indent) (c.rest.length + 1) c f with
          | .error e => .error e
          | .ok (c, f) =>
            if !flow && (c.mark.column : Int) < indent then .ok (c, f)
            else plainLines flow indent fuel c f

/-- A plain scalar inside a collection indented `parent` (`-1` at the top): its text, whether
    it ended after a line break, and the cursor after it. -/
def plainScalar (flow : Bool) (parent : Int) (c : Cursor) : Except String (String × Bool × Cursor) :=
  match plainLines flow (parent + 1) (c.rest.length + 1) c {} with
  | .error e => .error e
  | .ok (c, f) => .ok (String.ofList f.text.reverse, f.leadingBlanks, c)

/-! ## Quoted scalars -/

/-- The character of a one-letter escape `\x`, where `x` is the letter. -/
def simpleEscape? (c : Char) : Option Char :=
  if c = '0' then some '\x00'
  else if c = 'a' then some '\x07'
  else if c = 'b' then some '\x08'
  else if c = 't' || c = '\t' then some '\t'
  else if c = 'n' then some '\n'
  else if c = 'v' then some '\x0B'
  else if c = 'f' then some '\x0C'
  else if c = 'r' then some '\r'
  else if c = 'e' then some '\x1B'
  else if c = ' ' then some ' '
  else if c = '"' then some '"'
  else if c = '/' then some '/'
  else if c = '\'' then some '\''
  else if c = '\\' then some '\\'
  else if c = 'N' then some '\x85'
  else if c = '_' then some '\xA0'
  else if c = 'L' then some '\u2028'
  else if c = 'P' then some '\u2029'
  else none

/-- The number of hexadecimal digits after the escape letters `x`, `u` and `U`. -/
def codeLength? (c : Char) : Option Nat :=
  if c = 'x' then some 2 else if c = 'u' then some 4 else if c = 'U' then some 8 else none

/-- The value of the first `n` characters as hexadecimal digits. -/
def hexPrefix? : Nat → List Char → Nat → Option Nat
  | 0, _, acc => some acc
  | _ + 1, [], _ => none
  | n + 1, ch :: r, acc => (hexValue? ch).bind fun d => hexPrefix? n r (16 * acc + d)

/-- Reads an escape at a backslash: the character it stands for and the cursor after it. -/
def escape (c : Cursor) : Except String (Char × Cursor) :=
  match c.at? 1 with
  | none => .error "escape at the end"
  | some e =>
    match simpleEscape? e with
    | some ch => .ok (ch, c.skipN 2)
    | none =>
      match codeLength? e with
      | none => .error "unknown escape"
      | some n =>
        let c := c.skipN 2
        match hexPrefix? n c.rest 0 with
        | none => .error "short escape"
        | some v =>
          if (0xD800 ≤ v && v ≤ 0xDFFF) || 0x10FFFF < v then .error "escape out of range"
          else .ok (Char.ofNat v, c.skipN n)

/-- Reads the words of one line of a quoted scalar, up to a blank, a break, the closing quote or
    an escaped line break (which it passes). -/
def quotedWords (single : Bool) : Nat → Cursor → Folding → Except String (Cursor × Folding)
  | 0, c, f => .ok (c, f)
  | fuel + 1, c, f =>
    match c.rest with
    | [] => .ok (c, f)
    | ch :: _ =>
      if isBlank ch || isBreak ch then .ok (c, f)
      else if single && ch = '\'' && c.checkAt 1 '\'' then
        quotedWords single fuel (c.skipN 2) { f with text := '\'' :: f.text }
      else if ch = (if single then '\'' else '"') then .ok (c, f)
      else if !single && ch = '\\' && c.breakAt 1 then
        .ok (c.skip.skipLine, { f with leadingBlanks := true })
      else if !single && ch = '\\' then
        match escape c with
        | .error e => .error e
        | .ok (e, c) => quotedWords single fuel c { f with text := e :: f.text }
      else quotedWords single fuel c.skip { f with text := ch :: f.text }

/-- Reads the lines of a quoted scalar up to its closing quote, which it leaves. -/
def quotedLines (single : Bool) : Nat → Cursor → Folding → Except String (Cursor × Folding)
  | 0, _, _ => .error "quoted scalar too long"
  | fuel + 1, c, f =>
    if c.atDocumentMarker then .error "document marker in a quoted scalar"
    else if c.atEnd then .error "end of text in a quoted scalar"
    else
      match quotedWords single (c.rest.length + 1) c { f with leadingBlanks := false } with
      | .error e => .error e
      | .ok (c, f) =>
        if c.check (if single then '\'' else '"') then .ok (c, f)
        else
          match passBlanks none (c.rest.length + 1) c f with
          | .error e => .error e
          | .ok (c, f) => quotedLines single fuel c f.join

/-- A quoted scalar at its opening quote: its text and the cursor after the closing quote. -/
def quotedScalar (single : Bool) (c : Cursor) : Except String (String × Cursor) :=
  let c := c.skip
  match quotedLines single (c.rest.length + 2) c {} with
  | .error e => .error e
  | .ok (c, f) => .ok (String.ofList f.text.reverse, c.skip)

/-! ## Block scalars -/

/-- What happens to the breaks at the end of a block scalar. -/
inductive Chomping where
  | strip
  | clip
  | keep
deriving DecidableEq, Repr

/-- Passes indentation spaces: all of them when `indent` is still open (zero), else those before
    column `indent`. -/
def skipIndent (indent : Nat) : Nat → Cursor → Cursor
  | 0, c => c
  | fuel + 1, c =>
    if (indent == 0 || c.mark.column < indent) && c.atSpace then skipIndent indent fuel c.skip
    else c

/-- Passes the empty lines before a line of a block scalar, collecting their breaks, and fixes
    an open indentation: the deepest of those lines, at least one more than the enclosing
    collection's `parent`, and at least one. A tab in the indentation is refused. -/
def blockBreaks (parent : Int) (indent : Nat) : Nat → Nat → Cursor → List Char →
    Except String (Nat × Cursor × List Char)
  | 0, _, c, b => .ok (indent, c, b)
  | fuel + 1, deepest, c, b =>
    let c := skipIndent indent (c.rest.length + 1) c
    let deepest := max deepest c.mark.column
    if (indent == 0 || c.mark.column < indent) && c.atTab then .error "tab in block indentation"
    else if !c.breakAt 0 then
      let fixed := if indent == 0 then max (max deepest (parent + 1).toNat) 1 else indent
      .ok (fixed, c, b)
    else
      let (br, c) := c.readLine
      blockBreaks parent indent fuel deepest c (b ++ br)

/-- The buffers of a block scalar: its text so far (last character first), the break after the
    last line, the empty lines after it, and whether the last line started with a blank. -/
structure BlockText where
  text : List Char := []
  leadingBreak : List Char := []
  trailingBreaks : List Char := []
  leadingBlank : Bool := false
deriving Repr, Inhabited

/-- Reads the lines of a block scalar at indentation `indent`. -/
def blockLines (literal : Bool) (parent : Int) (indent : Nat) :
    Nat → Cursor → BlockText → Except String (Cursor × BlockText)
  | 0, c, s => .ok (c, s)
  | fuel + 1, c, s =>
    if c.mark.column == indent && !c.atEnd then
      let trailingBlank := c.blankAt 0
      let s :=
        if !literal && s.leadingBreak.head? == some '\n' && !s.leadingBlank && !trailingBlank then
          { s with text := if s.trailingBreaks.isEmpty then ' ' :: s.text else s.text,
                   leadingBreak := [] }
        else { s with text := s.leadingBreak.reverse ++ s.text, leadingBreak := [] }
      let s := { s with text := s.trailingBreaks.reverse ++ s.text, trailingBreaks := [],
                        leadingBlank := c.blankAt 0 }
      let (line, c) := c.takeWhile (fun ch => !isBreak ch) (c.rest.length + 1) []
      let (lb, c) := c.readLine
      let s := { s with text := line.reverse ++ s.text, leadingBreak := lb }
      match blockBreaks parent indent (c.rest.length + 1) 0 c [] with
      | .error e => .error e
      | .ok (_, c, tb) => blockLines literal parent indent fuel c { s with trailingBreaks := tb }
    else .ok (c, s)

/-- The chomping indicator and the indentation digit of a block scalar header. -/
def blockHeader (c : Cursor) : Except String (Chomping × Nat × Cursor) :=
  let chompOf := fun (ch : Char) => if ch = '+' then Chomping.keep else Chomping.strip
  let digit? := fun (c : Cursor) => match c.rest with
    | ch :: _ => if '0' ≤ ch && ch ≤ '9' then some (ch.toNat - '0'.toNat) else none
    | [] => none
  if c.check '+' || c.check '-' then
    let chomp := chompOf (c.rest.headD ' ')
    let c := c.skip
    match digit? c with
    | some 0 => .error "indentation indicator zero"
    | some d => .ok (chomp, d, c.skip)
    | none => .ok (chomp, 0, c)
  else
    match digit? c with
    | some 0 => .error "indentation indicator zero"
    | some d =>
      let c := c.skip
      if c.check '+' || c.check '-' then .ok (chompOf (c.rest.headD ' '), d, c.skip)
      else .ok (.clip, d, c)
    | none => .ok (.clip, 0, c)

/-- A block scalar at its `|` or `>` inside a collection indented `parent` (`-1` at the top):
    its text and the cursor after it. -/
def blockScalar (literal : Bool) (parent : Int) (c : Cursor) : Except String (String × Cursor) :=
  match blockHeader c.skip with
  | .error e => .error e
  | .ok (chomp, increment, c) =>
    let c := c.skipBlanks
    let c := if c.check '#' then c.skipComment else c
    if !c.breakzAt 0 then .error "text after a block scalar header"
    else
      let c := c.skipLine
      let indent := if increment == 0 then 0
        else if 0 ≤ parent then parent.toNat + increment else increment
      match blockBreaks parent indent (c.rest.length + 1) 0 c [] with
      | .error e => .error e
      | .ok (indent, c, tb) =>
        match blockLines literal parent indent (c.rest.length + 1) c { trailingBreaks := tb } with
        | .error e => .error e
        | .ok (c, s) =>
          let text := match chomp with
            | .strip => s.text
            | .clip => s.leadingBreak.reverse ++ s.text
            | .keep => (s.leadingBreak ++ s.trailingBreaks).reverse ++ s.text
          .ok (String.ofList text.reverse, c)

end Yaml

end Alternation
