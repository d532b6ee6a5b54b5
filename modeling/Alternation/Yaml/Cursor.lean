/-!
# Reading position in a YAML text

A YAML text is read one character at a time. The reader keeps the characters not yet read and a
mark: how many characters were read, and the line and column of the next one, both counted from
zero.

Line breaks are carriage return, line feed, their pair, next line (U+0085), and the line and
paragraph separators (U+2028, U+2029). A break that enters a scalar's text is a line feed for the
first four, and the separator itself for the last two. Blanks are space and tab.

Only these characters may appear in a text: tab, line feed, carriage return, the printable ASCII
characters, next line, and the code points from U+00A0 up that are not surrogates, U+FFFE or
U+FFFF.

Main results:

* `Yaml.Cursor.skipLine`, `Yaml.Cursor.readLine`: passing a line break.
* `Yaml.allowed`: the characters a text may hold.
-/

namespace Alternation

namespace Yaml

/-- Whether a character is a line break. -/
def isBreak (c : Char) : Bool :=
  c = '\r' || c = '\n' || c = '\x85' || c = '\u2028' || c = '\u2029'

/-- Whether a character is a blank: space or tab. -/
def isBlank (c : Char) : Bool :=
  c = ' ' || c = '\t'

/-- Whether a character may stand in an anchor name or a tag handle: an ASCII letter or digit,
    `_` or `-`. -/
def isWordChar (c : Char) : Bool :=
  ('0' ≤ c && c ≤ '9') || ('a' ≤ c && c ≤ 'z') || ('A' ≤ c && c ≤ 'Z') || c = '_' || c = '-'

/-- The value of a hexadecimal digit. -/
def hexValue? (c : Char) : Option Nat :=
  if '0' ≤ c && c ≤ '9' then some (c.toNat - '0'.toNat)
  else if 'a' ≤ c && c ≤ 'f' then some (c.toNat - 'a'.toNat + 10)
  else if 'A' ≤ c && c ≤ 'F' then some (c.toNat - 'A'.toNat + 10)
  else none

/-- Whether a character may appear in a text. -/
def allowed (c : Char) : Bool :=
  let n := c.toNat
  n = 0x09 || n = 0x0A || n = 0x0D || (0x20 ≤ n && n ≤ 0x7E) || n = 0x85
    || (0xA0 ≤ n && n ≤ 0xD7FF) || (0xE000 ≤ n && n ≤ 0xFFFD) || 0x10000 ≤ n

/-- Where the reader stands: characters read so far, and the line and column of the next. -/
structure Mark where
  index : Nat := 0
  line : Nat := 0
  column : Nat := 0
deriving DecidableEq, Repr, Inhabited

/-- The characters not yet read and the mark of the first of them. -/
structure Cursor where
  rest : List Char
  mark : Mark := {}
deriving Repr, Inhabited

namespace Cursor

/-- The character `k` places ahead. -/
def at? (c : Cursor) (k : Nat) : Option Char :=
  c.rest[k]?

/-- Whether the next character is `ch`. -/
def check (c : Cursor) (ch : Char) : Bool :=
  c.rest.head? == some ch

/-- Whether the character `k` places ahead is `ch`. -/
def checkAt (c : Cursor) (k : Nat) (ch : Char) : Bool :=
  c.at? k == some ch

/-- Whether the text is read to its end. -/
def atEnd (c : Cursor) : Bool :=
  c.rest.isEmpty

/-- Whether the character `k` places ahead is a line break. -/
def breakAt (c : Cursor) (k : Nat) : Bool :=
  match c.at? k with
  | some ch => isBreak ch
  | none => false

/-- Whether the character `k` places ahead is a blank. -/
def blankAt (c : Cursor) (k : Nat) : Bool :=
  match c.at? k with
  | some ch => isBlank ch
  | none => false

/-- Whether the character `k` places ahead is a line break or the end. -/
def breakzAt (c : Cursor) (k : Nat) : Bool :=
  match c.at? k with
  | some ch => isBreak ch
  | none => true

/-- Whether the character `k` places ahead is a blank, a line break or the end. -/
def blankzAt (c : Cursor) (k : Nat) : Bool :=
  match c.at? k with
  | some ch => isBlank ch || isBreak ch
  | none => true

/-- Whether the next character is a space. -/
def atSpace (c : Cursor) : Bool :=
  c.check ' '

/-- Whether the next character is a tab. -/
def atTab (c : Cursor) : Bool :=
  c.check '\t'

/-- Passes one character that is not a line break. -/
def skip (c : Cursor) : Cursor :=
  match c.rest with
  | [] => c
  | _ :: r => ⟨r, { c.mark with index := c.mark.index + 1, column := c.mark.column + 1 }⟩

/-- Passes `n` characters that are not line breaks. -/
def skipN (c : Cursor) : Nat → Cursor
  | 0 => c
  | n + 1 => (c.skip).skipN n

/-- Passes a line break, a carriage return and line feed pair as one; anything else stays. -/
def skipLine (c : Cursor) : Cursor :=
  match c.rest with
  | '\r' :: '\n' :: r => ⟨r, ⟨c.mark.index + 2, c.mark.line + 1, 0⟩⟩
  | ch :: r => if isBreak ch then ⟨r, ⟨c.mark.index + 1, c.mark.line + 1, 0⟩⟩ else c
  | [] => c

/-- Passes a line break and gives the text it stands for in a scalar: a line feed, or the line
    or paragraph separator itself; nothing when the next character is no break. -/
def readLine (c : Cursor) : List Char × Cursor :=
  match c.rest with
  | '\r' :: '\n' :: _ => (['\n'], c.skipLine)
  | ch :: _ =>
    if ch = '\u2028' || ch = '\u2029' then ([ch], c.skipLine)
    else if isBreak ch then (['\n'], c.skipLine)
    else ([], c)
  | [] => ([], c)

/-- Whether a document marker, `---` or `...` followed by a blank, a break or the end, starts
    at the next character, at the start of a line. -/
def atDocumentMarker (c : Cursor) : Bool :=
  c.mark.column == 0 &&
    ((c.checkAt 0 '-' && c.checkAt 1 '-' && c.checkAt 2 '-') ||
      (c.checkAt 0 '.' && c.checkAt 1 '.' && c.checkAt 2 '.')) &&
    c.blankzAt 3

/-- Passes the characters that satisfy `p`, collecting them; `fuel` bounds the count. -/
def takeWhile (p : Char → Bool) : Nat → Cursor → List Char → List Char × Cursor
  | 0, c, acc => (acc.reverse, c)
  | fuel + 1, c, acc =>
    match c.rest with
    | ch :: _ => if p ch then takeWhile p fuel c.skip (ch :: acc) else (acc.reverse, c)
    | [] => (acc.reverse, c)

/-- Passes the blanks at the cursor. -/
def skipBlanks (c : Cursor) : Cursor :=
  (takeWhile isBlank (c.rest.length + 1) c []).2

/-- Passes a comment: everything up to the next line break or the end. -/
def skipComment (c : Cursor) : Cursor :=
  (takeWhile (fun ch => !isBreak ch) (c.rest.length + 1) c []).2

end Cursor

end Yaml

end Alternation
