import Alternation.Yaml.Token

/-!
# YAML directives, anchors and tags

A *directive* stands at the start of a line: `%YAML major.minor` (each number one to nine digits)
or `%TAG handle prefix`; any other name is refused. Only blanks and a comment may follow it on
its line.

An *anchor* `&name` or an *alias* `*name` has a name of ASCII letters, digits, `_` and `-`, and is
followed by a blank, a break, the end, or one of `?:,]}%@` and the backquote.

A *tag* is verbatim, `!<uri>`, or a handle and a suffix: `!suffix`, `!!suffix`, `!name!suffix`.
A handle is `!`, `!!` or `!name!`. A suffix or prefix is made of URI characters, where `%` and two
hexadecimal digits stand for a byte of a UTF-8 sequence. The tag `!` alone is the non-specific
tag: its handle is empty and its suffix is `!`. A tag is followed by a blank, a break or the end,
or, in a flow collection, by a comma.

Main results:

* `Yaml.directive`: a directive line.
* `Yaml.anchorName`: an anchor or alias name.
* `Yaml.tagToken`: a tag's handle and suffix.
-/

namespace Alternation

namespace Yaml

/-- Whether a character may stand in a tag's URI; a verbatim tag or a `%TAG` prefix also takes
    `,`, `[` and `]`. -/
def isUriChar (verbatim : Bool) (c : Char) : Bool :=
  isWordChar c || c = ';' || c = '/' || c = '?' || c = ':' || c = '@' || c = '&' || c = '=' ||
    c = '+' || c = '$' || c = '.' || c = '%' || c = '!' || c = '~' || c = '*' || c = '\'' ||
    c = '(' || c = ')' || (verbatim && (c = ',' || c = '[' || c = ']'))

/-- The number of bytes of a UTF-8 sequence with this leading byte, zero when it leads none. -/
def utf8Width (b : Nat) : Nat :=
  if b < 0x80 then 1
  else if b / 32 = 6 then 2
  else if b / 16 = 14 then 3
  else if b / 8 = 30 then 4
  else 0

/-- The character of a UTF-8 sequence of bytes, each already checked for its place. -/
def utf8Char (bs : List Nat) : Char :=
  match bs with
  | [b] => Char.ofNat b
  | [b0, b1] => Char.ofNat ((b0 % 32) * 64 + b1 % 64)
  | [b0, b1, b2] => Char.ofNat (((b0 % 16) * 64 + b1 % 64) * 64 + b2 % 64)
  | [b0, b1, b2, b3] => Char.ofNat ((((b0 % 8) * 64 + b1 % 64) * 64 + b2 % 64) * 64 + b3 % 64)
  | _ => '\uFFFD'

/-- Reads `%xx` escapes forming one UTF-8 sequence; `left` counts the bytes still expected, zero
    before the leading byte. -/
def uriEscapes : Nat → Nat → Cursor → List Nat → Except String (Char × Cursor)
  | 0, _, _, _ => .error "escape too long"
  | fuel + 1, left, c, acc =>
    match c.rest with
    | '%' :: h :: l :: _ =>
      match hexValue? h, hexValue? l with
      | some h, some l =>
        let b := 16 * h + l
        let c := c.skipN 3
        if left == 0 then
          let w := utf8Width b
          if w == 0 then .error "bad leading byte"
          else if w == 1 then .ok (utf8Char [b], c)
          else uriEscapes fuel (w - 1) c [b]
        else if b / 64 != 2 then .error "bad trailing byte"
        else if left == 1 then .ok (utf8Char (acc ++ [b]), c)
        else uriEscapes fuel (left - 1) c (acc ++ [b])
      | _, _ => .error "bad escape"
    | _ => .error "bad escape"

/-- Reads URI characters, decoding escapes. -/
def uriChars (verbatim : Bool) : Nat → Cursor → List Char → Except String (List Char × Cursor)
  | 0, c, acc => .ok (acc.reverse, c)
  | fuel + 1, c, acc =>
    match c.rest with
    | ch :: _ =>
      if !isUriChar verbatim ch then .ok (acc.reverse, c)
      else if ch = '%' then
        match uriEscapes 5 0 c [] with
        | .error e => .error e
        | .ok (d, c) => uriChars verbatim fuel c (d :: acc)
      else uriChars verbatim fuel c.skip (ch :: acc)
    | [] => .ok (acc.reverse, c)

/-- A tag's URI: the characters of `handle` after its `!` (a handle that turned out to begin the
    suffix), then URI characters. It must not be empty, counting the handle. -/
def tagUri (verbatim : Bool) (handle : Option (List Char)) (c : Cursor) :
    Except String (List Char × Cursor) :=
  let head := handle.getD []
  match uriChars verbatim (c.rest.length + 1) c [] with
  | .error e => .error e
  | .ok (cs, c) =>
    if head.isEmpty && cs.isEmpty then .error "empty tag"
    else .ok (head.drop 1 ++ cs, c)

/-- A tag handle: `!`, then name characters, then `!` if one follows. In a `%TAG` directive the
    handle must end with `!` unless it is `!` alone. -/
def tagHandle (directive : Bool) (c : Cursor) : Except String (List Char × Cursor) :=
  if !c.check '!' then .error "missing !"
  else
    let (name, c) := c.skip.takeWhile isWordChar (c.rest.length + 1) []
    if c.check '!' then .ok ('!' :: name ++ ['!'], c.skip)
    else if directive && !name.isEmpty then .error "handle without closing !"
    else .ok ('!' :: name, c)

/-- A tag at its `!`: its handle and suffix, and the cursor after it. -/
def tagToken (flow : Bool) (c : Cursor) : Except String ((String × String) × Cursor) :=
  let body : Except String ((List Char × List Char) × Cursor) :=
    if c.checkAt 1 '<' then
      match tagUri true none (c.skipN 2) with
      | .error e => .error e
      | .ok (suffix, c) =>
        if c.check '>' then .ok (([], suffix), c.skip) else .error "missing >"
    else
      match tagHandle false c with
      | .error e => .error e
      | .ok (handle, c) =>
        if 2 ≤ handle.length && handle.getLast? == some '!' then
          (tagUri false none c).map fun (suffix, c) => ((handle, suffix), c)
        else
          (tagUri false (some handle) c).map fun (suffix, c) =>
            if suffix.isEmpty then (([], ['!']), c) else ((['!'], suffix), c)
  match body with
  | .error e => .error e
  | .ok ((handle, suffix), c) =>
    if c.blankzAt 0 || (flow && c.check ',') then
      .ok ((String.ofList handle, String.ofList suffix), c)
    else .error "text after a tag"

/-- An anchor or alias name at its `&` or `*`, and the cursor after it. -/
def anchorName (c : Cursor) : Except String (String × Cursor) :=
  let (name, c) := c.skip.takeWhile isWordChar (c.rest.length + 1) []
  let ends := c.blankzAt 0 || c.check '?' || c.check ':' || c.check ',' || c.check ']' ||
    c.check '\x7d' || c.check '%' || c.check '@' || c.check '\x60'
  if name.isEmpty || !ends then .error "bad anchor" else .ok (String.ofList name, c)

/-- A version number of one to nine digits. -/
def versionNumber (c : Cursor) : Except String (Nat × Cursor) :=
  let (ds, c) := c.takeWhile (fun ch => '0' ≤ ch && ch ≤ '9') (c.rest.length + 1) []
  if ds.isEmpty || 9 < ds.length then .error "bad version number"
  else .ok (ds.foldl (fun n d => 10 * n + (d.toNat - '0'.toNat)) 0, c)

/-- A directive at its `%`, through the end of its line. -/
def directive (c : Cursor) : Except String (Token × Cursor) :=
  let (name, c) := c.skip.takeWhile isWordChar (c.rest.length + 1) []
  let body : Except String (Token × Cursor) :=
    if name.isEmpty then .error "no directive name"
    else if !c.blankzAt 0 then .error "bad directive name"
    else if name == "YAML".toList then
      match versionNumber c.skipBlanks with
      | .error e => .error e
      | .ok (major, c) =>
        if !c.check '.' then .error "missing ."
        else (versionNumber c.skip).map fun (minor, c) => (.versionDirective major minor, c)
    else if name == "TAG".toList then
      match tagHandle true c.skipBlanks with
      | .error e => .error e
      | .ok (handle, c) =>
        if !c.blankAt 0 then .error "missing blank after handle"
        else
          match tagUri true none c.skipBlanks with
          | .error e => .error e
          | .ok (pfx, c) =>
            if !c.blankzAt 0 then .error "text after a prefix"
            else .ok (.tagDirective (String.ofList handle) (String.ofList pfx), c)
    else .error "unknown directive"
  match body with
  | .error e => .error e
  | .ok (t, c) =>
    let c := c.skipBlanks
    let c := if c.check '#' then c.skipComment else c
    if c.breakzAt 0 then .ok (t, c.skipLine) else .error "text after a directive"

end Yaml

end Alternation
