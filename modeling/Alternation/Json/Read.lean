import Alternation.Json.Basic
import Alternation.Decimal.Read

/-!
# Reading JSON text

A reader for JSON text (RFC 8259) with these decisions:

* blanks are space, tab, line feed and carriage return;
* strings refuse control characters below U+0020 and escapes of lone surrogates;
* integer literals become `natural` below `2 ^ 64` and `negative` from `-2 ^ 63` to `-1`; every
  other number is the nearest double, and a number whose nearest double is infinite is refused;
* at most 127 arrays and objects are open at once;
* of two fields with one key the later value stays;
* nothing but blanks may follow the value.

The reader works on the characters of the text with a fuel bound: every call consumes a
character or hands over to a call that does, so twice the length plus two always suffices.

Main results:

* `Json.readString`: the characters of a string after its opening quote.
* `Json.readNumber`: a number literal and its kind.
* `Json.parse`: a whole text as one value, or why it is not one.
* `Json.position`: the line and column of a fault.
-/

namespace Alternation

namespace Json

/-- The most arrays and objects that may be open at once. -/
def maxDepth : Nat := 127

/-- Drops leading blanks. -/
def skipBlank (cs : List Char) : List Char :=
  cs.dropWhile fun c => c = ' ' ∨ c = '\t' ∨ c = '\n' ∨ c = '\r'

/-- The value of a hexadecimal digit. -/
def hexValue (c : Char) : Option Nat :=
  if c.isDigit then some (c.toNat - '0'.toNat)
  else if 'a' ≤ c ∧ c ≤ 'f' then some (c.toNat - 'a'.toNat + 10)
  else if 'A' ≤ c ∧ c ≤ 'F' then some (c.toNat - 'A'.toNat + 10)
  else none

/-- The code unit of four hexadecimal digits. -/
def hex4 (a b c d : Char) : Option Nat := do
  let a ← hexValue a
  let b ← hexValue b
  let c ← hexValue c
  let d ← hexValue d
  pure (((a * 16 + b) * 16 + c) * 16 + d)

/-- Reads the characters of a string up to its closing quote; `acc` holds those read so far,
    last first. -/
def readChars : List Char → List Char → Option (List Char × List Char)
  | [], _ => none
  | '"' :: r, acc => some (acc.reverse, r)
  | '\\' :: '"' :: r, acc => readChars r ('"' :: acc)
  | '\\' :: '\\' :: r, acc => readChars r ('\\' :: acc)
  | '\\' :: '/' :: r, acc => readChars r ('/' :: acc)
  | '\\' :: 'b' :: r, acc => readChars r ('\x08' :: acc)
  | '\\' :: 'f' :: r, acc => readChars r ('\x0c' :: acc)
  | '\\' :: 'n' :: r, acc => readChars r ('\n' :: acc)
  | '\\' :: 'r' :: r, acc => readChars r ('\r' :: acc)
  | '\\' :: 't' :: r, acc => readChars r ('\t' :: acc)
  | '\\' :: 'u' :: a :: b :: c :: d :: r, acc =>
    match hex4 a b c d with
    | none => none
    | some u =>
      if u < 0xD800 ∨ 0xDFFF < u then readChars r (Char.ofNat u :: acc)
      else if 0xDC00 ≤ u then none
      else
        match r with
        | '\\' :: 'u' :: e :: f :: g :: h :: r =>
          match hex4 e f g h with
          | some v =>
            if 0xDC00 ≤ v ∧ v ≤ 0xDFFF then
              readChars r (Char.ofNat (0x10000 + (u - 0xD800) * 0x400 + (v - 0xDC00)) :: acc)
            else none
          | none => none
        | _ => none
  | '\\' :: _, _ => none
  | c :: r, acc => if c.toNat < 0x20 then none else readChars r (c :: acc)

/-- Reads a string after its opening quote. -/
def readString (cs : List Char) : Option (String × List Char) :=
  (readChars cs []).map fun (s, r) => (String.ofList s, r)

/-- Reads the digits of a fraction or an exponent: at least one is needed. -/
def readDigits1 (cs : List Char) : Option (List Char × List Char) :=
  let (ds, r) := Decimal.spanDigits cs
  if ds.isEmpty then none else some (ds, r)

/-- The double nearest to a decimal with a sign, or `none` when that is infinite. -/
def finiteFloat (signed : Bool) (d : Decimal) : Option Json :=
  let x := d.toFloat
  if x.isInf then none else some (.float (if signed then -x else x))

/-- Reads a number literal: an optional minus, `0` or digits not starting with `0`, then an
    optional fraction and an optional exponent. -/
def readNumber (cs : List Char) : Option (Json × List Char) := do
  let (signed, r) := match cs with
    | '-' :: r => (true, r)
    | r => (false, r)
  let (whole, r) ← match r with
    | '0' :: r => some (['0'], r)
    | r => readDigits1 r
  let (fraction, r) ← match r with
    | '.' :: r => readDigits1 r
    | r => some ([], r)
  let (exponent, r) ← match r with
    | c :: r =>
      if c = 'e' ∨ c = 'E' then
        let (minus, r) := Decimal.spanSign r
        match readDigits1 r with
        | some (ds, r) =>
          let e : Int := Decimal.digitsValue ds
          some (some (if minus then -e else e), r)
        | none => none
      else some (none, c :: r)
    | [] => some (none, [])
  let digits := Decimal.digitsValue (whole ++ fraction)
  if fraction.isEmpty ∧ exponent.isNone then
    if signed then
      if digits = 0 ∨ Nat.pow 2 63 < digits then
        let v ← finiteFloat true ⟨digits, 0⟩
        pure (v, r)
      else pure (.negative (-(digits : Int)), r)
    else if digits < Nat.pow 2 64 then pure (.natural digits, r)
    else
      let v ← finiteFloat false ⟨digits, 0⟩
      pure (v, r)
  else
    let v ← finiteFloat signed ⟨digits, exponent.getD 0 - fraction.length⟩
    pure (v, r)

/-- Why a text is not one JSON value: an array or object opened when `maxDepth` of them are
    already open, at the bracket that leaves `rest` characters from itself to the end, or any
    other break of the grammar. -/
inductive Fault where
  | tooDeep (rest : Nat)
  | malformed
deriving DecidableEq, Repr

/-- A step that fails without detail. -/
def orMalformed {α : Type} : Option α → Except Fault α
  | some a => .ok a
  | none => .error .malformed

mutual

/-- Reads one value after optional blanks; `depth` counts the arrays and objects around it. -/
def readValue : Nat → Nat → List Char → Except Fault (Json × List Char)
  | 0, _, _ => .error .malformed
  | fuel + 1, depth, cs =>
    match skipBlank cs with
    | 'n' :: 'u' :: 'l' :: 'l' :: r => .ok (.null, r)
    | 't' :: 'r' :: 'u' :: 'e' :: r => .ok (.bool true, r)
    | 'f' :: 'a' :: 'l' :: 's' :: 'e' :: r => .ok (.bool false, r)
    | '"' :: r => orMalformed ((readString r).map fun (s, r) => (.string s, r))
    | '[' :: r =>
      if maxDepth ≤ depth then .error (.tooDeep (r.length + 1))
      else
        match skipBlank r with
        | ']' :: r => .ok (.array [], r)
        | r => readItems fuel (depth + 1) [] r
    | '\x7b' :: r =>
      if maxDepth ≤ depth then .error (.tooDeep (r.length + 1))
      else
        match skipBlank r with
        | '\x7d' :: r => .ok (.object [], r)
        | r => readFields fuel (depth + 1) [] r
    | r => orMalformed (readNumber r)

/-- Reads the items of an array after its first item began; `acc` holds the items so far,
    last first. -/
def readItems : Nat → Nat → List Json → List Char → Except Fault (Json × List Char)
  | 0, _, _, _ => .error .malformed
  | fuel + 1, depth, acc, cs =>
    match readValue fuel depth cs with
    | .error e => .error e
    | .ok (v, r) =>
      match skipBlank r with
      | ',' :: r => readItems fuel depth (v :: acc) r
      | ']' :: r => .ok (.array (v :: acc).reverse, r)
      | _ => .error .malformed

/-- Reads the fields of an object from a key on; `acc` holds the fields so far, sorted. -/
def readFields : Nat → Nat → List (String × Json) → List Char → Except Fault (Json × List Char)
  | 0, _, _, _ => .error .malformed
  | fuel + 1, depth, acc, cs =>
    match skipBlank cs with
    | '"' :: r =>
      match readString r with
      | none => .error .malformed
      | some (key, r) =>
        match skipBlank r with
        | ':' :: r =>
          match readValue fuel depth r with
          | .error e => .error e
          | .ok (v, r) =>
            let acc := insertField key v acc
            match skipBlank r with
            | ',' :: r => readFields fuel depth acc r
            | '\x7d' :: r => .ok (.object acc, r)
            | _ => .error .malformed
        | _ => .error .malformed
    | _ => .error .malformed

end

/-- Reads a whole text as one JSON value: blanks may stand around it, nothing else. -/
def parse (s : String) : Except Fault Json :=
  let cs := s.toList
  match readValue (2 * cs.length + 2) 0 cs with
  | .ok (v, r) => if (skipBlank r).isEmpty then .ok v else .error .malformed
  | .error e => .error e

/-- The value of a whole text, if it is one. -/
def parse? (s : String) : Option Json :=
  (parse s).toOption

/-- The line and column of the character that leaves `rest` characters of the text from itself
    to the end: lines count from one, and the column is the number of UTF-8 bytes from the start
    of its line up to and including its first byte. -/
def position (s : String) (rest : Nat) : Nat × Nat :=
  let before := s.toList.take (s.length - rest)
  let line := (before.filter (· = '\n')).length + 1
  let lastLine := (before.reverse.takeWhile (· ≠ '\n')).reverse
  (line, (String.ofList lastLine).utf8ByteSize + 1)

end Json

end Alternation
