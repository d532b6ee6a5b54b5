import Alternation.Json.Basic
import Alternation.Decimal.Layout

/-!
# Writing compact JSON text

Writes a value with no blanks. Integers are written in decimal, doubles with their shortest
digits in `Json.floatLayout`, and a double that is not finite as `null`. Strings escape the quote,
the backslash and the characters below U+0020 (`\b \f \n \r \t` short, the others as `\u00xx`
with lower-case hexadecimal digits); every other character stands as it is. Fields are written in
the order of the field list, which the reader keeps sorted by key.

Main results:

* `Json.floatLayout`: positional for leading exponents from -5 to 15, otherwise `1e-6`, `1e+16`.
* `Json.quote`: the text of a string, quotes included.
* `Json.write`: the compact text of a value.
-/

namespace Alternation

namespace Json

/-- Doubles are positional for leading exponents from -5 to 15, and otherwise carry a signed
    exponent without padding. -/
def floatLayout : Layout := ⟨-5, 15, 1⟩

/-- The text of a double: `null` unless it is finite. A double halfway between two shortest
    decimals is written with the even one. -/
def floatText (x : Float) : String :=
  match (Binary64.ofFloat x).decimal? .even with
  | some (minus, d) => floatLayout.render minus d
  | none => "null"

/-- The lower-case hexadecimal digit of a value below 16. -/
def hexDigit (n : Nat) : Char :=
  if n < 10 then Char.ofNat ('0'.toNat + n) else Char.ofNat ('a'.toNat + n - 10)

/-- The characters that stand for one character inside a string. -/
def escapeChar (c : Char) : List Char :=
  if c = '"' then ['\\', '"']
  else if c = '\\' then ['\\', '\\']
  else if c = '\x08' then ['\\', 'b']
  else if c = '\x0c' then ['\\', 'f']
  else if c = '\n' then ['\\', 'n']
  else if c = '\r' then ['\\', 'r']
  else if c = '\t' then ['\\', 't']
  else if c.toNat < 0x20 then
    ['\\', 'u', '0', '0', hexDigit (c.toNat / 16), hexDigit (c.toNat % 16)]
  else [c]

/-- The text of a string, quotes included. -/
def quote (s : String) : String :=
  String.ofList ('"' :: s.toList.flatMap escapeChar ++ ['"'])

mutual

/-- The compact text of a value. -/
def write : Json → String
  | .null => "null"
  | .bool b => if b then "true" else "false"
  | .natural n => toString n
  | .negative n => toString n
  | .float x => floatText x
  | .string s => quote s
  | .array items => "[" ++ writeItems items ++ "]"
  | .object fields => "\x7b" ++ writeFields fields ++ "\x7d"

/-- The items of an array, separated by commas. -/
def writeItems : List Json → String
  | [] => ""
  | [v] => write v
  | v :: rest => write v ++ "," ++ writeItems rest

/-- The fields of an object, separated by commas. -/
def writeFields : List (String × Json) → String
  | [] => ""
  | [(k, v)] => quote k ++ ":" ++ write v
  | (k, v) :: rest => quote k ++ ":" ++ write v ++ "," ++ writeFields rest

end

end Json

end Alternation
