import Alternation.Decimal.Shortest

/-!
# Reading decimal text

Reads the decimal literals that stand for numbers in requests and inputs: a decimal rounds to
the nearest double (`Float.ofScientific` rounds correctly), and a signed integer literal is read
within the range of 64-bit signed integers.

The float grammar is an optional sign, then either `inf`, `infinity` or `nan` in any letter case,
or digits with an optional point and an optional exponent `e` or `E` with an optional sign and at
least one digit; the mantissa needs one digit before or after the point.

Main results:

* `Decimal.toFloat`: the double nearest to a decimal.
* `Decimal.readFloat?`: the float grammar above.
* `Decimal.readInt64?`: an optional sign and at least one digit, inside `[-2 ^ 63, 2 ^ 63)`.
-/

namespace Alternation

namespace Decimal

/-- The double nearest to the decimal, ties to the even mantissa. -/
def toFloat (d : Decimal) : Float :=
  if 0 ≤ d.exponent then Float.ofScientific d.digits false d.exponent.toNat
  else Float.ofScientific d.digits true (-d.exponent).toNat

/-- The value of a string of decimal digits. -/
def digitsValue (ds : List Char) : Nat :=
  ds.foldl (fun n c => 10 * n + (c.toNat - '0'.toNat)) 0

/-- Splits off the longest prefix of decimal digits. -/
def spanDigits (cs : List Char) : List Char × List Char :=
  (cs.takeWhile Char.isDigit, cs.dropWhile Char.isDigit)

/-- Splits off an optional leading sign: `true` for a minus. -/
def spanSign : List Char → Bool × List Char
  | '-' :: r => (true, r)
  | '+' :: r => (false, r)
  | r => (false, r)

/-- An exponent part after its `e`: an optional sign and at least one digit, nothing after. -/
def readExponent (cs : List Char) : Option Int :=
  let (negative, r) := spanSign cs
  let (ds, rest) := spanDigits r
  if ds.isEmpty || !rest.isEmpty then none
  else
    let v : Int := digitsValue ds
    some (if negative then -v else v)

/-- An unsigned decimal: digits, an optional point with digits, an optional exponent. -/
def readUnsigned? (cs : List Char) : Option Decimal :=
  let (whole, r) := spanDigits cs
  let (fraction, r) := match r with
    | '.' :: r => spanDigits r
    | r => ([], r)
  if whole.isEmpty && fraction.isEmpty then none
  else
    let exponent? := match r with
      | [] => some 0
      | c :: r => if c = 'e' ∨ c = 'E' then readExponent r else none
    exponent?.map fun e => ⟨digitsValue (whole ++ fraction), e - fraction.length⟩

/-- The positive infinity. -/
def infinity : Float :=
  Float.ofBits 0x7FF0000000000000

/-- A quiet not-a-number. -/
def notANumber : Float :=
  Float.ofBits 0x7FF8000000000000

/-- The special words, compared without regard to ASCII letter case. -/
def readSpecial? (cs : List Char) : Option Float :=
  let w := String.ofList (cs.map Char.toLower)
  if w = "inf" ∨ w = "infinity" then some infinity
  else if w = "nan" then some notANumber
  else none

/-- A float literal: an optional sign, then a decimal or a special word. The sign applies to
    every result, so `-0` and `-nan` carry the sign bit. -/
def readFloat? (s : String) : Option Float :=
  let (negative, r) := spanSign s.toList
  if r.isEmpty then none
  else
    let magnitude? := match readUnsigned? r with
      | some d => some d.toFloat
      | none => readSpecial? r
    magnitude?.map fun x => if negative then -x else x

/-- A signed 64-bit integer literal: an optional sign and at least one digit, all digits. -/
def readInt64? (s : String) : Option Int :=
  let (negative, r) := spanSign s.toList
  if r.isEmpty || !r.all Char.isDigit then none
  else
    let v : Int := if negative then -(digitsValue r : Int) else digitsValue r
    if -Int.pow 2 63 ≤ v ∧ v < Int.pow 2 63 then some v else none

end Decimal

end Alternation
