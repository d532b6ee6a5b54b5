import Alternation.Decimal.Shortest

/-!
# Laying out a decimal as text

A decimal `d₁.d₂…dₙ · 10 ^ k` is written either positionally or with an exponent. A `Layout`
records the choices a text format makes: the range of leading exponents `k` that are written
positionally and the least number of exponent digits. Both formats of this library write an
integral positional value with a trailing `.0` and always sign the exponent.

Main results:

* `Layout.positional`: `0.` and `-k - 1` zeros before the digits when `k < 0`; otherwise the point
  after `k + 1` digits, padded with zeros and `.0` when there are fewer.
* `Layout.scientific`: the leading digit, the other digits after a point, `e`, the exponent's
  sign and its digits padded to the least width.
* `Layout.render`: the sign, then one of the two.
-/

namespace Alternation

/-- How a text format lays out decimals. -/
structure Layout where
  /-- The least leading exponent written positionally. -/
  plainFrom : Int
  /-- The greatest leading exponent written positionally. -/
  plainTo : Int
  /-- The least number of exponent digits; shorter exponents get leading zeros. -/
  exponentWidth : Nat
deriving DecidableEq, Repr

namespace Layout

/-- `n` zero characters. -/
def zeros (n : Nat) : List Char :=
  List.replicate n '0'

/-- The digits `ds` of a decimal whose leading digit has the exponent `k`, written without an
    exponent. -/
def positional (ds : List Char) (k : Int) : List Char :=
  if k < 0 then
    '0' :: '.' :: zeros ((-k).toNat - 1) ++ ds
  else
    let point := k.toNat + 1
    if point < ds.length then ds.take point ++ '.' :: ds.drop point
    else ds ++ zeros (point - ds.length) ++ ['.', '0']

/-- The digits `ds` of a decimal whose leading digit has the exponent `k`, written as
    `d₁.d₂…dₙe±kk`. -/
def scientific (l : Layout) (ds : List Char) (k : Int) : List Char :=
  let mantissa :=
    match ds with
    | [] => ['0']
    | [d] => [d]
    | d :: rest => d :: '.' :: rest
  let magnitude := Nat.toDigits 10 k.natAbs
  mantissa ++ 'e' :: (if k < 0 then '-' else '+') ::
    (zeros (l.exponentWidth - magnitude.length) ++ magnitude)

/-- The text of a decimal with the given sign bit. -/
def render (l : Layout) (negative : Bool) (d : Decimal) : String :=
  let ds := d.digitChars
  let k := d.leadExponent
  let body := if l.plainFrom ≤ k ∧ k ≤ l.plainTo then positional ds k else l.scientific ds k
  String.ofList (if negative then '-' :: body else body)

end Layout

end Alternation
