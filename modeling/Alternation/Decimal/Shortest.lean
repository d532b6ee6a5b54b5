/-!
# Shortest decimal digits of a double

A finite double is a magnitude `m · 2 ^ q` read off its bit pattern. The reals that round back
to it fill an interval around it: from the midpoint with the next double below to the midpoint
with the next double above, the two midpoints included exactly when `m` is even.

The shortest decimal of the double is a decimal of the fewest significant digits inside that
interval, and of those the nearest to the double. With `10 ^ k` the largest power of ten not
above the double, a decimal of `n` significant digits is a point of the grid `10 ^ (k - n + 1)`.
When some point of that grid lies in the interval, so does one of the two grid points that
enclose the double, because the interval contains the double. So for `n = 1, 2, …` it is enough
to test those two neighbours, in exact arithmetic on natural numbers; seventeen digits always
suffice.

The double can lie exactly halfway between the two neighbours, as `2 ^ (-25)` does between
`2.9802322387695312e-8` and `2.9802322387695313e-8`. Printers differ on that tie: some take the
upper neighbour, others the one whose last digit is even, so the choice is a parameter, `Tie`.

Main results:

* `Binary64.ofBits`: sign, class and exact magnitude of a bit pattern.
* `Binary.shortest`: the fewest significant digits that read back, the nearest of them, a tie
  broken by a `Tie` rule.
* `Decimal.trim`: the same decimal with its trailing zero digits moved into the exponent.
-/

namespace Alternation

/-- A positive binary magnitude `mantissa · 2 ^ exponent`. `narrowBelow` says that the next
    double below lies half as far away as the next double above: the mantissa is the least of a
    binade that has another binade beneath it. -/
structure Binary where
  mantissa : Nat
  exponent : Int
  narrowBelow : Bool
deriving DecidableEq, Repr

/-- What a double holds: not a number, or an infinity, a zero or a positive magnitude together
    with the sign bit. -/
inductive Binary64 where
  | nan
  | infinite (negative : Bool)
  | zero (negative : Bool)
  | finite (negative : Bool) (magnitude : Binary)
deriving DecidableEq, Repr

/-- How a double exactly halfway between two decimals of the shortest length is written: with
    the upper one, or with the one whose digit string is even. -/
inductive Tie where
  | up
  | even
deriving DecidableEq, Repr

/-- A decimal `digits · 10 ^ exponent` with a natural digit string. -/
structure Decimal where
  digits : Nat
  exponent : Int
deriving DecidableEq, Repr

namespace Binary64

/-- Splits a bit pattern into its sign bit, its biased exponent and its fraction. A biased
    exponent of zero gives the subnormals `fraction · 2 ^ (-1074)`; the others carry the
    hidden bit, `(fraction + 2 ^ 52) · 2 ^ (biased - 1075)`. -/
def ofBits (bits : UInt64) : Binary64 :=
  let negative := bits >>> 63 == 1
  let biased := ((bits >>> 52) &&& 0x7FF).toNat
  let fraction := (bits &&& 0xFFFFFFFFFFFFF).toNat
  if biased = 0x7FF then
    if fraction = 0 then .infinite negative else .nan
  else if biased = 0 then
    if fraction = 0 then .zero negative else .finite negative ⟨fraction, -1074, false⟩
  else
    .finite negative ⟨fraction + Nat.pow 2 52, (biased : Int) - 1075, fraction == 0 && 1 < biased⟩

/-- The class, sign and magnitude of a double. -/
def ofFloat (x : Float) : Binary64 :=
  ofBits x.toBits

end Binary64

/-! ## Exact comparison of scaled naturals -/

/-- Compares `a · 2 ^ s` with `b · 10 ^ t` for natural `a, b` and integer `s, t`, by multiplying
    both sides with `2 ^ (-s) · 10 ^ (-t)` where these exponents are positive. -/
def compareScaled (a : Nat) (s : Int) (b : Nat) (t : Int) : Ordering :=
  compare (a * Nat.pow 2 s.toNat * Nat.pow 10 (-t).toNat)
    (b * Nat.pow 10 t.toNat * Nat.pow 2 (-s).toNat)

/-- The greatest `d` with `d · 10 ^ t ≤ a · 2 ^ s`. -/
def floorScaled (a : Nat) (s : Int) (t : Int) : Nat :=
  (a * Nat.pow 2 s.toNat * Nat.pow 10 (-t).toNat) / (Nat.pow 10 t.toNat * Nat.pow 2 (-s).toNat)

namespace Binary

/-- The lower end of the rounding interval as a multiple of `2 ^ (exponent - 2)`. -/
def lowQuarters (b : Binary) : Nat :=
  if b.narrowBelow then 4 * b.mantissa - 1 else 4 * b.mantissa - 2

/-- The upper end of the rounding interval as a multiple of `2 ^ (exponent - 2)`. -/
def highQuarters (b : Binary) : Nat :=
  4 * b.mantissa + 2

/-- Whether the ends of the rounding interval read back: a tie rounds to the even mantissa. -/
def endsIncluded (b : Binary) : Bool :=
  b.mantissa % 2 == 0

/-- Whether `d · 10 ^ t` lies in the rounding interval, so that it reads back as this value. -/
def readsBack (b : Binary) (d : Nat) (t : Int) : Bool :=
  let q := b.exponent - 2
  let low := compareScaled b.lowQuarters q d t
  let high := compareScaled b.highQuarters q d t
  if b.endsIncluded then low != .gt && high != .lt else low == .lt && high == .gt

/-- The exponent `k` of the largest power of ten not above the value. The value times
    `10 ^ p`, with `p = -exponent` when that is positive, is at least one, and its integer part
    has `k + p + 1` decimal digits. -/
def decimalExponent (b : Binary) : Int :=
  let p := (-b.exponent).toNat
  ((Nat.toDigits 10 (floorScaled b.mantissa b.exponent (-(p : Int)))).length : Int) - 1 - p

/-- The decimal of `n` significant digits nearest to the value among the two grid neighbours
    that read back, if either does; when the value lies halfway between them, `tie` chooses. -/
def candidate (tie : Tie) (b : Binary) (k : Int) (n : Nat) : Option Decimal :=
  let t := k - n + 1
  let d := floorScaled b.mantissa b.exponent t
  match b.readsBack d t, b.readsBack (d + 1) t with
  | true, true =>
    -- `2 · value` against the grid midpoint `(2d + 1) · 10 ^ t`
    match compareScaled (2 * b.mantissa) b.exponent (2 * d + 1) t, tie with
    | .lt, _ => some ⟨d, t⟩
    | .eq, .even => if d % 2 = 0 then some ⟨d, t⟩ else some ⟨d + 1, t⟩
    | _, _ => some ⟨d + 1, t⟩
  | true, false => some ⟨d, t⟩
  | false, true => some ⟨d + 1, t⟩
  | false, false => none

/-- The decimal of the fewest significant digits that reads back as the value, the nearest of
    those, a tie broken by `tie`; seventeen digits always reach one. -/
def shortest (tie : Tie) (b : Binary) : Decimal :=
  let k := b.decimalExponent
  ((List.range 17).findSome? fun i => b.candidate tie k (i + 1)).getD
    ⟨floorScaled b.mantissa b.exponent (k - 16), k - 16⟩

end Binary

namespace Decimal

/-- Moves trailing zero digits into the exponent; zero stays `0 · 10 ^ exponent`. -/
def trim (d : Decimal) : Decimal :=
  if h : d.digits ≠ 0 ∧ d.digits % 10 = 0 then
    trim ⟨d.digits / 10, d.exponent + 1⟩
  else d
termination_by d.digits
decreasing_by exact Nat.div_lt_self (Nat.pos_of_ne_zero h.1) (by decide)

/-- The digit characters of the digit string, most significant first. -/
def digitChars (d : Decimal) : List Char :=
  Nat.toDigits 10 d.digits

/-- The power of ten of the leading digit: `d₁.d₂…dₙ · 10 ^ leadExponent` is the value. -/
def leadExponent (d : Decimal) : Int :=
  d.exponent + d.digitChars.length - 1

end Decimal

namespace Binary64

/-- The sign bit and the shortest decimal of a finite double, a tie broken by `tie`, trailing
    zeros trimmed; zero is `0 · 10 ^ 0`. Not a number and the infinities have none. -/
def decimal? (tie : Tie) : Binary64 → Option (Bool × Decimal)
  | .zero negative => some (negative, ⟨0, 0⟩)
  | .finite negative b => some (negative, (b.shortest tie).trim)
  | _ => none

end Binary64

end Alternation
