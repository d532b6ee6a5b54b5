import Alternation.Decimal.Layout
import Alternation.Json.Write

/-!
# Candidates for membership

A candidate is a raw value offered as a member: a text, an integer, a double, or a value of some
other kind that has no text. Coercion gives a candidate its member text. Integers are written in
decimal and doubles with their shortest digits in `Candidate.floatLayout`, so the text of a double
always holds a point or an exponent, or is `nan`, `inf` or `-inf`; no double shares its text with
an integer.

A value without text is kept as `Unsupported`: the name of its kind and a rendering of it.
Unsupported values are ordered by rendering first and kind second.

Main results:

* `Candidate.floatLayout`: positional for leading exponents from -4 to 15, otherwise `1e-05`,
  `1e+16`.
* `Candidate.coerce`: the member text, or the unsupported value.
* `Candidate.ofJson`: strings, integers and doubles stand for themselves, a natural above
  `2 ^ 63 - 1` for its decimal text, and other values are unsupported with their compact JSON.
-/

namespace Alternation

/-- A value that has no member text: the name of its kind and its rendering. -/
structure Unsupported where
  kind : String
  repr : String
deriving DecidableEq, Repr, Inhabited

namespace Unsupported

/-- Unsupported values are compared by rendering, then by kind. -/
def compare (u v : Unsupported) : Ordering :=
  (Ord.compare u.repr v.repr).then (Ord.compare u.kind v.kind)

instance : Ord Unsupported := ⟨Unsupported.compare⟩

/-- Sorts unsupported values by rendering, then by kind. -/
def sort (us : List Unsupported) : List Unsupported :=
  us.mergeSort fun u v => Unsupported.compare u v != .gt

end Unsupported

/-- A raw value offered as a member. -/
inductive Candidate where
  | text (s : String)
  | integer (n : Int)
  | float (x : Float)
  | unsupported (u : Unsupported)
deriving Inhabited

namespace Candidate

/-- Doubles are positional for leading exponents from -4 to 15, and otherwise carry a signed
    exponent of at least two digits. -/
def floatLayout : Layout := ⟨-4, 15, 2⟩

/-- The member text of a double: `nan` for every not-a-number, `inf` with the sign for the
    infinities, else the shortest digits in `floatLayout`; a double halfway between two shortest
    decimals is written with the upper one. -/
def floatText (x : Float) : String :=
  match Binary64.ofFloat x with
  | .nan => "nan"
  | .infinite negative => if negative then "-inf" else "inf"
  | b =>
    match b.decimal? .up with
    | some (negative, d) => floatLayout.render negative d
    | none => "nan"

/-- The member text of a candidate, or the unsupported value it holds. -/
def coerce : Candidate → Except Unsupported String
  | .text s => .ok s
  | .integer n => .ok (toString n)
  | .float x => .ok (floatText x)
  | .unsupported u => .error u

/-- The candidate a JSON value stands for. -/
def ofJson : Json → Candidate
  | .string s => .text s
  | .natural n => if n < Nat.pow 2 63 then .integer n else .text (toString n)
  | .negative n => .integer n
  | .float x => .float x
  | .null => .unsupported ⟨"null", "null"⟩
  | .bool b => .unsupported ⟨"bool", if b then "true" else "false"⟩
  | j@(.array _) => .unsupported ⟨"array", j.write⟩
  | j@(.object _) => .unsupported ⟨"object", j.write⟩

end Candidate

end Alternation
