/-!
# JSON values

A JSON value as this library reads it. Numbers are told apart as the reader finds them: a
literal without point or exponent is an integer when it fits in 64 bits (non-negative below
`2 ^ 64`, negative from `-2 ^ 63` to `-1`), and every other number, `-0` among them, is the
nearest double. Object fields are kept sorted by key, one field per key.

Main results:

* `Json`: null, booleans, the three kinds of number, strings, arrays and objects.
* `Json.field?`: the value of an object's field.
* `Json.insertField`: adds a field to a key-sorted object, the later value winning.
-/

namespace Alternation

/-- A JSON value. -/
inductive Json where
  | null
  | bool (b : Bool)
  | natural (n : Nat)
  | negative (n : Int)
  | float (x : Float)
  | string (s : String)
  | array (items : List Json)
  | object (fields : List (String × Json))
deriving Inhabited

namespace Json

/-- The value of the field `key` of an object; `none` for a missing field and for anything
    other than an object. -/
def field? (j : Json) (key : String) : Option Json :=
  match j with
  | .object fields => fields.lookup key
  | _ => none

/-- Puts a field into a key-sorted field list, replacing the value of an equal key. -/
def insertField (key : String) (v : Json) : List (String × Json) → List (String × Json)
  | [] => [(key, v)]
  | (k, w) :: rest =>
    if key < k then (key, v) :: (k, w) :: rest
    else if key = k then (key, v) :: rest
    else (k, w) :: insertField key v rest

end Json

end Alternation
