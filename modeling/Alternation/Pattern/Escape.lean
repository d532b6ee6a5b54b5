/-!
# Escaping characters in patterns

A character is written after a backslash when it is in the escaping table of the place it goes
to: `. ^ $ * + ? ( ) [ { \ |` outside a bracketed class, and `^ - ] \` inside one. A closing
brace or bracket outside a class is left alone. The class table lacks `[`, although the pattern
syntax reads `[` inside a class as the start of a nested class.

Main results:

* `Pattern.escapeLiteral`: a character as an atom outside a class.
* `Pattern.escapeClass`: a character as a member inside a class.
-/

namespace Alternation

namespace Pattern

/-- The characters escaped outside a class. -/
def literalSpecials : List Char :=
  ['.', '^', '$', '*', '+', '?', '(', ')', '[', '\x7b', '\\', '|']

/-- The characters escaped inside a class. -/
def classSpecials : List Char :=
  ['^', '-', ']', '\\']

/-- A character, after a backslash when it is one of `specials`. -/
def escapeWith (specials : List Char) (c : Char) : String :=
  if c ∈ specials then String.ofList ['\\', c] else String.singleton c

/-- A character written to match itself outside a class. -/
def escapeLiteral (c : Char) : String :=
  escapeWith literalSpecials c

/-- A character written to match itself inside a class. -/
def escapeClass (c : Char) : String :=
  escapeWith classSpecials c

end Pattern

end Alternation
