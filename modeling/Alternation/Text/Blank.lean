/-!
# Blank characters

The characters of the Unicode property White_Space: the controls from tab to carriage return, the
space, the next-line control, the no-break spaces, the Ogham space mark, the spaces from en quad
to hair space, the line and paragraph separators, the narrow no-break space, the medium
mathematical space and the ideographic space. The zero-width space is not among them.

Main results:

* `Text.blankRanges`: the property as ranges of code points.
* `Text.isBlank`: membership in the property.
* `Text.trimEnd`: a text without its trailing blanks.
-/

namespace Alternation

namespace Text

/-- The White_Space property as inclusive ranges of code points, ascending. -/
def blankRanges : List (Nat × Nat) :=
  [(0x09, 0x0D), (0x20, 0x20), (0x85, 0x85), (0xA0, 0xA0), (0x1680, 0x1680),
   (0x2000, 0x200A), (0x2028, 0x2029), (0x202F, 0x202F), (0x205F, 0x205F), (0x3000, 0x3000)]

/-- Whether a character is blank. -/
def isBlank (c : Char) : Bool :=
  blankRanges.any fun (lo, hi) => lo ≤ c.toNat && c.toNat ≤ hi

/-- The characters without the trailing blanks. -/
def dropBlankEnd (cs : List Char) : List Char :=
  (cs.reverse.dropWhile isBlank).reverse

/-- A text without its trailing blanks. -/
def trimEnd (s : String) : String :=
  String.ofList (dropBlankEnd s.toList)

end Text

end Alternation
