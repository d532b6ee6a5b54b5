import Alternation.Text.Blank

/-!
# Splitting text into pieces

Two ways to cut a text. By a delimiter: from left to right, every occurrence of the delimiter
that does not overlap an earlier one ends a piece, and the text after the last occurrence is the
last piece, empty or not; the empty delimiter occurs before and after every character, so the
pieces are an empty one, each character, and an empty one. By line breaks: every line-break
character ends a piece, a carriage return directly before a line feed ends one together with
it, and the text after the last break is a piece only when it is not empty.

Main results:

* `Text.isLineBreak`: line feed, carriage return, vertical tab, form feed, the information
  separators four to two, next line, and the line and paragraph separators.
* `Text.splitOn`: the pieces between the occurrences of a delimiter.
* `Text.lineRanges`: the byte ranges of the pieces between line breaks.
* `Text.splitLines`: the pieces between line breaks, cut out by their ranges.
* `Text.lines`: the same pieces, read character by character.
-/

namespace Alternation

namespace Text

/-- The characters that end a line. -/
def lineBreaks : List Char :=
  ['\n', '\r', '\x0b', '\x0c', '\x1c', '\x1d', '\x1e', '\x85', '\u2028', '\u2029']

/-- Whether a character ends a line. -/
def isLineBreak (c : Char) : Bool :=
  c ∈ lineBreaks

/-- The pieces of a text between line breaks; `acc` is the current piece, last character
    first. -/
def linesFrom (acc : List Char) : List Char → List (List Char)
  | [] => if acc.isEmpty then [] else [acc.reverse]
  | '\r' :: '\n' :: r => acc.reverse :: linesFrom [] r
  | c :: r => if isLineBreak c then acc.reverse :: linesFrom [] r else linesFrom (c :: acc) r

/-- The pieces of a text between line breaks, without an empty last piece. -/
def lines (cs : List Char) : List (List Char) :=
  linesFrom [] cs

/-- Each character of a text with the byte offset it starts at, counting from `i`. -/
def indexFrom (i : Nat) : List Char → List (Nat × Char)
  | [] => []
  | c :: cs => (i, c) :: indexFrom (i + c.utf8Size) cs

/-- The byte ranges of the pieces between line breaks, from the offsets and characters of a text
    of `size` bytes; `start` is the first byte of the current piece. A break ends the piece at its
    own offset, and the next piece starts after it, one byte further when a carriage return is
    followed by a line feed. What is left after the last break is a piece when it is not empty. -/
def lineRangesFrom (size start : Nat) : List (Nat × Char) → List (Nat × Nat)
  | [] => if start < size then [(start, size)] else []
  | (i, '\r') :: (_, '\n') :: rest => (start, i) :: lineRangesFrom size (i + '\r'.utf8Size + 1) rest
  | (i, c) :: rest =>
    if isLineBreak c then (start, i) :: lineRangesFrom size (i + c.utf8Size) rest
    else lineRangesFrom size start rest

/-- The byte ranges of the pieces of a text between line breaks. -/
def lineRanges (raw : String) : List (Nat × Nat) :=
  lineRangesFrom raw.utf8ByteSize 0 (indexFrom 0 raw.toList)

/-- The pieces of a text between line breaks, each cut out of the text by its byte range. -/
def splitLines (raw : String) : List String :=
  (lineRanges raw).map fun r => String.Pos.Raw.extract raw ⟨r.1⟩ ⟨r.2⟩

/-- The pieces of a text between the occurrences of the non-empty delimiter `d :: ds`; `acc` is
    the current piece, last character first. -/
def splitFrom (d : Char) (ds : List Char) (acc : List Char) (cs : List Char) :
    List (List Char) :=
  match cs with
  | [] => [acc.reverse]
  | c :: r =>
    if (d :: ds).isPrefixOf (c :: r) then acc.reverse :: splitFrom d ds [] (r.drop ds.length)
    else splitFrom d ds (c :: acc) r
termination_by cs.length
decreasing_by
  · simp only [List.length_drop, List.length_cons]
    omega
  · simp only [List.length_cons]
    omega

/-- The pieces of a text between the occurrences of a delimiter. -/
def splitOn (delimiter : List Char) (cs : List Char) : List (List Char) :=
  match delimiter with
  | [] => [] :: cs.map (fun c => [c]) ++ [[]]
  | d :: ds => splitFrom d ds [] cs

end Text

end Alternation
