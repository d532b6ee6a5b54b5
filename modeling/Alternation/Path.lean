import Alternation.Text.Split

/-!
# Path names

Path texts with `/` as separator, read the way a path is split into components. A rooted path
starts with `/`; a path that is `.` or starts with `./` starts at the current directory. The rest
is cut at every `/`; empty segments and `.` segments (other than the leading one) are no
components. The file name is the last component when it is a plain name, not `..`.

A file name splits at its last dot into stem and extension, unless nothing stands before that
dot: then the whole name is the stem and there is no extension. Replacing the file name first
cuts the path back to the end of the component before the file name, then adds the new name
after a `/` unless the path is empty or already ends with one. A path without a file name keeps
its whole text.

A batch writes the pattern of `dir/stem.ext` to `dir/stem.suffix.ext`, and of `dir/stem` to
`dir/stem.suffix`.

Main results:

* `Path.fileName?`: the file name of a path.
* `Path.splitName`: stem and extension of a file name.
* `Path.withFileName`: the path with its file name replaced.
* `Path.outputPath`: the name of a batch output.
-/

namespace Alternation

namespace Path

/-- The lead of a path text: `/` when it is rooted, `.` when it is `.` or starts with `./`,
    else nothing. -/
def lead (cs : List Char) : List Char :=
  match cs with
  | '/' :: _ => ['/']
  | ['.'] => ['.']
  | '.' :: '/' :: _ => ['.']
  | _ => []

/-- The segments of a path text after its lead, between the separators. -/
def segments (cs : List Char) : List (List Char) :=
  Text.splitOn ['/'] (cs.drop (lead cs).length)

/-- Whether a segment is a component: neither empty nor `.`. -/
def isComponent (seg : List Char) : Bool :=
  !(seg.isEmpty || seg == ['.'])

/-- The segments up to the last component. -/
def trimTrailing (segs : List (List Char)) : List (List Char) :=
  (segs.reverse.dropWhile fun seg => !isComponent seg).reverse

/-- The file name: the last component when it is a plain name. -/
def fileName? (cs : List Char) : Option (List Char) :=
  match (trimTrailing (segments cs)).getLast? with
  | some seg => if isComponent seg && seg != ['.', '.'] then some seg else none
  | none => none

/-- The text of a path cut back to the end of the component before its file name. -/
def parentText (cs : List Char) : List Char :=
  lead cs ++ ['/'].intercalate (trimTrailing (trimTrailing (segments cs)).dropLast)

/-- A name added to a path text, after a `/` unless the path is empty or ends with one. -/
def push (base name : List Char) : List Char :=
  match base.getLast? with
  | none => name
  | some '/' => base ++ name
  | some _ => base ++ '/' :: name

/-- The path with its file name replaced by `name`, or with `name` added when it has none. -/
def withFileName (cs name : List Char) : List Char :=
  match fileName? cs with
  | some _ => push (parentText cs) name
  | none => push cs name

/-- Stem and extension of a file name, split at its last dot. The name `..`, a name without a
    dot and a name whose only dot is its first character have no extension. -/
def splitName (name : List Char) : List Char × Option (List Char) :=
  if name = ['.', '.'] then (name, none)
  else
    match name.reverse.span (· != '.') with
    | (_, []) => (name, none)
    | (afterRev, _ :: beforeRev) =>
      if beforeRev.isEmpty then (name, none) else (beforeRev.reverse, some afterRev.reverse)

/-- The name of a batch output: the stem, the suffix and the extension, joined by dots; an
    empty stem when the path has no file name. -/
def outputName (cs suffix : List Char) : List Char :=
  match (fileName? cs).map splitName with
  | some (stem, some ext) => stem ++ '.' :: suffix ++ '.' :: ext
  | some (stem, none) => stem ++ '.' :: suffix
  | none => '.' :: suffix

/-- The path a batch writes the pattern of a file to. -/
def outputPath (path suffix : String) : String :=
  String.ofList (withFileName path.toList (outputName path.toList suffix.toList))

end Path

end Alternation
