import Alternation.Path

/-!
# Files of a run

A run reads and writes files through `FileSystem`, so that it can run on real files or on a
`Workspace`: a directory held as a list of files, each a relative path and its text, sorted by
path, together with the text of the standard input.

A path names a file of the workspace by its components: empty and `.` components are dropped and
`..` goes up one directory; a rooted path, or one that goes above the workspace, names nothing in
it. A name or `..` is looked up inside a directory, so every component a path passes through on
its way must be an existing directory. A path that ends with `/`, `.` or `..` names a directory.
The directories of a workspace are the proper prefixes of its file paths. A file can be written
when its directory exists and no directory has its path.

Main results:

* `FileSystem`: reading and writing files and reading the standard input.
* `Workspace.locate`, `Workspace.resolve`: the components a path names.
* `Workspace.read?`, `Workspace.write?`: the primitives of the pure instance.
-/

namespace Alternation

namespace Cli

/-- Reading and writing the files of a run. -/
class FileSystem (m : Type → Type) where
  /-- The text of a file, or `none` when it cannot be read. -/
  readFile? : String → m (Option String)
  /-- Whether a path names an existing file. -/
  isFile : String → m Bool
  /-- Creates or replaces a file; `false` when it cannot be written. -/
  writeFile : String → String → m Bool
  /-- The text of the standard input. -/
  readStdin : m String

/-- A directory of files, sorted by path, and the text of the standard input. -/
structure Workspace where
  files : List (String × String) := []
  stdin : String := ""
deriving Repr, Inhabited

namespace Workspace

/-- The components reached from `cs` by one component of a path, when `inside cs` holds for the
    directories a name or `..` is looked up in. -/
def step (inside : List String → Bool) (acc : Option (List String)) (seg : List Char) :
    Option (List String) :=
  acc.bind fun cs =>
    if seg.isEmpty || seg == ['.'] then some cs
    else if !inside cs then none
    else if seg == ['.', '.'] then
      match cs with
      | [] => none
      | _ => some cs.dropLast
    else some (cs ++ [String.ofList seg])

/-- The components a path names inside the workspace, from the workspace on, when `inside` holds
    for the directories it passes through; `none` for a rooted path or one that leaves the
    workspace. -/
def locateWithin (inside : List String → Bool) (p : String) : Option (List String) :=
  if p.startsWith "/" then none
  else (Text.splitOn ['/'] p.toList).foldl (step inside) (some [])

/-- The components a path names when every directory on its way is taken to exist. -/
def locate (p : String) : Option (List String) :=
  locateWithin (fun _ => true) p

/-- Whether a path can only name a directory: it ends with `/`, `.` or `..`. -/
def namesDirectory (p : String) : Bool :=
  match (Text.splitOn ['/'] p.toList).getLast? with
  | some seg => seg.isEmpty || seg == ['.'] || seg == ['.', '.']
  | none => true

/-- The path of a file of the workspace from its components. -/
def keyOf (cs : List String) : String :=
  "/".intercalate cs

/-- Whether the components name a directory of the workspace. -/
def isDirectory (w : Workspace) (cs : List String) : Bool :=
  cs.isEmpty || w.files.any fun (k, _) => (keyOf cs ++ "/").isPrefixOf k

/-- The components a path names in the workspace, passing only through its directories. -/
def resolve (w : Workspace) (p : String) : Option (List String) :=
  locateWithin w.isDirectory p

/-- The text of the file a path names. -/
def read? (w : Workspace) (p : String) : Option String :=
  if namesDirectory p then none
  else (w.resolve p).bind fun cs => w.files.lookup (keyOf cs)

/-- Puts a file into the sorted file list, replacing a file of the same path. -/
def insertFile (key text : String) : List (String × String) → List (String × String)
  | [] => [(key, text)]
  | (k, t) :: rest =>
    if key < k then (key, text) :: (k, t) :: rest
    else if key = k then (key, text) :: rest
    else (k, t) :: insertFile key text rest

/-- The workspace with a file created or replaced, or `none` when the path names no writable
    file: its directory must exist and it must not be a directory. -/
def write? (w : Workspace) (p : String) (text : String) : Option Workspace :=
  if namesDirectory p then none
  else
    match w.resolve p with
    | none => none
    | some cs =>
      if cs.isEmpty || w.isDirectory cs || !w.isDirectory cs.dropLast then none
      else some { w with files := insertFile (keyOf cs) text w.files }

/-- A workspace holding the given files, with their directories, and the standard input. -/
def ofFiles (files : List (String × String)) (stdin : String) : Workspace :=
  { files := files.foldl (fun acc (p, t) =>
      match locate p with
      | some cs => if cs.isEmpty then acc else insertFile (keyOf cs) t acc
      | none => acc) [],
    stdin := stdin }

end Workspace

instance : FileSystem (StateM Workspace) where
  readFile? p := do return (← get).read? p
  isFile p := do return ((← get).read? p).isSome
  writeFile p t := do
    match (← get).write? p t with
    | some w => set w; return true
    | none => return false
  readStdin := do return (← get).stdin

end Cli

end Alternation
