import Alternation.Pattern.Escape
import Alternation.Trie.Node

/-!
# The alternation of a prefix tree

The body of a node's pattern has one alternate per branch that leads further, its escaped
character before the body of the subtree, and one more alternate for the branches that end at a
leaf: their characters gathered into a class, or a single escaped character when there is one.
The alternates are joined with `|`, inside a non-capturing group unless the node is the root or
there is only one. A terminal node makes the whole optional: with a `?` after it when it is a
single class or character, else after a non-capturing group around it.

This module states the body by plain recursion on the tree; `Pattern.Walk` computes the same text
with a stack of its own, so that the depth of a tree costs no call depth.

Main results:

* `Pattern.charClass`, `Pattern.alternation`, `Pattern.optional`: the three ways parts combine.
* `Pattern.combine`: a node's text from its alternates and class characters.
* `Node.body?`: the body of a tree, `none` when the root has no branch.
-/

namespace Alternation

namespace Pattern

/-- The characters of leaf branches as one alternate: the escaped character when there is one,
    else a bracketed class. -/
def charClass (cs : List Char) : String :=
  match cs with
  | [c] => escapeLiteral c
  | _ => "[" ++ String.join (cs.map escapeClass) ++ "]"

/-- Alternates joined with `|`: a single one stands bare, and below the root several are
    wrapped in a non-capturing group. -/
def alternation (alternates : List String) (outermost : Bool) : String :=
  match alternates with
  | [a] => a
  | _ =>
    if outermost then "|".intercalate alternates
    else "(?:" ++ "|".intercalate alternates ++ ")"

/-- A pattern made optional: a bare `?` when no alternate other than the class was present,
    else a non-capturing group first. -/
def optional (p : String) (literalCount : Nat) : String :=
  if literalCount < 1 then p ++ "?" else "(?:" ++ p ++ ")?"

/-- The text of a node from the alternates of its further-leading branches and the characters
    of its leaf branches. -/
def combine (terminal : Bool) (alternates : List String) (classChars : List Char)
    (outermost : Bool) : String :=
  let all := if classChars.isEmpty then alternates else alternates ++ [charClass classChars]
  let joined := alternation all outermost
  if terminal then optional joined alternates.length else joined

end Pattern

namespace Node

mutual

/-- The text of a node that has branches. -/
def alternation : Node → Bool → String
  | ⟨terminal, children⟩, outermost =>
    let parts := branchParts children
    Pattern.combine terminal parts.1 parts.2 outermost

/-- The alternates of the branches that lead further and the characters of the leaf branches,
    in branch order. -/
def branchParts : List (Char × Node) → List String × List Char
  | [] => ([], [])
  | (c, m) :: rest =>
    let parts := branchParts rest
    if m.children.isEmpty then (parts.1, c :: parts.2)
    else ((Pattern.escapeLiteral c ++ alternation m false) :: parts.1, parts.2)

end

/-- The body of a tree's pattern: `none` when the root has no branch. -/
def body? (n : Node) : Option String :=
  if n.children.isEmpty then none else some (n.alternation true)

end Node

end Alternation
