import Alternation.Pattern.Walk
import Alternation.Trie.Basic

/-!
# Whole patterns: grouping and word boundaries

A pattern is the body of a tree, put into a group and between word boundaries on request. The
group is capturing, non-capturing, or absent; asking for boundaries without choosing a group
gives a non-capturing one, so that the boundaries hold around the whole alternation and not only
around its first and last alternates. A tree without branches has the empty body.

Main results:

* `Pattern.groupFor`: the group chosen for a boundary request and a grouping request.
* `Pattern.wrap`: the body in its group and boundaries.
* `Node.pattern`, `Trie.pattern`: the pattern of a tree and of a trie.
-/

namespace Alternation

namespace Pattern

/-- The grouping in effect: a request for boundaries without a choice of group gives a
    non-capturing group; `some true` is capturing, `some false` non-capturing, `none` no group. -/
def groupFor (boundary : Bool) (capturing : Option Bool) : Option Bool :=
  match capturing with
  | none => if boundary then some false else none
  | some c => some c

/-- A body in its group, between word boundaries when asked. -/
def wrap (body : String) (boundary : Bool) (group : Option Bool) : String :=
  let grouped :=
    match group with
    | some true => "(" ++ body ++ ")"
    | some false => "(?:" ++ body ++ ")"
    | none => body
  if boundary then "\\b" ++ grouped ++ "\\b" else grouped

end Pattern

/-- The pattern of a tree for a boundary request and a grouping request. -/
def Node.pattern (n : Node) (boundary : Bool) (capturing : Option Bool) : String :=
  Pattern.wrap (n.bodyByStack?.getD "") boundary (Pattern.groupFor boundary capturing)

/-- The pattern of a trie's members for a boundary request and a grouping request. -/
def Trie.pattern (t : Trie) (boundary : Bool) (capturing : Option Bool) : String :=
  t.root.pattern boundary capturing

end Alternation
