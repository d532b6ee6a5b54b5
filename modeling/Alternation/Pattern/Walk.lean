import Alternation.Pattern.Body

/-!
# The alternation of a prefix tree, by an explicit stack

Computes the body of `Pattern.Body` depth first with a stack of frames, one per node on the path
from the root to the node being visited. A frame keeps the branches still to visit and what its
visited branches gave: alternates for those that lead further, characters for the leaf ones. A
leaf branch adds its character to its frame; any other branch pushes a frame; a frame with no
branch left is combined and handed to the frame below as one alternate, or is the result when it
is the root's.

Every step lowers the sum over the frames of one plus twice the size of their pending subtrees:
a leaf branch takes its subtree off, a push takes `2 · size` off its frame and adds
`2 · size - 1` in the new one, and a pop takes a frame off.

Main results:

* `Pattern.Frame.weight`: the measure of a frame.
* `Pattern.walk`: the loop over the stack.
* `Node.bodyByStack?`: the body, `none` when the root has no branch.
-/

namespace Alternation

namespace Pattern

/-- A node being visited: whether it is terminal, the character that leads to it (none for the
    root), its branches still to visit, and the alternates and class characters of its visited
    branches, last first. -/
structure Frame where
  terminal : Bool
  edge : Option Char
  pending : List (Char × Node)
  alternates : List String
  classChars : List Char

namespace Frame

/-- The frame that starts the visit of a node. -/
def start (n : Node) (edge : Option Char) : Frame :=
  ⟨n.terminal, edge, n.children, [], []⟩

/-- The text of a fully visited node. -/
def finish (f : Frame) (outermost : Bool) : String :=
  combine f.terminal f.alternates.reverse f.classChars.reverse outermost

/-- One plus twice the number of nodes still to visit below the frame. -/
def weight (f : Frame) : Nat :=
  1 + 2 * Node.branchSize f.pending

end Frame

/-- The sum of the weights of a stack. -/
def stackWeight : List Frame → Nat
  | [] => 0
  | f :: rest => f.weight + stackWeight rest

/-- Visits the frames of the stack until the root's frame is finished. -/
def walk (stack : List Frame) : Option String :=
  match stack with
  | [] => none
  | f :: rest =>
    match h : f.pending with
    | (c, m) :: more =>
      if m.children.isEmpty then
        walk ({ f with pending := more, classChars := c :: f.classChars } :: rest)
      else
        walk (Frame.start m (some c) :: { f with pending := more } :: rest)
    | [] =>
      let sub := f.finish rest.isEmpty
      match rest, f.edge with
      | p :: below, some c =>
        walk ({ p with alternates := (escapeLiteral c ++ sub) :: p.alternates } :: below)
      | _, _ => some sub
termination_by stackWeight stack
decreasing_by
  · simp only [stackWeight, Frame.weight, h, Node.branchSize_cons, Node.size_eq m]
    omega
  · simp only [stackWeight, Frame.weight, Frame.start, h, Node.branchSize_cons, Node.size_eq m]
    omega
  · simp only [stackWeight, Frame.weight, wfParam]
    omega

end Pattern

namespace Node

/-- The body of a tree's pattern computed by `Pattern.walk`: `none` when the root has no
    branch. -/
def bodyByStack? (n : Node) : Option String :=
  if n.children.isEmpty then none else Pattern.walk [Pattern.Frame.start n none]

end Node

end Alternation
