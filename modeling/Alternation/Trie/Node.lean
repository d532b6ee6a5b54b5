/-!
# Prefix tree nodes

A node of a prefix tree says whether a word ends at it and lists its branches: a character and
the subtree reached through it, in ascending character order with one branch per character.
The words of a node are the empty word when it is terminal, then the words of each branch with
the branch's character in front, so they come out in ascending code-point order.

Main results:

* `Node.insert`: adds a word, creating the missing nodes of its path.
* `Node.accepts`: whether following the word's characters ends at a terminal node.
* `Node.words`: all words of a node, in ascending order.
* `Node.size`: the number of nodes, which bounds every walk over the tree.
-/

namespace Alternation

/-- A node of a prefix tree: whether a word ends here, and the branches by character in
    ascending order. -/
structure Node where
  terminal : Bool
  children : List (Char × Node)
deriving Inhabited

namespace Node

/-- The node of no word. -/
def empty : Node := ⟨false, []⟩

/-- Whether the node has no branches. -/
def isLeaf (n : Node) : Bool :=
  n.children.isEmpty

/-- The subtree reached through `c`. -/
def child? (n : Node) (c : Char) : Option Node :=
  n.children.lookup c

/-- Replaces the branch of `c` in an ascending branch list by `f` of the current subtree, or
    inserts `f none` at its place when there is none. -/
def alterBranch (c : Char) (f : Option Node → Node) : List (Char × Node) → List (Char × Node)
  | [] => [(c, f none)]
  | (d, m) :: rest =>
    if c < d then (c, f none) :: (d, m) :: rest
    else if c = d then (c, f (some m)) :: rest
    else (d, m) :: alterBranch c f rest

/-- Adds a word below the node. -/
def insert (n : Node) : List Char → Node
  | [] => { n with terminal := true }
  | c :: cs => { n with children := alterBranch c (fun m => (m.getD empty).insert cs) n.children }

/-- Whether the word ends at a terminal node below this one. -/
def accepts (n : Node) : List Char → Bool
  | [] => n.terminal
  | c :: cs =>
    match n.child? c with
    | some m => m.accepts cs
    | none => false

mutual

/-- The words below a node, in ascending code-point order. -/
def words : Node → List (List Char)
  | ⟨terminal, children⟩ => (if terminal then [[]] else []) ++ branchWords children

/-- The words below a list of branches, each with its branch character in front. -/
def branchWords : List (Char × Node) → List (List Char)
  | [] => []
  | (c, m) :: rest => (words m).map (c :: ·) ++ branchWords rest

end

mutual

/-- The number of nodes of a tree. -/
def size : Node → Nat
  | ⟨_, children⟩ => 1 + branchSize children

/-- The number of nodes below a list of branches. -/
def branchSize : List (Char × Node) → Nat
  | [] => 0
  | (_, m) :: rest => size m + branchSize rest

end

@[simp]
theorem accepts_nil (n : Node) : n.accepts [] = n.terminal := rfl

theorem accepts_cons (n : Node) (c : Char) (cs : List Char) :
    n.accepts (c :: cs) = match n.child? c with
      | some m => m.accepts cs
      | none => false := rfl

@[simp]
theorem insert_nil (n : Node) : n.insert [] = { n with terminal := true } := rfl

theorem insert_cons (n : Node) (c : Char) (cs : List Char) :
    n.insert (c :: cs) =
      { n with children := alterBranch c (fun m => (m.getD empty).insert cs) n.children } := rfl

theorem size_eq (m : Node) : m.size = 1 + branchSize m.children := by
  cases m
  simp [size]

theorem branchSize_cons (c : Char) (m : Node) (rest : List (Char × Node)) :
    branchSize ((c, m) :: rest) = m.size + branchSize rest := by
  simp [branchSize]

end Node

end Alternation
