import Alternation.Pattern.Walk
import Alternation.Trie.Basic

/-!
# The stack walk computes the recursive body

`Pattern.walk` keeps a frame for every node on the path from the root to the node it visits.
Whatever lies below the top frame, visiting the top frame's pending branches adds to that frame
exactly the alternates and class characters that `Node.branchParts` gives for them: a leaf
branch adds its character, and any other branch pushes a frame, which is visited in turn and
handed back as one alternate. Finishing the root's frame then gives the body by recursion.

Main results:

* `Pattern.walk_visit`: visiting the pending branches of the top frame.
* `Node.bodyByStack?_eq_body?`: the walk and the recursion give the same body.
* `Node.bodyByStack?_eq_recursive_body`: the walk gives no body exactly at a root without
  branches, and otherwise reaches the root's alternation.
-/

namespace Alternation

namespace Pattern

/-- Visiting the pending branches of the top frame adds their alternates and class characters
    to it, last first, and leaves the frames below alone. -/
theorem walk_visit (k : Nat) (f : Frame) (rest : List Frame) (hk : Node.branchSize f.pending ≤ k) :
    walk (f :: rest) =
      walk ({ f with
              pending := []
              alternates := (Node.branchParts f.pending).1.reverse ++ f.alternates
              classChars := (Node.branchParts f.pending).2.reverse ++ f.classChars } :: rest) := by
  -- induction on a bound of the pending subtrees' size: a pushed frame and the remaining
  -- branches both hold fewer nodes than the frame's pending branches
  induction k generalizing f rest with
  | zero =>
    obtain ⟨t, e, pending, alts, cls⟩ := f
    cases pending with
    | nil => rfl
    | cons b more =>
      obtain ⟨c, m⟩ := b
      have := Node.size_eq m
      simp only [Node.branchSize_cons] at hk
      omega
  | succ k ih =>
    obtain ⟨t, e, pending, alts, cls⟩ := f
    cases pending with
    | nil => rfl
    | cons b more =>
      obtain ⟨c, m⟩ := b
      have hsize := Node.size_eq m
      simp only [Node.branchSize_cons] at hk
      have hmore : Node.branchSize more ≤ k := by omega
      by_cases hm : m.children.isEmpty = true
      · -- a leaf branch adds its character to the class
        have hparts : Node.branchParts ((c, m) :: more) =
            ((Node.branchParts more).1, c :: (Node.branchParts more).2) := by
          simp [Node.branchParts, hm]
        rw [walk]
        simp only [hm, if_true]
        rw [ih _ _ hmore, hparts]
        simp
      · -- any other branch is visited in a frame of its own, then handed back as one alternate
        have hparts : Node.branchParts ((c, m) :: more) =
            ((Pattern.escapeLiteral c ++ m.alternation false) :: (Node.branchParts more).1,
              (Node.branchParts more).2) := by
          simp [Node.branchParts, hm]
        have hchild : Node.branchSize (Frame.start m (some c)).pending ≤ k := by
          simp only [Frame.start]
          omega
        rw [walk]
        simp only [hm, Bool.false_eq_true, if_false]
        rw [ih _ _ hchild, walk]
        simp only [Frame.start, Frame.finish, List.isEmpty_cons, List.append_nil,
          List.reverse_reverse]
        have halt : Pattern.combine m.terminal (Node.branchParts m.children).1
            (Node.branchParts m.children).2 false = m.alternation false := by
          obtain ⟨mt, mcs⟩ := m
          simp [Node.alternation]
        rw [halt, ih _ _ hmore, hparts]
        simp

end Pattern

namespace Node

/-- The stack walk gives the body that the recursion on the tree gives. -/
theorem bodyByStack?_eq_body? (n : Node) : n.bodyByStack? = n.body? := by
  unfold bodyByStack? body?
  split
  · rfl
  · rw [Pattern.walk_visit _ _ [] (Nat.le_refl _), Pattern.walk]
    obtain ⟨t, cs⟩ := n
    simp [Pattern.Frame.start, Pattern.Frame.finish, Node.alternation]

/-- On a tree of any depth the stack walk runs to its end and gives the body by recursion: no
    body exactly when the root has no branch, and otherwise the root's alternation, which the walk
    reaches from the root's frame without running out of frames. -/
theorem bodyByStack?_eq_recursive_body (n : Node) :
    n.bodyByStack? = n.body? ∧ (n.bodyByStack? = none ↔ n.children = []) ∧
      (n.children ≠ [] →
        Pattern.walk [Pattern.Frame.start n none] = some (n.alternation true)) := by
  have hbody := bodyByStack?_eq_body? n
  refine ⟨hbody, ?_, fun hne => ?_⟩
  · rw [hbody, body?]
    cases n.children <;> simp
  · have hleaf : n.children.isEmpty = false := List.isEmpty_eq_false_iff.2 hne
    rw [bodyByStack?, body?, hleaf] at hbody
    exact hbody

/-- Below the terminal node `ab` the members `ab`, `abc`, `abd` and `abxy` leave one branch that
    leads further and a class of two leaf characters, so the optional part needs its own group. -/
theorem bodyByStack?_of_mixed_suffix :
    (Trie.ofCandidates [.text "ab", .text "abc", .text "abd", .text "abxy"]).root.children ≠ [] ∧
      Pattern.walk [Pattern.Frame.start
          (Trie.ofCandidates [.text "ab", .text "abc", .text "abd", .text "abxy"]).root none] =
        some "ab(?:(?:xy|[cd]))?" := by
  have hne : (Trie.ofCandidates [.text "ab", .text "abc", .text "abd", .text "abxy"]).root.children
      ≠ [] := by decide
  refine ⟨hne, ?_⟩
  rw [(bodyByStack?_eq_recursive_body _).2.2 hne]
  decide

end Node

end Alternation
