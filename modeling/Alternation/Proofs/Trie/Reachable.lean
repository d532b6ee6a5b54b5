import Alternation.Proofs.Trie.Shape
import Alternation.Proofs.Trie.Insertion
import Alternation.Pattern.Wrap

/-!
# Reachable tries

A trie is reachable when some sequence of additions, strict or lenient, succeeding or failing,
builds it from the empty trie; the trie of a first batch is one of them. A trie keeps its members
twice, as a member set and as a tree, and the two are updated by separate passes: prune reads the
set, insertion walks the tree and adds to the set, and a failed strict addition leaves both.
Every reachable trie is coherent: its tree is shaped, its member set is ascending with each text
once, and a text is a member exactly when the tree accepts it. The proof is one step lemma per
operation, `Trie.Coherent.insert` and `Trie.Coherent.add`, and an induction over the additions.

Everything the shape gives then holds of the members: every node below the root lies on the path
of a member, and the tree is a function of the member set, so a trie is independent of the order
its members came in.

Main results:

* `Trie.Coherent`: the member set and the tree agree.
* `Trie.Reachable.coherent`: every reachable trie is coherent.
* `Trie.Reachable.tree_agrees_with_members`: the member set, the tree and emptiness agree.
* `Unsupported.sort_eq_of_perm`: sorting the recorded values forgets their order.
* `Trie.additions_commute`: two lenient additions commute, and tries with the same members are
  equal.
-/

namespace Alternation

namespace Node

/-- The subtree reached from a node by following the characters of a path. -/
def descend (n : Node) : List Char → Option Node
  | [] => some n
  | c :: cs => (n.child? c).bind fun m => m.descend cs

theorem accepts_append (n : Node) (p v : List Char) :
    n.accepts (p ++ v) = match n.descend p with
      | some m => m.accepts v
      | none => false := by
  induction p generalizing n with
  | nil => rfl
  | cons c p ih =>
    rw [List.cons_append, accepts_cons, descend]
    cases n.child? c with
    | none => rfl
    | some m => exact ih m

/-- A word is accepted exactly when its path leads to a terminal node. -/
theorem accepts_iff_descend (n : Node) (w : List Char) :
    n.accepts w = true ↔ ∃ m, n.descend w = some m ∧ m.terminal = true := by
  have h := accepts_append n w []
  rw [List.append_nil] at h
  rw [h]
  cases n.descend w with
  | none => simp
  | some m => simp

/-- Every node at the end of a path of a shaped tree is shaped, and below the root it ends a
    word or leads further. -/
theorem Shaped.descend {n m : Node} (h : n.Shaped) {p : List Char} (hp : n.descend p = some m) :
    m.Shaped ∧ (p ≠ [] → m.terminal = true ∨ m.children ≠ []) := by
  induction p generalizing n with
  | nil =>
    cases hp
    exact ⟨h, fun hne => absurd rfl hne⟩
  | cons c p ih =>
    rw [Node.descend, Option.bind_eq_some_iff] at hp
    obtain ⟨m', hm', hp⟩ := hp
    have hmem : (c, m') ∈ n.children := (lookup_eq_some_iff h.keys_nodup).1 hm'
    refine ⟨(ih (h.child hmem) hp).1, fun _ => ?_⟩
    cases p with
    | nil =>
      cases hp
      exact h.live hmem
    | cons d p => exact (ih (h.child hmem) hp).2 (List.cons_ne_nil d p)

/-- Every path below the root of a shaped tree extends to an accepted word. -/
theorem Shaped.exists_extension {n m : Node} (h : n.Shaped) {p : List Char}
    (hp : n.descend p = some m) (hne : p ≠ []) : ∃ v, n.accepts (p ++ v) = true := by
  obtain ⟨hm, hlive⟩ := h.descend hp
  obtain ⟨v, hv⟩ := hm.exists_accepts (hlive hne)
  exact ⟨v, by rw [accepts_append, hp]; exact hv⟩

/-- A shaped tree accepts no word exactly when its root is a leaf that ends no word. -/
theorem Shaped.accepts_none_iff {n : Node} (h : n.Shaped) :
    (∀ w, n.accepts w = false) ↔ n.terminal = false ∧ n.children = [] := by
  constructor
  · intro hw
    refine ⟨hw [], ?_⟩
    by_contra hc
    obtain ⟨w, hw'⟩ := h.exists_accepts (.inr hc)
    rw [hw w] at hw'
    cases hw'
  · rintro ⟨ht, hc⟩ (_ | ⟨c, v⟩)
    · exact ht
    · rw [accepts_cons, child?, hc, List.lookup_nil]

end Node

/-! ## Unsupported values -/

namespace Unsupported

theorem compare_eq_compareLex :
    Unsupported.compare = compareLex (compareOn Unsupported.repr) (compareOn Unsupported.kind) :=
  rfl

instance : Std.TransCmp Unsupported.compare := by
  rw [compare_eq_compareLex]
  infer_instance

theorem compare_swap (u v : Unsupported) :
    Unsupported.compare u v = (Unsupported.compare v u).swap :=
  Std.OrientedCmp.eq_swap

/-- Two unsupported values that compare equal are equal: the order looks at both fields. -/
theorem eq_of_compare {u v : Unsupported} (h : Unsupported.compare u v = .eq) : u = v := by
  obtain ⟨k, r⟩ := u
  obtain ⟨k', r'⟩ := v
  simp only [Unsupported.compare, Ordering.then_eq_eq] at h
  have hr : r = r' := Std.LawfulEqOrd.eq_of_compare h.1
  have hk : k = k' := Std.LawfulEqOrd.eq_of_compare h.2
  rw [hr, hk]

theorem notGt_eq_isLE (u v : Unsupported) :
    (Unsupported.compare u v != .gt) = (Unsupported.compare u v).isLE := by
  cases Unsupported.compare u v <;> rfl

theorem notGt_trans (a b c : Unsupported) (hab : (Unsupported.compare a b != .gt) = true)
    (hbc : (Unsupported.compare b c != .gt) = true) : (Unsupported.compare a c != .gt) = true := by
  rw [notGt_eq_isLE] at hab hbc ⊢
  exact Std.TransCmp.isLE_trans hab hbc

theorem notGt_total (a b : Unsupported) :
    ((Unsupported.compare a b != .gt) || (Unsupported.compare b a != .gt)) = true := by
  rw [notGt_eq_isLE, notGt_eq_isLE, compare_swap b a]
  cases Unsupported.compare a b <;> rfl

theorem pairwise_sort (us : List Unsupported) :
    (sort us).Pairwise (fun a b => Unsupported.compare a b ≠ .gt) := by
  exact (List.pairwise_mergeSort notGt_trans notGt_total us).imp fun hab => by simpa using hab

theorem perm_sort (us : List Unsupported) : (sort us).Perm us :=
  List.mergeSort_perm us _

/-- Sorting forgets the order the values were recorded in. -/
theorem sort_eq_of_perm {us vs : List Unsupported} (h : us.Perm vs) : sort us = sort vs := by
  apply List.Perm.eq_of_pairwise _ (pairwise_sort us) (pairwise_sort vs)
  · exact (perm_sort us).trans (h.trans (perm_sort vs).symm)
  · -- two values that are each not greater than the other compare equal, so they are equal
    intro a b _ _ hab hba
    apply eq_of_compare
    rw [compare_swap b a] at hba
    cases hc : Unsupported.compare a b <;> simp_all

end Unsupported

/-! ## Coherent tries -/

namespace Trie

/-- The invariant of reachable tries: the tree has the shape insertion builds, the member set is
    ascending with each text once, and a text is a member exactly when the tree accepts it. -/
structure Coherent (t : Trie) : Prop where
  shaped : t.root.Shaped
  sorted : t.members.Pairwise (· < ·)
  mem_iff : ∀ s, s ∈ t.members ↔ t.root.accepts s.toList = true

theorem coherent_empty : Trie.empty.Coherent where
  shaped := Node.shaped_empty
  sorted := List.Pairwise.nil
  mem_iff s := by simp [Trie.empty]

namespace Coherent

variable {t : Trie}

theorem with_rejected (h : t.Coherent) (rejected : List Unsupported) :
    { t with rejected := rejected }.Coherent :=
  ⟨h.shaped, h.sorted, h.mem_iff⟩

/-- Inserting a text keeps a trie coherent: the tree and the set gain the same word. -/
theorem insert (h : t.Coherent) (s : String) : (t.insert s).Coherent where
  shaped := h.shaped.insert s.toList
  sorted := sorted_insertMember s h.sorted
  mem_iff x := by
    show x ∈ insertMember s t.members ↔ (t.root.insert s.toList).accepts x.toList = true
    rw [mem_insertMember, Node.accepts_insert h.shaped, Bool.or_eq_true, beq_iff_eq,
      String.toList_inj, h.mem_iff]
    exact Or.comm

theorem foldl_insert (h : t.Coherent) (ss : List String) : (ss.foldl Trie.insert t).Coherent := by
  induction ss generalizing t with
  | nil => exact h
  | cons s rest ih => exact ih (h.insert s)

/-- An addition keeps a trie coherent, whether it fails or inserts. -/
theorem add (h : t.Coherent) (vs : List Candidate) (strict : Bool) :
    (t.add vs strict).2.Coherent := by
  rcases coerceFrom_cases strict t [] [] vs with ⟨⟨coerced, skipped⟩, hpass⟩ | ⟨u, hpass⟩
  · -- the pass went through: the pruned texts are inserted, then the values recorded
    rw [Trie.add, hpass]
    exact (h.foldl_insert _).with_rejected _
  · -- the pass stopped: only the value it stopped at is recorded
    rw [Trie.add, hpass]
    exact h.with_rejected _

theorem contains_iff (h : t.Coherent) (s : String) :
    t.contains s = true ↔ t.root.accepts s.toList = true := by
  rw [contains, List.contains_iff_mem, h.mem_iff]

/-- A coherent trie has no member exactly when its root is a leaf that ends no word. -/
theorem members_eq_nil_iff (h : t.Coherent) :
    t.members = [] ↔ t.root.terminal = false ∧ t.root.children = [] := by
  rw [← h.shaped.accepts_none_iff, List.eq_nil_iff_forall_not_mem]
  constructor
  · intro hm w
    have hw := h.mem_iff (String.ofList w)
    rw [String.toList_ofList] at hw
    exact Bool.eq_false_iff.2 fun hacc => hm _ (hw.2 hacc)
  · intro hw s hs
    rw [h.mem_iff, hw] at hs
    cases hs

end Coherent

/-! ## Reachable tries -/

/-- The tries that some sequence of additions, strict or lenient, builds from the empty trie. -/
inductive Reachable : Trie → Prop
  | empty : Reachable Trie.empty
  | add {t : Trie} (vs : List Candidate) (strict : Bool) : Reachable t → Reachable (t.add vs strict).2

/-- Every reachable trie is coherent: by induction on the additions that build it. -/
theorem Reachable.coherent {t : Trie} (h : t.Reachable) : t.Coherent := by
  induction h with
  | empty => exact coherent_empty
  | add vs strict _ ih => exact ih.add vs strict

theorem Reachable.shaped {t : Trie} (h : t.Reachable) : t.root.Shaped :=
  h.coherent.shaped

theorem Reachable.addLenient {t : Trie} (h : t.Reachable) (vs : List Candidate) :
    (t.addLenient vs).2.Reachable := by
  rw [addLenient_eq]
  exact Reachable.add vs false h

theorem Reachable.ofCandidates (vs : List Candidate) : (Trie.ofCandidates vs).Reachable :=
  Reachable.empty.addLenient vs

/-- The member set and the tree of a trie agree. A text is a member exactly when the trie
    contains it, and exactly when following its characters from the root ends at a terminal
    node; every node below the root lies on the path of a member, so every leaf below the root
    is terminal; and the root is a leaf that ends no word exactly when there is no member. -/
def TreeAgrees (t : Trie) : Prop :=
  (∀ s : String, (s ∈ t.members ↔ t.contains s = true) ∧
    (t.contains s = true ↔ ∃ m, t.root.descend s.toList = some m ∧ m.terminal = true)) ∧
  (∀ (p : List Char) (m : Node), p ≠ [] → t.root.descend p = some m →
    (∃ s ∈ t.members, p <+: s.toList) ∧ (m.children = [] → m.terminal = true)) ∧
  (t.root.terminal = false ∧ t.root.children = [] ↔ t.members = [])

/-- In every reachable trie the member set and the tree agree. -/
theorem Reachable.tree_agrees_with_members {t : Trie} (h : t.Reachable) : t.TreeAgrees := by
  have hc := h.coherent
  refine ⟨fun s => ⟨List.contains_iff_mem.symm, ?_⟩, ?_, (hc.members_eq_nil_iff).symm⟩
  · rw [hc.contains_iff]
    exact Node.accepts_iff_descend _ _
  · -- a path below the root extends to an accepted word, which is a member
    intro p m hne hp
    obtain ⟨v, hv⟩ := hc.shaped.exists_extension hp hne
    refine ⟨⟨String.ofList (p ++ v), (hc.mem_iff _).2 ?_, ?_⟩, fun hleaf => ?_⟩
    · rwa [String.toList_ofList]
    · rw [String.toList_ofList]
      exact List.prefix_append p v
    · rcases (hc.shaped.descend hp).2 hne with ht | hch
      · exact ht
      · exact absurd hleaf hch

theorem tree_agrees_of_batch :
    (Trie.ofCandidates [.text "ab", .text "a", .integer 7]).Reachable ∧
      (Trie.ofCandidates [.text "ab", .text "a", .integer 7]).TreeAgrees :=
  ⟨Reachable.ofCandidates _, (Reachable.ofCandidates _).tree_agrees_with_members⟩

/-! ## The order of additions -/

theorem mem_members_addLenient (t : Trie) (vs : List Candidate) (s : String) :
    s ∈ (t.addLenient vs).2.members ↔ s ∈ t.members ∨ s ∈ Candidate.texts vs := by
  rw [addLenient_eq, mem_members_add_false]

theorem len_addLenient (t : Trie) (vs : List Candidate) :
    (t.addLenient vs).2.len = t.len + (t.addLenient vs).1.inserted := by
  rw [addLenient_eq, len_add_false]

theorem rejected_addLenient (t : Trie) (vs : List Candidate) :
    (t.addLenient vs).2.rejected = t.rejected ++ Candidate.failures vs := by
  rw [addLenient_eq, add_false]

/-- Two coherent tries with the same members have the same member list and the same tree. -/
theorem Coherent.eq_of_members {t₁ t₂ : Trie} (h₁ : t₁.Coherent) (h₂ : t₂.Coherent)
    (h : ∀ s, s ∈ t₁.members ↔ s ∈ t₂.members) : t₁.members = t₂.members ∧ t₁.root = t₂.root := by
  refine ⟨List.Pairwise.eq_of_mem_iff h₁.sorted h₂.sorted h, ?_⟩
  -- the trees accept the same words, and a shaped tree is the only one with its words
  refine h₁.shaped.eq_of_accepts h₂.shaped fun w => Bool.eq_iff_iff.2 ?_
  have hw : ∀ t : Trie, t.Coherent → (t.root.accepts w = true ↔ String.ofList w ∈ t.members) := by
    intro t ht
    rw [ht.mem_iff, String.toList_ofList]
  rw [hw t₁ h₁, hw t₂ h₂, h]

/-- Two lenient additions in either order give the same members, the same tree, the same
    recorded values and the same patterns, and the counts they report have the same sum. -/
def AdditionsCommute (t : Trie) (xs ys : List Candidate) : Prop :=
  let a₁ := t.addLenient xs
  let a₂ := a₁.2.addLenient ys
  let b₁ := t.addLenient ys
  let b₂ := b₁.2.addLenient xs
  a₂.2.members = b₂.2.members ∧ a₂.2.root = b₂.2.root ∧ a₂.2.invalid = b₂.2.invalid ∧
    (∀ boundary capturing, a₂.2.pattern boundary capturing = b₂.2.pattern boundary capturing) ∧
    a₁.1.inserted + a₂.1.inserted = b₁.1.inserted + b₂.1.inserted

/-- A trie does not depend on the order its members came in: on a reachable trie two lenient
    additions commute, and two reachable tries with the same members have the same tree and
    the same patterns. -/
theorem additions_commute :
    (∀ (t : Trie), t.Reachable → ∀ xs ys : List Candidate, t.AdditionsCommute xs ys) ∧
    (∀ t₁ t₂ : Trie, t₁.Reachable → t₂.Reachable → (∀ s, s ∈ t₁.members ↔ s ∈ t₂.members) →
      t₁.root = t₂.root ∧
        ∀ boundary capturing, t₁.pattern boundary capturing = t₂.pattern boundary capturing) := by
  refine ⟨fun t ht xs ys => ?_, fun t₁ t₂ h₁ h₂ h => ?_⟩
  · -- both orders make members of the old members and the texts of both batches
    have hmem : ∀ s, s ∈ ((t.addLenient xs).2.addLenient ys).2.members ↔
        s ∈ ((t.addLenient ys).2.addLenient xs).2.members := by
      intro s
      simp only [mem_members_addLenient]
      exact or_right_comm
    obtain ⟨hmembers, hroot⟩ := ((ht.addLenient xs).addLenient ys).coherent.eq_of_members
      ((ht.addLenient ys).addLenient xs).coherent hmem
    have hperm : (t.rejected ++ Candidate.failures xs ++ Candidate.failures ys).Perm
        (t.rejected ++ Candidate.failures ys ++ Candidate.failures xs) := by
      rw [List.append_assoc, List.append_assoc]
      exact List.perm_append_comm.append_left _
    have hcount : ((t.addLenient xs).2.addLenient ys).2.len =
        ((t.addLenient ys).2.addLenient xs).2.len := by
      rw [len, len, hmembers]
    rw [len_addLenient, len_addLenient, len_addLenient, len_addLenient] at hcount
    refine ⟨hmembers, hroot, ?_, fun b c => by rw [pattern, pattern, hroot], by omega⟩
    rw [invalid, invalid, rejected_addLenient, rejected_addLenient, rejected_addLenient,
      rejected_addLenient]
    exact Unsupported.sort_eq_of_perm hperm
  · have hroot := (h₁.coherent.eq_of_members h₂.coherent h).2
    exact ⟨hroot, fun b c => by rw [pattern, pattern, hroot]⟩

theorem additions_commute_on_batches :
    Trie.empty.Reachable ∧
      Trie.empty.AdditionsCommute [.text "ab", .unsupported ⟨"null", "null"⟩] [.text "a", .text "ab"] ∧
      (∀ s, s ∈ (Trie.ofCandidates [.text "b", .text "a"]).members ↔
        s ∈ (Trie.ofCandidates [.text "a", .text "b"]).members) ∧
      (Trie.ofCandidates [.text "b", .text "a"]).root = (Trie.ofCandidates [.text "a", .text "b"]).root :=
  have hmem : ∀ s, s ∈ (Trie.ofCandidates [.text "b", .text "a"]).members ↔
      s ∈ (Trie.ofCandidates [.text "a", .text "b"]).members := fun s => by
    rw [show (Trie.ofCandidates [.text "b", .text "a"]).members =
      (Trie.ofCandidates [.text "a", .text "b"]).members by decide]
  ⟨.empty, additions_commute.1 _ .empty _ _, hmem,
    (additions_commute.2 _ _ (.ofCandidates _) (.ofCandidates _) hmem).1⟩

end Trie

end Alternation
