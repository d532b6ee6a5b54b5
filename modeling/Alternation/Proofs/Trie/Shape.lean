import Alternation.Trie.Basic
import Mathlib.Data.Char
import Mathlib.Data.List.Sort

/-!
# The shape of prefix trees

Insertion keeps a tree in one shape: at every node the branch characters are strictly
ascending, and every branch leads to a terminal node or to further branches, so that no
branch is dead. This module states that shape as `Node.Shaped`, shows that insertion keeps it
and adds exactly the inserted word, and derives what the shape gives: the words of a tree are
the words it accepts, each listed once, and a shaped tree is the only shaped tree with its
words.

Main results:

* `Node.Shaped`: the shape insertion keeps.
* `Node.Shaped.insert`, `Node.accepts_insert`: insertion keeps the shape and adds one word.
* `Node.mem_words_iff`: the words of a shaped tree are those it accepts.
* `Node.nodup_words`: a shaped tree lists each of its words once.
* `Node.Shaped.eq_of_accepts`: two shaped trees that accept the same words are equal.
-/

namespace Alternation

namespace Node

/-- A tree in the shape that insertion builds: at every node the branch characters are strictly
    ascending, and every branch leads to a terminal node or to further branches. -/
inductive Shaped : Node → Prop
  | mk {terminal : Bool} {children : List (Char × Node)} :
      (children.map Prod.fst).Pairwise (· < ·) →
      (∀ b ∈ children, b.2.terminal = true ∨ b.2.children ≠ []) →
      (∀ b ∈ children, Shaped b.2) → Shaped ⟨terminal, children⟩

namespace Shaped

variable {n : Node}

theorem keys_sorted (h : n.Shaped) : (n.children.map Prod.fst).Pairwise (· < ·) := by
  cases h with
  | mk hs _ _ => exact hs

theorem keys_nodup (h : n.Shaped) : (n.children.map Prod.fst).Nodup :=
  h.keys_sorted.imp ne_of_lt

theorem live {b : Char × Node} (h : n.Shaped) (hb : b ∈ n.children) :
    b.2.terminal = true ∨ b.2.children ≠ [] := by
  cases h with
  | mk _ hl _ => exact hl b hb

theorem child {b : Char × Node} (h : n.Shaped) (hb : b ∈ n.children) : b.2.Shaped := by
  cases h with
  | mk _ _ hc => exact hc b hb

end Shaped

theorem shaped_empty : empty.Shaped :=
  .mk List.Pairwise.nil (by simp) (by simp)

@[simp]
theorem accepts_empty (w : List Char) : empty.accepts w = false := by
  cases w <;> rfl

/-! ## Branch lists -/

/-- In a branch list with distinct characters, looking a character up finds exactly its
    branch. -/
theorem lookup_eq_some_iff {l : List (Char × Node)} (hk : (l.map Prod.fst).Nodup) {c : Char}
    {m : Node} : l.lookup c = some m ↔ (c, m) ∈ l := by
  induction l with
  | nil => simp
  | cons b rest ih =>
    obtain ⟨d, m'⟩ := b
    rw [List.map_cons, List.nodup_cons] at hk
    by_cases hcd : c = d
    · subst hcd
      have hnot : (c, m) ∈ rest → False := fun hm => hk.1 (List.mem_map.2 ⟨_, hm, rfl⟩)
      simp only [List.lookup_cons_self, Option.some.injEq, List.mem_cons, Prod.mk.injEq, true_and]
      constructor
      · rintro rfl
        exact .inl rfl
      · rintro (rfl | hm)
        · rfl
        · exact (hnot hm).elim
    · have hbeq : (c == d) = false := beq_false_of_ne hcd
      simp only [List.lookup_cons, hbeq, List.mem_cons, Prod.mk.injEq, hcd, false_and, false_or]
      exact ih hk.2

theorem mem_keys_alterBranch {c d : Char} {f : Option Node → Node} {l : List (Char × Node)} :
    d ∈ (alterBranch c f l).map Prod.fst ↔ d = c ∨ d ∈ l.map Prod.fst := by
  induction l with
  | nil => simp [alterBranch]
  | cons b rest ih =>
    obtain ⟨e, m⟩ := b
    simp only [alterBranch]
    split_ifs with hlt heq
    · simp
    · subst heq
      simp
    · simp only [List.map_cons, List.mem_cons, ih]
      tauto

theorem sorted_alterBranch (c : Char) (f : Option Node → Node) {l : List (Char × Node)}
    (h : (l.map Prod.fst).Pairwise (· < ·)) :
    ((alterBranch c f l).map Prod.fst).Pairwise (· < ·) := by
  induction l with
  | nil => simp [alterBranch]
  | cons b rest ih =>
    obtain ⟨e, m⟩ := b
    rw [List.map_cons, List.pairwise_cons] at h
    simp only [alterBranch]
    split_ifs with hlt heq
    · simp only [List.map_cons, List.pairwise_cons, List.mem_cons, forall_eq_or_imp]
      exact ⟨⟨hlt, fun x hx => lt_trans hlt (h.1 x hx)⟩, h.1, h.2⟩
    · subst heq
      simpa using h
    · have hgt : e < c := lt_of_le_of_ne (not_lt.1 hlt) (Ne.symm heq)
      simp only [List.map_cons, List.pairwise_cons, mem_keys_alterBranch]
      refine ⟨?_, ih h.2⟩
      rintro x (rfl | hx)
      · exact hgt
      · exact h.1 x hx

/-- A branch of the altered list is an old branch, or the new branch of `c` made from what
    the old list held at `c`. -/
theorem mem_alterBranch {c : Char} {f : Option Node → Node} {l : List (Char × Node)}
    {b : Char × Node} (hb : b ∈ alterBranch c f l) :
    b ∈ l ∨ ∃ o, b = (c, f o) ∧ ∀ m, o = some m → (c, m) ∈ l := by
  induction l with
  | nil =>
    simp only [alterBranch, List.mem_singleton] at hb
    exact .inr ⟨none, hb, by simp⟩
  | cons b' rest ih =>
    obtain ⟨e, m⟩ := b'
    simp only [alterBranch] at hb
    split_ifs at hb with hlt heq
    · rcases List.mem_cons.1 hb with rfl | hb
      · exact .inr ⟨none, rfl, by simp⟩
      · exact .inl hb
    · subst heq
      rcases List.mem_cons.1 hb with rfl | hb
      · exact .inr ⟨some m, rfl, by simp⟩
      · exact .inl (List.mem_cons_of_mem _ hb)
    · rcases List.mem_cons.1 hb with rfl | hb
      · exact .inl List.mem_cons_self
      · rcases ih hb with hb | ⟨o, rfl, ho⟩
        · exact .inl (List.mem_cons_of_mem _ hb)
        · exact .inr ⟨o, rfl, fun m' hm' => List.mem_cons_of_mem _ (ho m' hm')⟩

theorem lookup_alterBranch {c d : Char} {f : Option Node → Node} {l : List (Char × Node)}
    (h : (l.map Prod.fst).Pairwise (· < ·)) :
    (alterBranch c f l).lookup d = if d = c then some (f (l.lookup c)) else l.lookup d := by
  induction l with
  | nil => by_cases hdc : d = c <;> simp [alterBranch, hdc]
  | cons b rest ih =>
    obtain ⟨e, m⟩ := b
    rw [List.map_cons, List.pairwise_cons] at h
    by_cases hlt : c < e
    · -- `c` is below every character of the list, so the list holds no branch of `c`
      have hnone : ((e, m) :: rest).lookup c = none := by
        simp only [List.lookup_eq_none_iff, List.mem_cons, forall_eq_or_imp, bne_iff_ne, ne_eq]
        exact ⟨ne_of_lt hlt, fun p hp => ne_of_lt (lt_trans hlt (h.1 _ (List.mem_map_of_mem hp)))⟩
      rw [alterBranch, if_pos hlt, hnone]
      by_cases hdc : d = c
      · subst hdc
        simp
      · have hbeq : (d == c) = false := beq_false_of_ne hdc
        simp [List.lookup_cons, hbeq, hdc]
    · by_cases hce : c = e
      · subst hce
        rw [alterBranch, if_neg hlt, if_pos rfl]
        by_cases hdc : d = c
        · subst hdc
          simp
        · have hbeq : (d == c) = false := beq_false_of_ne hdc
          simp [List.lookup_cons, hbeq, hdc]
      · have hbeq' : (c == e) = false := beq_false_of_ne hce
        rw [alterBranch, if_neg hlt, if_neg hce, List.lookup_cons, ih h.2, List.lookup_cons, hbeq']
        by_cases hde : d = e
        · subst hde
          have hdc : d ≠ c := fun h' => hce h'.symm
          simp [hdc]
        · have hbeq : (d == e) = false := beq_false_of_ne hde
          simp [List.lookup_cons, hbeq]

/-! ## Insertion -/

theorem children_insert_cons_ne_nil (n : Node) (c : Char) (cs : List Char) :
    (n.insert (c :: cs)).children ≠ [] := by
  intro h
  have hc : c ∈ ((n.insert (c :: cs)).children.map Prod.fst) := by
    rw [insert_cons]
    exact mem_keys_alterBranch.2 (.inl rfl)
  simp [h] at hc

theorem insert_live (n : Node) (w : List Char) :
    (n.insert w).terminal = true ∨ (n.insert w).children ≠ [] := by
  cases w with
  | nil => exact .inl rfl
  | cons c cs => exact .inr (children_insert_cons_ne_nil n c cs)

/-- Insertion keeps a tree shaped. -/
theorem Shaped.insert {n : Node} (h : n.Shaped) (w : List Char) : (n.insert w).Shaped := by
  induction w generalizing n with
  | nil =>
    cases h with
    | mk hs hl hc => exact .mk hs hl hc
  | cons c cs ih =>
    have hsub : ∀ o : Option Node, (∀ m, o = some m → (c, m) ∈ n.children) →
        (o.getD empty).Shaped := by
      rintro (_ | m) ho
      · exact shaped_empty
      · exact h.child (ho m rfl)
    rw [insert_cons]
    refine .mk (sorted_alterBranch _ _ h.keys_sorted) ?_ ?_
    · intro b hb
      rcases mem_alterBranch hb with hb | ⟨o, rfl, _⟩
      · exact h.live hb
      · exact insert_live _ cs
    · intro b hb
      rcases mem_alterBranch hb with hb | ⟨o, rfl, ho⟩
      · exact h.child hb
      · exact ih (hsub o ho)

/-- Inserting a word adds exactly that word to the words a shaped tree accepts. -/
theorem accepts_insert {n : Node} (h : n.Shaped) (w v : List Char) :
    (n.insert w).accepts v = (n.accepts v || v == w) := by
  induction w generalizing n v with
  | nil =>
    cases v with
    | nil => simp
    | cons d v => simp [accepts_cons, child?]
  | cons c cs ih =>
    cases v with
    | nil => simp [insert_cons]
    | cons d v =>
      simp only [accepts_cons, child?, insert_cons, lookup_alterBranch h.keys_sorted,
        List.cons_beq_cons]
      by_cases hdc : d = c
      · subst hdc
        cases hl : n.children.lookup d with
        | none => simp [ih shaped_empty]
        | some m => simp [ih (h.child ((lookup_eq_some_iff h.keys_nodup).1 hl))]
      · simp [hdc]

/-! ## Words and acceptance -/

theorem words_mk (terminal : Bool) (children : List (Char × Node)) :
    words ⟨terminal, children⟩ = (if terminal then [[]] else []) ++ branchWords children := by
  simp [words]

theorem mem_branchWords {w : List Char} {l : List (Char × Node)} :
    w ∈ branchWords l ↔ ∃ b ∈ l, ∃ v ∈ b.2.words, w = b.1 :: v := by
  induction l with
  | nil => simp [branchWords]
  | cons b rest ih =>
    obtain ⟨c, m⟩ := b
    simp only [branchWords, List.mem_append, List.mem_map, ih, List.mem_cons, exists_eq_or_imp]
    constructor
    · rintro (⟨v, hv, rfl⟩ | h)
      · exact .inl ⟨v, hv, rfl⟩
      · exact .inr h
    · rintro (⟨v, hv, rfl⟩ | h)
      · exact .inl ⟨v, hv, rfl⟩
      · exact .inr h

theorem nil_not_mem_branchWords (l : List (Char × Node)) : [] ∉ branchWords l := by
  simp [mem_branchWords]

/-- In a tree whose branch characters are distinct, a word with a first character is accepted
    exactly when its rest is accepted below the branch of that character. -/
theorem accepts_cons_iff {n : Node} (hk : (n.children.map Prod.fst).Nodup) (c : Char)
    (v : List Char) : n.accepts (c :: v) = true ↔ ∃ m, (c, m) ∈ n.children ∧ m.accepts v = true := by
  rw [accepts_cons, child?]
  cases hl : n.children.lookup c with
  | none =>
    simp only [Bool.false_eq_true, false_iff, not_exists, not_and]
    intro m hm
    rw [(lookup_eq_some_iff hk).2 hm] at hl
    cases hl
  | some m =>
    constructor
    · intro h
      exact ⟨m, (lookup_eq_some_iff hk).1 hl, h⟩
    · rintro ⟨m', hm', h'⟩
      have hmm : m' = m := Option.some.inj (((lookup_eq_some_iff hk).2 hm').symm.trans hl)
      rwa [← hmm]

theorem accepts_cons_of_mem {n : Node} (hk : (n.children.map Prod.fst).Nodup) {c : Char}
    {m : Node} (hm : (c, m) ∈ n.children) (v : List Char) : n.accepts (c :: v) = m.accepts v := by
  rw [accepts_cons, child?, (lookup_eq_some_iff hk).2 hm]

/-- The words of a shaped tree are the words it accepts. -/
theorem mem_words_iff {n : Node} (h : n.Shaped) {w : List Char} : w ∈ n.words ↔ n.accepts w = true := by
  induction w generalizing n with
  | nil =>
    obtain ⟨t, cs⟩ := n
    cases t <;> simp [words_mk, nil_not_mem_branchWords]
  | cons c v ih =>
    have hk := h.keys_nodup
    obtain ⟨t, cs⟩ := n
    rw [words_mk, accepts_cons_iff hk]
    simp only [List.mem_append, mem_branchWords, List.cons.injEq]
    constructor
    · rintro (hw | ⟨⟨d, m⟩, hm, u, hu, rfl, rfl⟩)
      · cases t <;> simp at hw
      · exact ⟨m, hm, (ih (h.child hm)).1 hu⟩
    · rintro ⟨m, hm, hv⟩
      exact .inr ⟨(c, m), hm, v, (ih (h.child hm)).2 hv, rfl, rfl⟩

theorem nodup_branchWords {l : List (Char × Node)} (hs : (l.map Prod.fst).Pairwise (· < ·))
    (hw : ∀ b ∈ l, b.2.words.Nodup) : (branchWords l).Nodup := by
  induction l with
  | nil => simp [branchWords]
  | cons b rest ih =>
    obtain ⟨c, m⟩ := b
    rw [List.map_cons, List.pairwise_cons] at hs
    simp only [branchWords]
    refine List.nodup_append.2 ⟨(hw _ List.mem_cons_self).map (fun _ _ h => List.cons.inj h |>.2),
      ih hs.2 (fun b hb => hw b (List.mem_cons_of_mem _ hb)), ?_⟩
    -- the words of the first branch start with `c`, the others with a larger character
    intro x hx y hy hxy
    subst hxy
    obtain ⟨u, -, rfl⟩ := List.mem_map.1 hx
    obtain ⟨⟨d, m'⟩, hm', v, -, hv⟩ := mem_branchWords.1 hy
    have hcd : c = d := (List.cons.inj hv).1
    exact absurd (hs.1 d (List.mem_map_of_mem hm')) (by rw [hcd]; exact lt_irrefl d)

/-- A shaped tree lists each of its words once. -/
theorem nodup_words {n : Node} (h : n.Shaped) : n.words.Nodup := by
  induction h with
  | @mk t cs hs _ _ ih =>
    rw [words_mk]
    refine List.nodup_append.2 ⟨by cases t <;> simp, nodup_branchWords hs ih, ?_⟩
    intro x hx y hy hxy
    subst hxy
    cases t <;> simp at hx
    subst hx
    exact nil_not_mem_branchWords cs hy

/-! ## A shaped tree is determined by its words -/

/-- A shaped tree that ends a word or leads further accepts some word. -/
theorem Shaped.exists_accepts {n : Node} (h : n.Shaped) (hn : n.terminal = true ∨ n.children ≠ []) :
    ∃ w, n.accepts w = true := by
  induction h with
  | @mk t cs hs hl hc ih =>
    rcases hn with ht | hne
    · exact ⟨[], ht⟩
    · obtain ⟨⟨c, m⟩, rest, rfl⟩ := List.exists_cons_of_ne_nil hne
      obtain ⟨v, hv⟩ := ih _ List.mem_cons_self (hl _ List.mem_cons_self)
      exact ⟨c :: v, by simpa [accepts_cons, child?] using hv⟩

/-- If two trees accept the same words and the first is shaped, every branch of the first has
    a branch of the same character in the second that accepts the same words. -/
theorem exists_branch_of_accepts_eq {n₁ n₂ : Node} (h₁ : n₁.Shaped) (h₂ : n₂.Shaped)
    (h : ∀ w, n₁.accepts w = n₂.accepts w) {c : Char} {m : Node} (hm : (c, m) ∈ n₁.children) :
    ∃ m₂, (c, m₂) ∈ n₂.children ∧ ∀ v, m.accepts v = m₂.accepts v := by
  obtain ⟨v, hv⟩ := (h₁.child hm).exists_accepts (h₁.live hm)
  have hacc : n₂.accepts (c :: v) = true := by
    rw [← h, accepts_cons_of_mem h₁.keys_nodup hm, hv]
  obtain ⟨m₂, hm₂, -⟩ := (accepts_cons_iff h₂.keys_nodup c v).1 hacc
  refine ⟨m₂, hm₂, fun u => ?_⟩
  rw [← accepts_cons_of_mem h₁.keys_nodup hm, h, accepts_cons_of_mem h₂.keys_nodup hm₂]

/-- Two shaped trees that accept the same words are equal: the shape is canonical. -/
theorem Shaped.eq_of_accepts {n₁ n₂ : Node} (h₁ : n₁.Shaped) (h₂ : n₂.Shaped)
    (h : ∀ w, n₁.accepts w = n₂.accepts w) : n₁ = n₂ := by
  induction h₁ generalizing n₂ with
  | @mk t cs hs hl hc ih =>
    have h₁ : Shaped ⟨t, cs⟩ := .mk hs hl hc
    obtain ⟨t₂, cs₂⟩ := n₂
    have ht : t = t₂ := h []
    -- a branch of either tree is a branch of the other, by induction on the subtrees
    have hmem : ∀ b, b ∈ cs ↔ b ∈ cs₂ := by
      rintro ⟨c, m⟩
      constructor
      · intro hm
        obtain ⟨m₂, hm₂, hv⟩ := exists_branch_of_accepts_eq h₁ h₂ h hm
        obtain rfl : m = m₂ := ih _ hm (h₂.child hm₂) hv
        exact hm₂
      · intro hm₂
        obtain ⟨m₁, hm₁, hv⟩ := exists_branch_of_accepts_eq h₂ h₁ (fun w => (h w).symm) hm₂
        obtain rfl : m₁ = m := ih _ hm₁ (h₂.child hm₂) (fun v => (hv v).symm)
        exact hm₁
    have hr : ∀ (l : List (Char × Node)), (l.map Prod.fst).Pairwise (· < ·) →
        l.Pairwise (fun a b => a.1 < b.1) := fun l hl => List.pairwise_map.1 hl
    have : Std.Irrefl (fun a b : Char × Node => a.1 < b.1) := ⟨fun a => lt_irrefl a.1⟩
    have : Std.Antisymm (fun a b : Char × Node => a.1 < b.1) :=
      ⟨fun a b hab hba => absurd (lt_trans hab hba) (lt_irrefl a.1)⟩
    have hcs : cs = cs₂ := List.Pairwise.eq_of_mem_iff (hr cs hs) (hr cs₂ h₂.keys_sorted) hmem
    rw [ht, hcs]

end Node

end Alternation
