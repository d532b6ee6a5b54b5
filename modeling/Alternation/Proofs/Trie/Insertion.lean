import Alternation.Trie.Basic
import Mathlib.Data.String.Basic

/-!
# One addition, pass by pass

An addition runs in three passes. The coercion pass collects the texts and the unsupported values
of the candidates and, when strict, stops at the first unsupported one. `prune` keeps the texts
that are neither members nor repeats. Each kept text is then inserted into the tree and into the
member set. This module states what each pass does, for every trie and every batch, and what a
lenient addition made of them does to the member set.

Main results:

* `Trie.coerceFrom_false`: a lenient pass collects every text and every unsupported value.
* `Trie.coerceFrom_of_texts`: over candidates that all have texts, a strict pass is a lenient one.
* `Trie.coerceFrom_of_first_error`: a strict pass stops at the first unsupported value.
* `Trie.coerceFrom_cases`: a pass leaves the trie alone, or records the one value it stops at.
* `Trie.mem_prune`, `Trie.nodup_prune`: prune keeps each new text once.
* `Trie.mem_insertMember`, `Trie.sorted_insertMember`: the member set after an insertion.
* `Trie.add_false`: a lenient addition in terms of its passes.
-/

namespace Alternation

namespace Candidate

/-- The member texts of the candidates that have one, in order. -/
def texts (vs : List Candidate) : List String :=
  vs.filterMap fun v => v.coerce.toOption

/-- The unsupported values among the candidates, in order. -/
def failures (vs : List Candidate) : List Unsupported :=
  vs.filterMap fun v =>
    match v.coerce with
    | .error u => some u
    | .ok _ => none

section

variable {v : Candidate} (rest : List Candidate)

theorem texts_cons_of_ok {s : String} (hv : v.coerce = .ok s) :
    texts (v :: rest) = s :: texts rest := by
  simp [texts, hv, Except.toOption]

theorem texts_cons_of_error {u : Unsupported} (hv : v.coerce = .error u) :
    texts (v :: rest) = texts rest := by
  simp [texts, hv, Except.toOption]

theorem failures_cons_of_ok {s : String} (hv : v.coerce = .ok s) :
    failures (v :: rest) = failures rest := by
  simp [failures, hv]

theorem failures_cons_of_error {u : Unsupported} (hv : v.coerce = .error u) :
    failures (v :: rest) = u :: failures rest := by
  simp [failures, hv]

end

theorem mem_texts_iff {vs : List Candidate} {s : String} :
    s ∈ texts vs ↔ ∃ v ∈ vs, v.coerce = .ok s := by
  simp only [texts, List.mem_filterMap]
  constructor
  · rintro ⟨v, hv, hs⟩
    refine ⟨v, hv, ?_⟩
    cases hc : v.coerce with
    | error u => simp [hc, Except.toOption] at hs
    | ok s' => simpa [hc, Except.toOption] using hs
  · rintro ⟨v, hv, hs⟩
    exact ⟨v, hv, by simp [hs, Except.toOption]⟩

theorem failures_eq_nil {vs : List Candidate} (h : ∀ v ∈ vs, ∃ s, v.coerce = .ok s) :
    failures vs = [] := by
  induction vs with
  | nil => rfl
  | cons v rest ih =>
    obtain ⟨s, hs⟩ := h v List.mem_cons_self
    rw [failures_cons_of_ok rest hs]
    exact ih fun w hw => h w (List.mem_cons_of_mem _ hw)

end Candidate

namespace Trie

/-! ## The coercion pass -/

section Pass

variable (strict : Bool) (t : Trie) (coerced : List String) (skipped : List Unsupported)

theorem coerceFrom_cons_of_ok {v : Candidate} {s : String} (hv : v.coerce = .ok s)
    (rest : List Candidate) :
    coerceFrom strict t coerced skipped (v :: rest) =
      coerceFrom strict t (coerced ++ [s]) skipped rest := by
  simp [coerceFrom, hv]

theorem coerceFrom_cons_of_error {v : Candidate} {u : Unsupported} (hv : v.coerce = .error u)
    (rest : List Candidate) :
    coerceFrom strict t coerced skipped (v :: rest) =
      if strict then (.error u, { t with rejected := t.rejected ++ [u] })
      else coerceFrom strict t coerced (skipped ++ [u]) rest := by
  simp [coerceFrom, hv]

/-- A pass ends with what it collected and the trie as it was, or stops at an unsupported value
    with that value recorded after the others; it does nothing else to the trie. -/
theorem coerceFrom_cases (vs : List Candidate) :
    (∃ r, coerceFrom strict t coerced skipped vs = (.ok r, t)) ∨
      ∃ u, coerceFrom strict t coerced skipped vs =
        (.error u, { t with rejected := t.rejected ++ [u] }) := by
  induction vs generalizing coerced skipped with
  | nil => exact .inl ⟨_, rfl⟩
  | cons v rest ih =>
    cases hv : v.coerce with
    | ok s =>
      rw [coerceFrom_cons_of_ok strict t coerced skipped hv]
      exact ih _ _
    | error u =>
      rw [coerceFrom_cons_of_error strict t coerced skipped hv]
      cases strict with
      | true => exact .inr ⟨u, rfl⟩
      | false => exact ih _ _

/-- A lenient pass collects every text and every unsupported value, in the order met. -/
theorem coerceFrom_false (vs : List Candidate) :
    coerceFrom false t coerced skipped vs =
      (.ok (coerced ++ Candidate.texts vs, skipped ++ Candidate.failures vs), t) := by
  induction vs generalizing coerced skipped with
  | nil => simp [coerceFrom, Candidate.texts, Candidate.failures]
  | cons v rest ih =>
    cases hv : v.coerce with
    | ok s =>
      rw [coerceFrom_cons_of_ok false t coerced skipped hv, ih, Candidate.texts_cons_of_ok rest hv,
        Candidate.failures_cons_of_ok rest hv, List.append_assoc, List.singleton_append]
    | error u =>
      rw [coerceFrom_cons_of_error false t coerced skipped hv, if_neg Bool.false_ne_true, ih,
        Candidate.texts_cons_of_error rest hv, Candidate.failures_cons_of_error rest hv,
        List.append_assoc, List.singleton_append]

/-- Over candidates that all have texts, a pass collects the texts and nothing else, strict or
    not. -/
theorem coerceFrom_of_texts {vs : List Candidate} (h : ∀ v ∈ vs, ∃ s, v.coerce = .ok s) :
    coerceFrom strict t coerced skipped vs = (.ok (coerced ++ Candidate.texts vs, skipped), t) := by
  induction vs generalizing coerced with
  | nil => simp [coerceFrom, Candidate.texts]
  | cons v rest ih =>
    obtain ⟨s, hs⟩ := h v List.mem_cons_self
    rw [coerceFrom_cons_of_ok strict t coerced skipped hs,
      ih _ fun w hw => h w (List.mem_cons_of_mem _ hw), Candidate.texts_cons_of_ok rest hs,
      List.append_assoc, List.singleton_append]

/-- A strict pass stops at the first candidate without a text: it fails with that candidate's
    value and records it after the values recorded before, whatever comes after it. -/
theorem coerceFrom_of_first_error {pre : List Candidate} {v : Candidate} {u : Unsupported}
    (post : List Candidate) (hpre : ∀ w ∈ pre, ∃ s, w.coerce = .ok s)
    (hv : v.coerce = .error u) :
    coerceFrom true t coerced skipped (pre ++ v :: post) =
      (.error u, { t with rejected := t.rejected ++ [u] }) := by
  induction pre generalizing coerced with
  | nil => rw [List.nil_append, coerceFrom_cons_of_error true t coerced skipped hv, if_pos rfl]
  | cons w pre ih =>
    obtain ⟨s, hs⟩ := hpre w List.mem_cons_self
    rw [List.cons_append, coerceFrom_cons_of_ok true t coerced skipped hs]
    exact ih _ fun w' hw' => hpre w' (List.mem_cons_of_mem _ hw')

end Pass

/-! ## Pruning -/

theorem mem_pruneFrom {t : Trie} {seen : List String} {ts : List String} {s : String} :
    s ∈ t.pruneFrom seen ts ↔ s ∈ ts ∧ s ∉ t.members ∧ s ∉ seen := by
  induction ts generalizing seen with
  | nil => simp [pruneFrom]
  | cons x rest ih =>
    rw [pruneFrom]
    split
    · rename_i hx
      rw [ih, List.mem_cons]
      constructor
      · rintro ⟨hs, hm, hseen⟩
        exact ⟨.inr hs, hm, hseen⟩
      · -- the dropped text `x` is a member or seen, so it is not what we look for
        rintro ⟨rfl | hs, hm, hseen⟩
        · exact absurd hx (not_or.2 ⟨hm, hseen⟩)
        · exact ⟨hs, hm, hseen⟩
    · rename_i hx
      rw [List.mem_cons, ih, List.mem_cons, List.mem_cons]
      constructor
      · rintro (rfl | ⟨hs, hm, hseen⟩)
        · exact ⟨.inl rfl, (not_or.1 hx).1, (not_or.1 hx).2⟩
        · exact ⟨.inr hs, hm, fun h => hseen (.inr h)⟩
      · rintro ⟨hs, hm, hseen⟩
        by_cases hsx : s = x
        · exact .inl hsx
        · exact .inr ⟨hs.resolve_left hsx, hm, not_or.2 ⟨hsx, hseen⟩⟩

theorem nodup_pruneFrom (t : Trie) (seen ts : List String) : (t.pruneFrom seen ts).Nodup := by
  induction ts generalizing seen with
  | nil => exact List.nodup_nil
  | cons x rest ih =>
    rw [pruneFrom]
    split
    · exact ih seen
    · refine List.nodup_cons.2 ⟨fun hx => ?_, ih _⟩
      exact (mem_pruneFrom.1 hx).2.2 List.mem_cons_self

/-- Prune keeps exactly the texts of the batch that are not members. -/
theorem mem_prune {t : Trie} {ts : List String} {s : String} :
    s ∈ t.prune ts ↔ s ∈ ts ∧ s ∉ t.members := by
  rw [prune, mem_pruneFrom]
  simp

/-- Prune keeps each text once. -/
theorem nodup_prune (t : Trie) (ts : List String) : (t.prune ts).Nodup :=
  nodup_pruneFrom t [] ts

/-! ## The member set -/

theorem mem_insertMember {s x : String} {l : List String} :
    x ∈ insertMember s l ↔ x = s ∨ x ∈ l := by
  induction l with
  | nil => simp [insertMember]
  | cons m rest ih =>
    rw [insertMember]
    split_ifs with hlt heq
    · exact List.mem_cons
    · subst heq
      simp
    · simp only [List.mem_cons, ih]
      tauto

theorem length_insertMember {s : String} {l : List String} (h : s ∉ l) :
    (insertMember s l).length = l.length + 1 := by
  induction l with
  | nil => rfl
  | cons m rest ih =>
    rw [List.mem_cons, not_or] at h
    rw [insertMember]
    split_ifs with hlt heq
    · rfl
    · exact absurd heq h.1
    · rw [List.length_cons, ih h.2, List.length_cons]

/-- Insertion keeps the member set ascending. -/
theorem sorted_insertMember (s : String) {l : List String} (h : l.Pairwise (· < ·)) :
    (insertMember s l).Pairwise (· < ·) := by
  induction l with
  | nil => exact List.pairwise_singleton _ s
  | cons m rest ih =>
    rw [List.pairwise_cons] at h
    rw [insertMember]
    split_ifs with hlt heq
    · exact List.pairwise_cons.2 ⟨fun x hx => (List.mem_cons.1 hx).elim (· ▸ hlt)
        fun hx => lt_trans hlt (h.1 x hx), List.pairwise_cons.2 h⟩
    · exact List.pairwise_cons.2 h
    · -- `s` is above `m`, so every member of the altered rest is above `m`
      have hgt : m < s := lt_of_le_of_ne (not_lt.1 hlt) (Ne.symm heq)
      refine List.pairwise_cons.2 ⟨fun x hx => ?_, ih h.2⟩
      rcases mem_insertMember.1 hx with rfl | hx
      · exact hgt
      · exact h.1 x hx

/-! ## Inserting texts -/

section Insert

variable (t : Trie) (ss : List String)

@[simp]
theorem rejected_foldl_insert : (ss.foldl insert t).rejected = t.rejected := by
  induction ss generalizing t with
  | nil => rfl
  | cons s rest ih => exact ih _

theorem mem_members_foldl_insert (x : String) :
    x ∈ (ss.foldl insert t).members ↔ x ∈ t.members ∨ x ∈ ss := by
  induction ss generalizing t with
  | nil => simp
  | cons s rest ih =>
    rw [List.foldl_cons, ih, insert, mem_insertMember, List.mem_cons]
    tauto

theorem length_members_foldl_insert {ss : List String} (hnd : ss.Nodup)
    (hnew : ∀ s ∈ ss, s ∉ t.members) :
    (ss.foldl insert t).members.length = t.members.length + ss.length := by
  induction ss generalizing t with
  | nil => rfl
  | cons s rest ih =>
    rw [List.nodup_cons] at hnd
    have hrest : ∀ x ∈ rest, x ∉ (t.insert s).members := by
      intro x hx hmem
      rcases mem_insertMember.1 hmem with rfl | hmem
      · exact hnd.1 hx
      · exact hnew x (List.mem_cons_of_mem _ hx) hmem
    rw [List.foldl_cons, ih _ hnd.2 hrest, insert,
      length_insertMember (hnew s List.mem_cons_self), List.length_cons]
    omega

end Insert

/-! ## Lenient additions -/

/-- A lenient addition prunes the texts of its candidates, inserts the new ones, reports how
    many there were, and records and reports the values without text. -/
theorem add_false (t : Trie) (vs : List Candidate) :
    t.add vs false =
      (.ok ⟨(t.prune (Candidate.texts vs)).length, Candidate.failures vs⟩,
        { (t.prune (Candidate.texts vs)).foldl insert t with
          rejected := t.rejected ++ Candidate.failures vs }) := by
  rw [add, coerceFrom_false]
  simp only [List.nil_append, rejected_foldl_insert]

theorem addLenient_eq (t : Trie) (vs : List Candidate) :
    t.addLenient vs = (⟨(t.prune (Candidate.texts vs)).length, Candidate.failures vs⟩,
      (t.add vs false).2) := by
  rw [addLenient, add_false]

theorem mem_members_add_false (t : Trie) (vs : List Candidate) (s : String) :
    s ∈ (t.add vs false).2.members ↔ s ∈ t.members ∨ s ∈ Candidate.texts vs := by
  rw [add_false]
  change s ∈ ((t.prune (Candidate.texts vs)).foldl insert t).members ↔ _
  rw [mem_members_foldl_insert, mem_prune]
  tauto

theorem len_add_false (t : Trie) (vs : List Candidate) :
    (t.add vs false).2.len = t.len + (t.prune (Candidate.texts vs)).length := by
  rw [add_false]
  exact length_members_foldl_insert t (nodup_prune t _) fun s hs => (mem_prune.1 hs).2

end Trie

end Alternation
