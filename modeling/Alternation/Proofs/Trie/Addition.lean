import Alternation.Proofs.Trie.Reachable
import Mathlib.Data.Finset.Card

/-!
# What an addition does

An addition coerces a batch of candidates in one pass. A strict pass that meets a candidate
without a text stops there: the addition fails with that candidate's value, records it after the
values recorded before, and leaves the tree and the member set alone, so the values of later
candidates are never recorded. A lenient addition, and a strict one whose candidates all have
texts, inserts every text and records every value without text, in the order met; it reports as
inserted the number of distinct texts that were not members yet.

Main results:

* `Trie.add_strict_outcome`: a strict addition is the lenient one when every candidate has a
  text, and otherwise fails at the first candidate without one, recording it alone.
* `Trie.add_lenient_outcome`: a lenient addition adds the texts to the members, counts the new
  ones, and records the values without text after the old ones.
-/

namespace Alternation

namespace Trie

/-- A strict addition. When every candidate has a text it is the lenient addition and skips
    nothing. Otherwise it fails with the value of the first candidate without a text, in list
    order, keeps the tree and the members, and records that value alone after the values
    recorded before. -/
theorem add_strict_outcome (t : Trie) (vs : List Candidate) :
    ((∀ v ∈ vs, ∃ s, v.coerce = .ok s) →
      t.add vs true = t.add vs false ∧ ∃ o, (t.add vs true).1 = .ok o ∧ o.skipped = []) ∧
    (∀ pre v post u, vs = pre ++ v :: post → (∀ w ∈ pre, ∃ s, w.coerce = .ok s) →
      v.coerce = .error u →
      (t.add vs true).1 = .error u ∧ (t.add vs true).2.root = t.root ∧
        (t.add vs true).2.members = t.members ∧
        (t.add vs true).2.rejected = t.rejected ++ [u]) := by
  refine ⟨fun hall => ?_, fun pre v post u hvs hpre hv => ?_⟩
  · -- with no value to stop at, the strict pass collects what the lenient one does
    have hnil := Candidate.failures_eq_nil hall
    have hpass : coerceFrom true t [] [] vs = coerceFrom false t [] [] vs := by
      rw [coerceFrom_of_texts true t [] [] hall, coerceFrom_false, hnil, List.append_nil]
    have hsame : t.add vs true = t.add vs false := by
      rw [add, hpass, ← add]
    exact ⟨hsame, _, by rw [hsame, add_false], hnil⟩
  · subst hvs
    have hadd : t.add (pre ++ v :: post) true =
        (.error u, { t with rejected := t.rejected ++ [u] }) := by
      rw [add, coerceFrom_of_first_error t [] [] post hpre hv]
    rw [hadd]
    exact ⟨rfl, rfl, rfl, rfl⟩

/-- A strict batch of two texts is the lenient one; a strict batch that meets `null` first fails
    with it, and `true` after it is not recorded. -/
theorem add_strict_of_batches :
    (Trie.ofCandidates [.text "a"]).add [.text "b", .integer 1] true =
        (Trie.ofCandidates [.text "a"]).add [.text "b", .integer 1] false ∧
      ((Trie.ofCandidates [.text "a"]).add [.text "b", .integer 1, .unsupported ⟨"null", "null"⟩,
          .text "c", .unsupported ⟨"bool", "true"⟩] true).1 = .error ⟨"null", "null"⟩ ∧
      ((Trie.ofCandidates [.text "a"]).add [.text "b", .integer 1, .unsupported ⟨"null", "null"⟩,
          .text "c", .unsupported ⟨"bool", "true"⟩] true).2.rejected = [⟨"null", "null"⟩] := by
  have hok : ∀ w ∈ [Candidate.text "b", .integer 1], ∃ s, w.coerce = .ok s := by
    simp [Candidate.coerce]
  have hfail := (add_strict_outcome (Trie.ofCandidates [.text "a"]) [.text "b", .integer 1,
    .unsupported ⟨"null", "null"⟩, .text "c", .unsupported ⟨"bool", "true"⟩]).2
    [.text "b", .integer 1] (.unsupported ⟨"null", "null"⟩)
    [.text "c", .unsupported ⟨"bool", "true"⟩] ⟨"null", "null"⟩ rfl hok rfl
  refine ⟨((add_strict_outcome _ _).1 hok).1, hfail.1, ?_⟩
  rw [hfail.2.2.2]
  rfl

/-! ## Lenient additions -/

theorem length_prune (t : Trie) (ts : List String) :
    (t.prune ts).length = (ts.toFinset \ t.members.toFinset).card := by
  rw [← List.toFinset_card_of_nodup (nodup_prune t ts)]
  congr 1
  ext s
  simp only [List.mem_toFinset, Finset.mem_sdiff, mem_prune]

/-- What a lenient addition of `vs` to `t` does. It succeeds. Its members are the old members
    and the texts of its candidates; it reports as inserted the number of members it adds, which
    is the number of distinct texts that were not members yet; it reports as skipped the values of
    the candidates without text, in the order met with repeats kept; and it records those after
    the values recorded before, so that the recorded values listed are all of these, sorted by
    rendering, then by kind. -/
def LenientOutcome (t : Trie) (vs : List Candidate) : Prop :=
  ∃ o, (t.add vs false).1 = .ok o ∧
    (∀ s, s ∈ (t.add vs false).2.members ↔ s ∈ t.members ∨ ∃ v ∈ vs, v.coerce = .ok s) ∧
    (t.add vs false).2.len = t.len + o.inserted ∧
    o.inserted = ((Candidate.texts vs).toFinset \ t.members.toFinset).card ∧
    o.skipped = Candidate.failures vs ∧
    (t.add vs false).2.rejected = t.rejected ++ o.skipped ∧
    (t.add vs false).2.invalid.Perm (t.rejected ++ o.skipped) ∧
    (t.add vs false).2.invalid.Pairwise (fun a b => Unsupported.compare a b ≠ .gt)

/-- A lenient addition on a reachable trie adds the texts of its candidates, counts the new
    members and records the values without text after the old ones. The member set alone is read
    and written here, by prune and by insertion, so the tree's agreement with it is not needed. -/
theorem add_lenient_outcome {t : Trie} (_h : t.Reachable) (vs : List Candidate) :
    t.LenientOutcome vs := by
  refine ⟨⟨(t.prune (Candidate.texts vs)).length, Candidate.failures vs⟩, by rw [add_false], ?_,
    len_add_false t vs, length_prune t _, rfl, by rw [add_false], ?_, ?_⟩
  · intro s
    rw [mem_members_add_false, Candidate.mem_texts_iff]
  · rw [invalid, add_false]
    exact Unsupported.perm_sort _
  · rw [invalid]
    exact Unsupported.pairwise_sort _

/-- A batch with a text and an integer of the same text, a member, the empty text and `null`
    twice: two members are new, and `null` is recorded twice. -/
theorem add_lenient_outcome_of_batch :
    (Trie.ofCandidates [.text "a"]).Reachable ∧
      (Trie.ofCandidates [.text "a"]).LenientOutcome [.text "1", .integer 1, .text "a",
        .unsupported ⟨"null", "null"⟩, .text "", .unsupported ⟨"null", "null"⟩] :=
  ⟨Reachable.ofCandidates _, add_lenient_outcome (Reachable.ofCandidates _) _⟩

example : ((Trie.ofCandidates [.text "a"]).add [.text "1", .integer 1, .text "a",
    .unsupported ⟨"null", "null"⟩, .text "", .unsupported ⟨"null", "null"⟩] false).2.members =
      ["", "1", "a"] := by
  decide

end Trie

end Alternation
