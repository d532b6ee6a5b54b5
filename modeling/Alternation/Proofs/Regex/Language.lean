import Alternation.Proofs.Regex.Reading

/-!
# What a pattern text matches

The reading judgements of `Proofs.Regex.Reading` say which pieces a text reads as; the judgements
here add what those pieces match. `Regex.Spells t L`: read between pieces, `t` reads as pieces
that match exactly the strings of `L`. `Regex.SpellsAtom t L`: `t` reads as one piece, not a
repetition, so that a repetition operator may follow it. `Regex.SpellsBranches t L`: read at the
start of a branch, `t` reads as branches that together match exactly the strings of `L`.

The judgements compose as the reading judgements do, with the languages following: one text
after another matches the concatenations, texts joined with `|` match the union, a group matches
what its branches match, and a `?` adds the empty string.

Main results:

* `Regex.Spells.append`, `Regex.SpellsAtom.optional`: sequences and optional pieces.
* `Regex.spellsBranches_intercalate`: branches joined with `|`.
* `Regex.SpellsBranches.group`, `Regex.SpellsBranches.capture`: groups.
* `Regex.SpellsBranches.parse`: a whole pattern matches exactly its language.
-/

namespace Alternation

namespace Regex

/-- Read between pieces, `t` reads as pieces that match exactly the strings of `L`. -/
def Spells (t : List Char) (L : List Char → Prop) : Prop :=
  ∃ ps, Reads t ps ∧ ∀ s, MatchesSeq ps s ↔ L s

/-- Read between pieces, `t` reads as one piece, no repetition, that matches exactly the strings
    of `L`. -/
def SpellsAtom (t : List Char) (L : List Char → Prop) : Prop :=
  ∃ r, Reads t [r] ∧ r.isRep = false ∧ ∀ s, Matches r s ↔ L s

/-- Read at the start of a branch, `t` reads as branches that together match exactly the strings
    of `L`. -/
def SpellsBranches (t : List Char) (L : List Char → Prop) : Prop :=
  ∃ pss, ReadsBranches t pss ∧ ∀ s, (∃ ps ∈ pss, MatchesSeq ps s) ↔ L s

variable {t u : List Char} {L M : List Char → Prop}

/-! ## Changing the language to an equivalent one -/

theorem Spells.congr (h : Spells t L) (hL : ∀ s, L s ↔ M s) : Spells t M := by
  obtain ⟨ps, hr, hm⟩ := h
  exact ⟨ps, hr, fun s => (hm s).trans (hL s)⟩

theorem SpellsAtom.congr (h : SpellsAtom t L) (hL : ∀ s, L s ↔ M s) : SpellsAtom t M := by
  obtain ⟨r, hr, hrep, hm⟩ := h
  exact ⟨r, hr, hrep, fun s => (hm s).trans (hL s)⟩

theorem SpellsBranches.congr (h : SpellsBranches t L) (hL : ∀ s, L s ↔ M s) :
    SpellsBranches t M := by
  obtain ⟨pss, hr, hm⟩ := h
  exact ⟨pss, hr, fun s => (hm s).trans (hL s)⟩

/-! ## From pieces to branches -/

theorem SpellsAtom.spells (h : SpellsAtom t L) : Spells t L := by
  obtain ⟨r, hr, -, hm⟩ := h
  refine ⟨[r], hr, fun s => ?_⟩
  rw [matchesSeq_singleton_iff]
  exact hm s

theorem Spells.branches (h : Spells t L) : SpellsBranches t L := by
  obtain ⟨ps, hr, hm⟩ := h
  refine ⟨[ps], Reads.branches hr, fun s => ?_⟩
  rw [← hm s]
  simp

theorem spells_nil : Spells [] (· = []) :=
  ⟨[], reads_nil, fun _ => matchesSeq_nil_iff⟩

/-! ## Sequences, options and branches -/

/-- Texts one after another match the concatenations of their matches. -/
theorem Spells.append (ht : Spells t L) (hu : Spells u M) :
    Spells (t ++ u) (fun s => ∃ v w, s = v ++ w ∧ L v ∧ M w) := by
  obtain ⟨ps, hrt, hmt⟩ := ht
  obtain ⟨qs, hru, hmu⟩ := hu
  refine ⟨ps ++ qs, Reads.append hrt hru, fun s => ?_⟩
  rw [matchesSeq_append_iff]
  constructor
  · rintro ⟨v, w, rfl, hv, hw⟩
    exact ⟨v, w, rfl, (hmt v).1 hv, (hmu w).1 hw⟩
  · rintro ⟨v, w, rfl, hv, hw⟩
    exact ⟨v, w, rfl, (hmt v).2 hv, (hmu w).2 hw⟩

/-- A `?` after a piece that is no repetition adds the empty string. -/
theorem SpellsAtom.optional (h : SpellsAtom t L) :
    Spells (t ++ ['?']) (fun s => s = [] ∨ L s) := by
  obtain ⟨r, hr, hrep, hm⟩ := h
  refine ⟨[.rep .zeroOrOne true r], Reads.optional hr hrep, fun s => ?_⟩
  rw [matchesSeq_singleton_iff, matches_opt_iff, hm s]

theorem SpellsBranches.bar (ht : Spells t L) (hu : SpellsBranches u M) :
    SpellsBranches (t ++ '|' :: u) (fun s => L s ∨ M s) := by
  obtain ⟨ps, hrt, hmt⟩ := ht
  obtain ⟨pss, hru, hmu⟩ := hu
  refine ⟨ps :: pss, ReadsBranches.bar hrt hru, fun s => ?_⟩
  show (∃ q ∈ ps :: pss, MatchesSeq q s) ↔ L s ∨ M s
  rw [← hmt s, ← hmu s]
  simp

/-- Texts joined with `|` match the union of what each matches. -/
theorem spellsBranches_intercalate (xs : List (List Char × (List Char → Prop)))
    (h : ∀ x ∈ xs, Spells x.1 x.2) (hne : xs ≠ []) :
    SpellsBranches (['|'].intercalate (xs.map Prod.fst)) (fun s => ∃ x ∈ xs, x.2 s) := by
  induction xs with
  | nil => exact absurd rfl hne
  | cons x xs ih =>
    have hx : Spells x.1 x.2 := h x List.mem_cons_self
    cases xs with
    | nil =>
      rw [List.map_singleton, List.intercalate_singleton]
      refine (Spells.branches hx).congr fun s => ?_
      simp
    | cons y ys =>
      have hrest := ih (fun z hz => h z (List.mem_cons_of_mem x hz)) (List.cons_ne_nil y ys)
      rw [List.map_cons, List.map_cons, List.intercalate_cons_cons, List.append_assoc,
        List.singleton_append, ← List.map_cons]
      refine (SpellsBranches.bar hx hrest).congr fun s => ?_
      simp

/-! ## Groups -/

/-- A non-capturing group matches what its branches match. -/
theorem SpellsBranches.group (h : SpellsBranches u L) :
    SpellsAtom ('(' :: '?' :: ':' :: (u ++ [')'])) L := by
  obtain ⟨pss, hr, hm⟩ := h
  refine ⟨.alt pss, ReadsBranches.group hr, rfl, fun s => ?_⟩
  rw [matches_alt_iff]
  exact hm s

/-- A capturing group matches what its branches match. -/
theorem SpellsBranches.capture (h : SpellsBranches u L) : SpellsAtom ('(' :: (u ++ [')'])) L := by
  obtain ⟨pss, hr, hm⟩ := h
  refine ⟨.alt pss, ReadsBranches.capture hr, rfl, fun s => ?_⟩
  rw [matches_alt_iff]
  exact hm s

/-- A whole pattern whose branches match `L` is accepted, and matches exactly `L`. -/
theorem SpellsBranches.parse (h : SpellsBranches t L) :
    ∃ r, parse t = some r ∧ ∀ s, Matches r s ↔ L s := by
  obtain ⟨pss, hr, hm⟩ := h
  refine ⟨.alt pss, parse_eq_of_readsBranches hr, fun s => ?_⟩
  rw [matches_alt_iff]
  exact hm s

end Regex

end Alternation
