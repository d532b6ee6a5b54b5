import Alternation.Proofs.Pattern.Atoms
import Alternation.Proofs.Pattern.Stack
import Alternation.Proofs.Trie.Reachable

/-!
# What the pattern of a trie matches

The pattern of a trie with members is read by the pattern dialect's syntax, and matched as a
whole it matches exactly the members, provided that no node gathers `[` into a class with other
leaf characters. Such a class is written `[[…]`, which the dialect reads as a nested class; the
pattern of the members `[` and `b` is refused (`Trie.pattern_refused_of_bracket_class`).

The proof follows the text. Each combinator of `Pattern.combine` keeps the judgements of
`Proofs.Regex.Language`: joined alternates match the union, a group matches what its branches
match, and a `?` after an atom adds the empty string. By induction on the tree, the text of every
node with branches then matches the words below the node.

Main results:

* `Pattern.spells_combine`: the text of a node from its parts matches the union of the parts.
* `Node.Shaped.spells_alternation`: the text of a node matches the words below it.
* `Trie.pattern_matches_exactly_members`: the pattern of a reachable trie matches its members.
-/

namespace Alternation

namespace Pattern

open Regex

/-! ## The combinators -/

@[simp]
theorem toList_group (body : String) :
    ("(?:" ++ body ++ ")").toList = '(' :: '?' :: ':' :: (body.toList ++ [')']) := by
  simp [String.toList_append]

@[simp]
theorem toList_capture (body : String) :
    ("(" ++ body ++ ")").toList = '(' :: (body.toList ++ [')']) := by
  simp [String.toList_append]

theorem spellsBranches_join (xs : List (String × (List Char → Prop)))
    (h : ∀ x ∈ xs, Spells x.1.toList x.2) (hne : xs ≠ []) :
    SpellsBranches ("|".intercalate (xs.map Prod.fst)).toList (fun s => ∃ x ∈ xs, x.2 s) := by
  have hjoin := spellsBranches_intercalate (xs.map fun x => (x.1.toList, x.2))
    (fun y hy => by
      obtain ⟨x, hx, rfl⟩ := List.mem_map.1 hy
      exact h x hx)
    (by simpa using hne)
  have htext : ("|".intercalate (xs.map Prod.fst)).toList =
      ['|'].intercalate ((xs.map fun x => (x.1.toList, x.2)).map Prod.fst) := by
    simp [String.toList_intercalate, List.map_map, Function.comp_def]
  rw [htext]
  refine hjoin.congr fun s => ⟨?_, ?_⟩
  · rintro ⟨y, hy, hys⟩
    obtain ⟨x, hx, rfl⟩ := List.mem_map.1 hy
    exact ⟨x, hx, hys⟩
  · rintro ⟨x, hx, hxs⟩
    exact ⟨_, List.mem_map_of_mem hx, hxs⟩

/-- Below the root, alternates stand bare when there is one, else in a non-capturing group. -/
theorem spells_alternation_inner (xs : List (String × (List Char → Prop)))
    (h : ∀ x ∈ xs, Spells x.1.toList x.2) (hne : xs ≠ []) :
    Spells (alternation (xs.map Prod.fst) false).toList (fun s => ∃ x ∈ xs, x.2 s) := by
  cases xs with
  | nil => exact absurd rfl hne
  | cons x rest =>
    cases rest with
    | nil =>
      refine (h x List.mem_cons_self).congr fun s => ?_
      simp
    | cons y zs =>
      have hjoin := spellsBranches_join (x :: y :: zs) h (List.cons_ne_nil x _)
      have htext : alternation ((x :: y :: zs).map Prod.fst) false =
          "(?:" ++ "|".intercalate ((x :: y :: zs).map Prod.fst) ++ ")" := rfl
      rw [htext, toList_group]
      exact hjoin.group.spells

/-- At the root, alternates stand bare, joined with `|`. -/
theorem spellsBranches_alternation_outer (xs : List (String × (List Char → Prop)))
    (h : ∀ x ∈ xs, Spells x.1.toList x.2) (hne : xs ≠ []) :
    SpellsBranches (alternation (xs.map Prod.fst) true).toList (fun s => ∃ x ∈ xs, x.2 s) := by
  cases xs with
  | nil => exact absurd rfl hne
  | cons x rest =>
    cases rest with
    | nil =>
      refine (h x List.mem_cons_self).branches.congr fun s => ?_
      simp
    | cons y zs => exact spellsBranches_join (x :: y :: zs) h (List.cons_ne_nil x _)

theorem spellsBranches_alternation (xs : List (String × (List Char → Prop)))
    (h : ∀ x ∈ xs, Spells x.1.toList x.2) (hne : xs ≠ []) (outermost : Bool) :
    SpellsBranches (alternation (xs.map Prod.fst) outermost).toList (fun s => ∃ x ∈ xs, x.2 s) := by
  cases outermost with
  | false => exact (spells_alternation_inner xs h hne).branches
  | true => exact spellsBranches_alternation_outer xs h hne

/-! ## A node's text from its parts -/

/-- The strings of a node's parts: the empty string when it is terminal, the strings of its
    alternates, and the one-character strings of its class. -/
def PartsLang (terminal : Bool) (xs : List (String × (List Char → Prop))) (cs : List Char)
    (s : List Char) : Prop :=
  (terminal = true ∧ s = []) ∨ (∃ x ∈ xs, x.2 s) ∨ ∃ c ∈ cs, s = [c]

/-- The alternates of a node with the class of its leaf characters last, when there is one. -/
def withClass (xs : List (String × (List Char → Prop))) (cs : List Char) :
    List (String × (List Char → Prop)) :=
  if cs.isEmpty then xs else xs ++ [(charClass cs, fun s => ∃ c ∈ cs, s = [c])]

section WithClass

variable {xs : List (String × (List Char → Prop))} {cs : List Char}

theorem map_fst_withClass :
    (withClass xs cs).map Prod.fst =
      if cs.isEmpty then xs.map Prod.fst else xs.map Prod.fst ++ [charClass cs] := by
  by_cases hc : cs.isEmpty <;> simp [withClass, hc]

theorem exists_withClass_iff (s : List Char) :
    (∃ x ∈ withClass xs cs, x.2 s) ↔ (∃ x ∈ xs, x.2 s) ∨ ∃ c ∈ cs, s = [c] := by
  by_cases hc : cs.isEmpty
  · have hnil : cs = [] := List.isEmpty_iff.1 hc
    simp [withClass, hnil]
  · simp [withClass, hc, or_and_right, exists_or]

theorem withClass_ne_nil (hne : xs ≠ [] ∨ cs ≠ []) : withClass xs cs ≠ [] := by
  by_cases hc : cs.isEmpty <;> simp_all [withClass]

theorem spells_withClass (hxs : ∀ x ∈ xs, Spells x.1.toList x.2) (hnd : cs.Nodup)
    (hb : '[' ∈ cs → cs = ['[']) : ∀ x ∈ withClass xs cs, Spells x.1.toList x.2 := by
  intro x hx
  by_cases hc : cs.isEmpty
  · simp only [withClass, hc, if_true] at hx
    exact hxs x hx
  · simp only [withClass, hc, Bool.false_eq_true, if_false, List.mem_append,
      List.mem_singleton] at hx
    rcases hx with hx | rfl
    · exact hxs x hx
    · have hne : cs ≠ [] := fun h => hc (List.isEmpty_iff.2 h)
      exact (spellsAtom_charClass hne hnd hb).spells

end WithClass

@[simp]
theorem toList_optionalGroup (body : String) :
    ("(?:" ++ body ++ ")?").toList = ('(' :: '?' :: ':' :: (body.toList ++ [')'])) ++ ['?'] := by
  simp [String.toList_append]

/-- The text of a node from its parts matches exactly the strings of the parts: below the root as
    pieces, and at the root as branches. -/
theorem spells_combine (terminal : Bool) (xs : List (String × (List Char → Prop)))
    (cs : List Char) (hxs : ∀ x ∈ xs, Spells x.1.toList x.2) (hnd : cs.Nodup)
    (hb : '[' ∈ cs → cs = ['[']) (hne : xs ≠ [] ∨ cs ≠ []) :
    Spells (combine terminal (xs.map Prod.fst) cs false).toList (PartsLang terminal xs cs) ∧
      SpellsBranches (combine terminal (xs.map Prod.fst) cs true).toList
        (PartsLang terminal xs cs) := by
  have hall := spells_withClass hxs hnd hb
  have hall_ne := withClass_ne_nil hne
  cases terminal with
  | false =>
    have hjoined : ∀ o, combine false (xs.map Prod.fst) cs o =
        alternation ((withClass xs cs).map Prod.fst) o := by
      intro o
      rw [map_fst_withClass]
      rfl
    have hL : ∀ s, (∃ x ∈ withClass xs cs, x.2 s) ↔ PartsLang false xs cs s := by
      intro s
      rw [exists_withClass_iff]
      simp [PartsLang]
    rw [hjoined, hjoined]
    exact ⟨(spells_alternation_inner _ hall hall_ne).congr hL,
      (spellsBranches_alternation_outer _ hall hall_ne).congr hL⟩
  | true =>
    -- a terminal node makes its joined parts optional, the same way at every depth
    have hopt : ∀ o, Spells (combine true (xs.map Prod.fst) cs o).toList (PartsLang true xs cs) := by
      intro o
      cases xs with
      | nil =>
        -- only the class: an atom, made optional by a bare `?`
        have hcs : cs ≠ [] := by simpa using hne
        have htext : combine true [] cs o = charClass cs ++ "?" := by
          simp [combine, hcs, alternation, optional]
        rw [List.map_nil, htext, String.toList_append]
        refine (spellsAtom_charClass hcs hnd hb).optional.congr fun s => ?_
        simp [PartsLang]
      | cons x rest =>
        -- further alternates: the joined parts in a group, made optional
        have htext : combine true ((x :: rest).map Prod.fst) cs o =
            "(?:" ++ alternation ((withClass (x :: rest) cs).map Prod.fst) o ++ ")?" := by
          rw [map_fst_withClass]
          simp [combine, optional]
        rw [htext, toList_optionalGroup]
        refine (spellsBranches_alternation _ hall hall_ne o).group.optional.congr fun s => ?_
        rw [exists_withClass_iff]
        simp [PartsLang]
    exact ⟨hopt false, (hopt true).branches⟩

end Pattern

namespace Node

open Regex Pattern

/-! ## The text of a node -/

/-- The characters of the branches that end at a leaf: the node's class. -/
def leafChars (n : Node) : List Char :=
  (n.children.filter fun b => b.2.children.isEmpty).map Prod.fst

mutual

/-- Whether no node of the tree has `[` in a class with other leaf characters. -/
def classSafe : Node → Bool
  | ⟨terminal, children⟩ =>
    decide ('[' ∈ leafChars ⟨terminal, children⟩ → leafChars ⟨terminal, children⟩ = ['[']) &&
      branchesClassSafe children

/-- Whether no node below a list of branches has `[` in a class with other leaf characters. -/
def branchesClassSafe : List (Char × Node) → Bool
  | [] => true
  | (_, m) :: rest => classSafe m && branchesClassSafe rest

end

theorem branchesClassSafe_iff (l : List (Char × Node)) :
    branchesClassSafe l = true ↔ ∀ b ∈ l, b.2.classSafe = true := by
  induction l with
  | nil => simp [branchesClassSafe]
  | cons b rest ih =>
    obtain ⟨c, m⟩ := b
    simp [branchesClassSafe, ih]

theorem classSafe_iff (n : Node) :
    n.classSafe = true ↔
      ('[' ∈ n.leafChars → n.leafChars = ['[']) ∧ ∀ b ∈ n.children, b.2.classSafe = true := by
  obtain ⟨terminal, children⟩ := n
  rw [classSafe, Bool.and_eq_true, decide_eq_true_eq, branchesClassSafe_iff]

theorem nodup_leafChars {n : Node} (hk : (n.children.map Prod.fst).Nodup) : n.leafChars.Nodup :=
  (List.filter_sublist.map Prod.fst).nodup hk

/-- The strings a branch leads to: its character, then a word below it. -/
def branchLang (b : Char × Node) (s : List Char) : Prop :=
  ∃ w, s = b.1 :: w ∧ b.2.accepts w = true

/-- The alternates of the branches that lead further, each with the strings it should match. -/
def spelledAlternates (l : List (Char × Node)) : List (String × (List Char → Prop)) :=
  (l.filter fun b => !b.2.children.isEmpty).map fun b =>
    (escapeLiteral b.1 ++ b.2.alternation false, branchLang b)

theorem branchParts_eq (l : List (Char × Node)) :
    branchParts l =
      ((spelledAlternates l).map Prod.fst, (l.filter fun b => b.2.children.isEmpty).map Prod.fst) := by
  induction l with
  | nil => rfl
  | cons b rest ih =>
    obtain ⟨c, m⟩ := b
    by_cases hm : m.children.isEmpty
    · simp [branchParts, spelledAlternates, hm, ih]
    · simp [branchParts, spelledAlternates, hm, ih]

theorem alternation_eq (terminal : Bool) (l : List (Char × Node)) (outermost : Bool) :
    (Node.mk terminal l).alternation outermost =
      combine terminal ((spelledAlternates l).map Prod.fst) (Node.mk terminal l).leafChars
        outermost := by
  simp only [alternation, branchParts_eq, leafChars]

theorem parts_ne_nil {l : List (Char × Node)} (hl : l ≠ []) :
    spelledAlternates l ≠ [] ∨ (l.filter fun b => b.2.children.isEmpty).map Prod.fst ≠ [] := by
  obtain ⟨b, rest, rfl⟩ := List.exists_cons_of_ne_nil hl
  by_cases hb : b.2.children.isEmpty
  · right
    simp [hb]
  · left
    simp [spelledAlternates, hb]

theorem accepts_of_children_eq_nil {m : Node} (hm : m.children = []) (w : List Char) :
    m.accepts w = true ↔ w = [] ∧ m.terminal = true := by
  cases w with
  | nil => simp
  | cons c w => simp [accepts_cons, child?, hm]

/-- A shaped node accepts exactly the strings of its parts: the empty string when terminal, a
    word through a branch that leads further, or the character of a leaf branch. -/
theorem Shaped.accepts_iff {n : Node} (h : n.Shaped) (s : List Char) :
    n.accepts s = true ↔ PartsLang n.terminal (spelledAlternates n.children) n.leafChars s := by
  cases s with
  | nil => simp [PartsLang, spelledAlternates, branchLang, leafChars]
  | cons c w =>
    rw [accepts_cons_iff h.keys_nodup]
    constructor
    · rintro ⟨m, hm, hw⟩
      by_cases hleaf : m.children.isEmpty
      · -- a leaf branch: the word ends at it
        have hnil : m.children = [] := List.isEmpty_iff.1 hleaf
        obtain ⟨rfl, -⟩ := (accepts_of_children_eq_nil hnil w).1 hw
        exact .inr (.inr ⟨c, List.mem_map.2 ⟨(c, m), List.mem_filter.2 ⟨hm, hleaf⟩, rfl⟩, rfl⟩)
      · have hlead : (!m.children.isEmpty) = true := by simpa using hleaf
        exact .inr (.inl ⟨_, List.mem_map.2 ⟨(c, m), List.mem_filter.2 ⟨hm, hlead⟩, rfl⟩,
          w, rfl, hw⟩)
    · rintro (⟨-, hnil⟩ | ⟨x, hx, hxs⟩ | ⟨d, hd, hs⟩)
      · exact absurd hnil (List.cons_ne_nil c w)
      · obtain ⟨b, hb, rfl⟩ := List.mem_map.1 hx
        obtain ⟨w', hs, hw⟩ := hxs
        obtain ⟨rfl, rfl⟩ := List.cons.inj hs
        exact ⟨b.2, (List.mem_filter.1 hb).1, hw⟩
      · obtain ⟨b, hb, rfl⟩ := List.mem_map.1 hd
        obtain ⟨hbc, hleaf⟩ := List.mem_filter.1 hb
        obtain ⟨rfl, rfl⟩ := List.cons.inj hs
        -- a leaf branch of a shaped tree ends a word
        have hnil : b.2.children = [] := List.isEmpty_iff.1 hleaf
        have ht : b.2.terminal = true := (h.live hbc).resolve_right (not_not.2 hnil)
        exact ⟨b.2, hbc, (accepts_of_children_eq_nil hnil []).2 ⟨rfl, ht⟩⟩

/-- The text of every node with branches matches exactly the words below it: below the root as
    pieces, and at the root as branches. -/
theorem Shaped.spells_alternation {n : Node} (h : n.Shaped) (hsafe : n.classSafe = true)
    (hne : n.children ≠ []) :
    Spells (n.alternation false).toList (fun s => n.accepts s = true) ∧
      SpellsBranches (n.alternation true).toList (fun s => n.accepts s = true) := by
  -- induction on the shape, which gives the statement for every branch
  induction h with
  | @mk terminal children hsorted hlive hchild ih =>
    have hshaped : (Node.mk terminal children).Shaped := .mk hsorted hlive hchild
    have hk := hshaped.keys_nodup
    obtain ⟨hleaf, hbranches⟩ := (classSafe_iff _).1 hsafe
    -- a branch that leads further matches its character, then the words below it
    have halts : ∀ x ∈ spelledAlternates children, Spells x.1.toList x.2 := by
      intro x hx
      obtain ⟨b, hb, rfl⟩ := List.mem_map.1 hx
      obtain ⟨hbc, hlead⟩ := List.mem_filter.1 hb
      have hsub := (ih b hbc (hbranches b hbc) (by simpa using hlead)).1
      rw [String.toList_append]
      refine ((spellsAtom_escapeLiteral b.1).spells.append hsub).congr fun s => ?_
      simp [branchLang]
    have hparts := spells_combine terminal (spelledAlternates children) _ halts
      (nodup_leafChars hk) hleaf (parts_ne_nil hne)
    rw [alternation_eq, alternation_eq]
    exact ⟨hparts.1.congr fun s => (hshaped.accepts_iff s).symm,
      hparts.2.congr fun s => (hshaped.accepts_iff s).symm⟩

/-- The body of a tree that has a word matches exactly its words, as branches. -/
theorem Shaped.spellsBranches_body {n : Node} (h : n.Shaped) (hsafe : n.classSafe = true)
    (hne : n.terminal = true ∨ n.children ≠ []) :
    SpellsBranches (n.bodyByStack?.getD "").toList (fun s => n.accepts s = true) := by
  rw [bodyByStack?_eq_body?, body?]
  by_cases hc : n.children.isEmpty
  · -- a terminal root without branches: the empty body matches the empty word
    have hnil : n.children = [] := List.isEmpty_iff.1 hc
    have ht : n.terminal = true := hne.resolve_right (not_not.2 hnil)
    have hempty : ("" : String).toList = [] := by simp
    rw [if_pos hc, Option.getD_none, hempty]
    refine spells_nil.branches.congr fun s => ?_
    rw [accepts_of_children_eq_nil hnil]
    simp [ht]
  · rw [if_neg hc, Option.getD_some]
    exact (h.spells_alternation hsafe fun hnil => hc (List.isEmpty_iff.2 hnil)).2

end Node

namespace Pattern

open Regex

/-- A body whose branches match `L` is accepted in each grouping, and matches `L`. -/
theorem parse_wrap {body : String} {L : List Char → Prop} (h : SpellsBranches body.toList L)
    (group : Option Bool) :
    ∃ r, parse (wrap body false group).toList = some r ∧ ∀ s, Matches r s ↔ L s := by
  cases group with
  | none => exact h.parse
  | some capturing =>
    cases capturing with
    | false =>
      have htext : wrap body false (some false) = "(?:" ++ body ++ ")" := rfl
      rw [htext, toList_group]
      exact h.group.spells.branches.parse
    | true =>
      have htext : wrap body false (some true) = "(" ++ body ++ ")" := rfl
      rw [htext, toList_capture]
      exact h.capture.spells.branches.parse

end Pattern

namespace Trie

/-- The pattern of a reachable trie with members, without word boundaries and in every grouping,
    is accepted by the pattern syntax, and matched as a whole it matches exactly the members,
    provided no node has `[` in a class with other leaf characters. -/
theorem pattern_matches_exactly_members {t : Trie} (h : t.Reachable) (hne : t.members ≠ [])
    (hsafe : t.root.classSafe = true) (capturing : Option Bool) :
    ∃ r, Regex.parse (t.pattern false capturing).toList = some r ∧
      ∀ s : String, Regex.Matches r s.toList ↔ s ∈ t.members := by
  have hc := h.coherent
  -- a trie with members has a terminal root or a branch
  have hroot : t.root.terminal = true ∨ t.root.children ≠ [] := by
    by_contra hcon
    rw [not_or, Bool.not_eq_true, not_not] at hcon
    exact hne (hc.members_eq_nil_iff.2 hcon)
  obtain ⟨r, hparse, hmatch⟩ :=
    Pattern.parse_wrap (hc.shaped.spellsBranches_body hsafe hroot) (Pattern.groupFor false capturing)
  -- the pattern matches the words of the tree, and those are the members
  refine ⟨r, hparse, fun s => ?_⟩
  rw [hmatch, hc.mem_iff]

/-- The members `""`, `70`, `[`, `ab` and `ac`: `[` is the lone leaf character of the root, written
    as an escaped literal, and `b`, `c` form a class below `a`. -/
theorem pattern_matches_members_of_batch :
    (Trie.ofCandidates [.text "ab", .text "[", .text "ac", .text "", .integer 70]).Reachable ∧
      (Trie.ofCandidates [.text "ab", .text "[", .text "ac", .text "", .integer 70]).members ≠ [] ∧
      (Trie.ofCandidates [.text "ab", .text "[", .text "ac", .text "", .integer 70]).root.classSafe
        = true ∧
      ∃ r, Regex.parse ((Trie.ofCandidates [.text "ab", .text "[", .text "ac", .text "",
          .integer 70]).pattern false (some true)).toList = some r ∧
        ∀ s : String, Regex.Matches r s.toList ↔
          s ∈ (Trie.ofCandidates [.text "ab", .text "[", .text "ac", .text "", .integer 70]).members :=
  ⟨Reachable.ofCandidates _, by decide, by decide,
    pattern_matches_exactly_members (Reachable.ofCandidates _) (by decide) (by decide) (some true)⟩

/-- With `[` and another leaf character below one node, the class is written `[[…]`, which the
    pattern syntax reads as the start of a nested class and refuses. -/
theorem pattern_refused_of_bracket_class :
    (Trie.ofCandidates [.text "[", .text "b"]).pattern false none = "[[b]" ∧
      Regex.parse ((Trie.ofCandidates [.text "[", .text "b"]).pattern false none).toList = none := by
  -- the walk is evaluated through the recursion it agrees with
  rw [Trie.pattern, Node.pattern, Node.bodyByStack?_eq_body?]
  constructor <;> decide

end Trie

end Alternation
