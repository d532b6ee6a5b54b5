import Alternation.Proofs.Regex.Language
import Alternation.Pattern.Body

/-!
# Escaped characters and classes as atoms

An escaped character reads as one literal piece: every character that `Pattern.escapeLiteral`
puts after a backslash may stand escaped, and every other one has no meaning of its own outside
a class. A class of distinct characters reads as one set, provided none of them is `[`: inside a
class the reader, like the library, takes `[` as the start of a nested class, and
`Pattern.escapeClass` does not escape it. A lone `[` is written as an escaped literal instead of
a class, so it is safe.

The class is read character by character with `Regex.classMode items` as the invariant: the
mode after the characters `items` of the class, the latest first. A `&` or `~` read last leaves
the reader waiting for a second one, which would make an operator; distinct characters never
give one.

Main results:

* `Pattern.spellsAtom_escapeLiteral`: an escaped character matches itself.
* `Pattern.spellsAtom_charClass`: a class of distinct characters, without `[` when there are two
  or more, matches each of them.
* `Pattern.escaped_atoms_match`: both, for classes of ascending characters.
* `Pattern.charClass_bracket_refused`: the class of `[` and `b` is no atom.
-/

namespace Alternation

namespace Regex

/-- The mode after the class characters `items`, the latest first, were read. -/
def classMode : List Char → Mode
  | [] => .classOpen
  | c :: rest => if c = '&' ∨ c = '~' then .classPending c rest else .classItems (c :: rest)

variable {items : List Char} {top : Frame} {below : List Frame}

/-- After class characters, the next character is read as in the middle of a class, unless it
    would close or negate an empty class or double a pending `&` or `~`. -/
theorem step_classMode {x : Char} (hx : (x ≠ '&' ∧ x ≠ '~') ∨ x ∉ items.head?)
    (hopen : items = [] → x ≠ '^' ∧ x ≠ ']' ∧ x ≠ '-') :
    step ⟨classMode items, top, below⟩ x = readClass top below items x := by
  cases items with
  | nil =>
    obtain ⟨h₁, h₂, h₃⟩ := hopen rfl
    simp [classMode, step, h₁, h₂, h₃]
  | cons d rest =>
    by_cases hd : d = '&' ∨ d = '~'
    · have hxd : x ≠ d := by
        rcases hx with ⟨h₁, h₂⟩ | h
        · rcases hd with rfl | rfl
          · exact h₁
          · exact h₂
        · rintro rfl
          exact h rfl
      simp [classMode, hd, step, hxd]
    · simp [classMode, hd, step]

theorem readClass_plain {x : Char} (hx : x ∉ classSyntaxChars ∨ x = '&' ∨ x = '~') :
    readClass top below items x = some ⟨classMode (x :: items), top, below⟩ := by
  rcases hx with hx | rfl | rfl
  · have hamp : ¬(x = '&' ∨ x = '~') := by
      simp only [classSyntaxChars, List.mem_cons, List.not_mem_nil, or_false, not_or] at hx
      simp [hx]
    simp [readClass, hx, classMode, hamp]
  · simp [readClass, classSyntaxChars, classMode]
  · simp [readClass, classSyntaxChars, classMode]

/-- The characters that `Pattern.escapeClass` escapes may stand escaped in a class. -/
theorem step_classEscape {x : Char} (hx : x ∈ Pattern.classSpecials) :
    step ⟨.classEscape items, top, below⟩ x = some ⟨classMode (x :: items), top, below⟩ := by
  simp only [Pattern.classSpecials, List.mem_cons, List.not_mem_nil, or_false] at hx
  rcases hx with rfl | rfl | rfl | rfl <;> simp [step, metaChars, classMode]

theorem step_classMode_close (h : items ≠ []) :
    step ⟨classMode items, top, below⟩ ']' =
      some ⟨.normal, top.push (.set items.reverse), below⟩ := by
  cases items with
  | nil => exact absurd rfl h
  | cons d rest =>
    by_cases hd : d = '&' ∨ d = '~'
    · have hne : ']' ≠ d := by
        rcases hd with rfl | rfl <;> decide
      simp [classMode, hd, step, hne, readClass, classSyntaxChars]
    · simp [classMode, hd, step, readClass, classSyntaxChars]

end Regex

namespace Pattern

open Regex

variable {items : List Char} {top : Regex.Frame} {below : List Regex.Frame}

theorem literalSpecials_subset : literalSpecials ⊆ metaChars := by
  decide

theorem syntaxChars_subset : syntaxChars ⊆ literalSpecials := by
  decide

/-- An escaped character is one literal piece. -/
theorem spellsAtom_escapeLiteral (c : Char) : SpellsAtom (escapeLiteral c).toList (· = [c]) := by
  unfold escapeLiteral escapeWith
  by_cases h : c ∈ literalSpecials
  · rw [if_pos h, String.toList_ofList]
    exact ⟨.lit c, reads_escaped (literalSpecials_subset h), rfl, fun _ => matches_lit_iff⟩
  · rw [if_neg h, String.toList_singleton]
    exact ⟨.lit c, reads_lit fun h' => h (syntaxChars_subset h'), rfl, fun _ => matches_lit_iff⟩

/-- A character other than `[` and the previous one, escaped for a class, is one more class
    character. -/
theorem foldlM_escapeClass {c : Char} (hc : c ≠ '[') (hhead : c ∉ items.head?) :
    (escapeClass c).toList.foldlM step ⟨classMode items, top, below⟩ =
      some ⟨classMode (c :: items), top, below⟩ := by
  unfold escapeClass escapeWith
  by_cases hs : c ∈ classSpecials
  · -- a backslash, then the character
    have hslash : step ⟨classMode items, top, below⟩ '\\' = some ⟨.classEscape items, top, below⟩ := by
      rw [step_classMode (Or.inl ⟨by decide, by decide⟩) (fun _ => ⟨by decide, by decide, by decide⟩)]
      simp [readClass, classSyntaxChars]
    rw [if_pos hs, String.toList_ofList, foldlM_cons_of_step hslash,
      foldlM_cons_of_step (step_classEscape hs)]
    rfl
  · -- the character alone, which is no class syntax but possibly a first `&` or `~`
    simp only [classSpecials, List.mem_cons, List.not_mem_nil, or_false, not_or] at hs
    obtain ⟨hcaret, hdash, hclose, hslash⟩ := hs
    have hplain : c ∉ classSyntaxChars ∨ c = '&' ∨ c = '~' := by
      by_cases hamp : c = '&' ∨ c = '~'
      · exact Or.inr hamp
      · left
        simp only [classSyntaxChars, List.mem_cons, List.not_mem_nil, or_false, not_or] at hamp ⊢
        exact ⟨hclose, hslash, hc, hdash, hamp⟩
    have hstep : step ⟨classMode items, top, below⟩ c = some ⟨classMode (c :: items), top, below⟩ := by
      rw [step_classMode (Or.inr hhead) (fun _ => ⟨hcaret, hclose, hdash⟩), readClass_plain hplain]
    have hnot : ¬c ∈ classSpecials := by
      simp [classSpecials, hcaret, hdash, hclose, hslash]
    rw [if_neg hnot, String.toList_singleton, foldlM_cons_of_step hstep]
    rfl

/-- Distinct characters other than `[`, escaped for a class, are read as class characters. -/
theorem foldlM_escapeClass_flatMap (cs : List Char) (hnd : (items.reverse ++ cs).Nodup)
    (hb : '[' ∉ cs) :
    (cs.flatMap fun c => (escapeClass c).toList).foldlM step ⟨classMode items, top, below⟩ =
      some ⟨classMode (cs.reverse ++ items), top, below⟩ := by
  -- the characters read so far are carried in the mode, so the induction generalizes them
  induction cs generalizing items with
  | nil => rfl
  | cons c cs ih =>
    have hc : c ≠ '[' := fun h => hb (h ▸ List.mem_cons_self)
    have hhead : c ∉ items.head? := by
      intro hmem
      have hd : c ∈ items.reverse := List.mem_reverse.2 (List.mem_of_mem_head? hmem)
      exact (List.nodup_append.1 hnd).2.2 c hd c List.mem_cons_self rfl
    have hnd' : ((c :: items).reverse ++ cs).Nodup := by
      simpa only [List.reverse_cons, List.append_assoc, List.singleton_append] using hnd
    rw [List.flatMap_cons, List.foldlM_append, foldlM_escapeClass hc hhead]
    show List.foldlM step ⟨classMode (c :: items), top, below⟩ _ = _
    rw [ih hnd' fun h => hb (List.mem_cons_of_mem c h), List.reverse_cons, List.append_assoc,
      List.singleton_append]

/-- The class of leaf characters matches each of them: a lone character is escaped as a
    literal, and two or more distinct ones without `[` are read as one set. -/
theorem spellsAtom_charClass {cs : List Char} (hne : cs ≠ []) (hnd : cs.Nodup)
    (hb : '[' ∈ cs → cs = ['[']) :
    SpellsAtom (charClass cs).toList (fun s => ∃ c ∈ cs, s = [c]) := by
  cases cs with
  | nil => exact absurd rfl hne
  | cons c rest =>
    cases rest with
    | nil =>
      refine (spellsAtom_escapeLiteral c).congr fun s => ?_
      simp
    | cons d rest =>
      have hb' : '[' ∉ c :: d :: rest := fun h => by simpa using hb h
      have htext : (charClass (c :: d :: rest)).toList =
          '[' :: ((c :: d :: rest).flatMap fun x => (escapeClass x).toList) ++ [']'] := by
        simp [charClass, String.toList_join, List.flatMap_map]
      refine ⟨.set (c :: d :: rest), fun top below => ?_, rfl, fun s => matches_set_iff⟩
      have hopen : step ⟨.normal, top, below⟩ '[' = some ⟨classMode [], top, below⟩ := by
        simp [step, readNormal, syntaxChars, classMode]
      rw [htext, List.cons_append, foldlM_cons_of_step hopen, List.foldlM_append,
        foldlM_escapeClass_flatMap (c :: d :: rest) (by simpa using hnd) hb']
      show List.foldlM step _ [']'] = _
      rw [foldlM_cons_of_step (step_classMode_close (by simp)), List.append_nil,
        List.reverse_reverse]
      rfl

/-- Escaped characters and classes are atoms of the pattern syntax: every character, escaped for
    use outside a class, reads as one piece matching exactly itself, and the class of ascending
    characters, none of them `[` unless it stands alone, reads as one piece matching exactly each
    of them. -/
theorem escaped_atoms_match (c : Char) (cs : List Char) :
    SpellsAtom (escapeLiteral c).toList (· = [c]) ∧
      (cs ≠ [] → cs.Pairwise (· < ·) → ('[' ∈ cs → cs = ['[']) →
        SpellsAtom (charClass cs).toList (fun s => ∃ x ∈ cs, s = [x])) := by
  refine ⟨spellsAtom_escapeLiteral c, fun hne hsorted hb => ?_⟩
  have hnd : cs.Nodup := hsorted.imp Char.ne_of_lt
  exact spellsAtom_charClass hne hnd hb

/-- The specials of a class, escaped, with a plain character after them; a lone `[` is escaped
    as a literal. -/
theorem escaped_atoms_match_of_specials :
    ['-', '\\', ']', '^', 'b'].Pairwise (· < ·) ∧
      SpellsAtom (escapeLiteral '[').toList (· = ['[']) ∧
      SpellsAtom (charClass ['-', '\\', ']', '^', 'b']).toList
        (fun s => ∃ x ∈ ['-', '\\', ']', '^', 'b'], s = [x]) :=
  ⟨by decide, (escaped_atoms_match '[' ['-', '\\', ']', '^', 'b']).1,
    (escaped_atoms_match '[' ['-', '\\', ']', '^', 'b']).2 (by simp) (by decide) (by decide)⟩

/-- `[` is not escaped in a class, so the class of `[` and `b` is written `[[b]`, which the syntax
    reads as the start of a nested class: it is no atom. -/
theorem charClass_bracket_refused :
    charClass ['[', 'b'] = "[[b]" ∧
      ¬SpellsAtom (charClass ['[', 'b']).toList (fun s => ∃ c ∈ ['[', 'b'], s = [c]) := by
  have htext : charClass ['[', 'b'] = "[[b]" := by decide
  refine ⟨htext, ?_⟩
  rintro ⟨r, hr, -, -⟩
  have hread := hr .empty []
  rw [htext] at hread
  -- read from the start of a pattern, the second `[` is refused
  have hnone : ("[[b]" : String).toList.foldlM step ⟨.normal, .empty, []⟩ = none := by
    decide +kernel
  rw [hnone] at hread
  cases hread

end Pattern

end Alternation
