import Alternation.Proofs.Regex.Syntax

/-!
# Reading patterns piece by piece

Two judgements say what reading a text does, whatever was read before it. `Regex.Reads t ps`:
read between pieces, in any group at any depth, `t` adds the pieces `ps` to the current branch
and leaves the reader between pieces. `Regex.ReadsBranches t pss`: read at the start of a
branch, `t` leaves the group with the branches `pss` after those it had. Both compose the way
the text does: texts one after another read as their pieces one after another, texts joined
with `|` read as one branch each, and a group around branches reads as one piece.

Main results:

* `Regex.Reads.append`: texts one after another.
* `Regex.reads_lit`, `Regex.reads_escaped`, `Regex.Reads.optional`: single pieces.
* `Regex.ReadsBranches.bar`: a branch, `|`, and further branches.
* `Regex.ReadsBranches.group`, `Regex.ReadsBranches.capture`: groups.
* `Regex.parse_eq_of_readsBranches`: a whole pattern.
-/

namespace Alternation

namespace Regex

/-- Read between pieces, in any group, `t` adds the pieces `ps` to the current branch and leaves
    the reader between pieces. -/
def Reads (t : List Char) (ps : List Regex) : Prop :=
  ∀ (top : Frame) (below : List Frame),
    t.foldlM step ⟨.normal, top, below⟩ = some ⟨.normal, ⟨top.alts, ps.reverse ++ top.cur⟩, below⟩

/-- Read at the start of a branch, `t` leaves the group with the branches `pss` after those it
    had, and the reader between pieces. -/
def ReadsBranches (t : List Char) (pss : List (List Regex)) : Prop :=
  ∀ (alts : List (List Regex)) (below : List Frame), ∃ top : Frame,
    t.foldlM step ⟨.normal, ⟨alts, []⟩, below⟩ = some ⟨.normal, top, below⟩ ∧
      top.branches = alts.reverse ++ pss

/-! ## Single characters -/

theorem foldlM_cons_of_step {c : Char} {rest : List Char} {r r' : Reader} (h : step r c = some r') :
    (c :: rest).foldlM step r = rest.foldlM step r' := by
  rw [List.foldlM_cons, h]
  rfl

/-- Right after `(`, any character but `?` starts a capturing group and is read in it. -/
theorem step_groupOpen {c : Char} (h : c ≠ '?') (top : Frame) (below : List Frame) :
    step ⟨.groupOpen, top, below⟩ c = step ⟨.normal, .empty, top :: below⟩ c := by
  simp only [step, h, if_false]

theorem step_close (top parent : Frame) (below : List Frame) :
    step ⟨.normal, top, parent :: below⟩ ')' =
      some ⟨.normal, parent.push (.alt top.branches), below⟩ := by
  simp [step, readNormal, syntaxChars]

theorem step_bar (top : Frame) (below : List Frame) :
    step ⟨.normal, top, below⟩ '|' = some ⟨.normal, ⟨top.cur.reverse :: top.alts, []⟩, below⟩ := by
  simp [step, readNormal, syntaxChars]

/-- A `?` with no piece before it in its branch is refused. -/
theorem step_question_start (alts : List (List Regex)) (below : List Frame) :
    step ⟨.normal, ⟨alts, []⟩, below⟩ '?' = none := by
  simp [step, readNormal, syntaxChars, Frame.repeatLast]

theorem repeatLast_of_not_rep {r : Regex} (hr : r.isRep = false) (f : Frame) (k : Repetition) :
    Frame.repeatLast ⟨f.alts, r :: f.cur⟩ k = some ⟨f.alts, .rep k true r :: f.cur⟩ := by
  cases r with
  | rep => simp [isRep] at hr
  | lit => cases k <;> rfl
  | set => cases k <;> rfl
  | alt => cases k <;> rfl

/-- A character with no meaning of its own outside a class reads as itself. -/
theorem reads_lit {c : Char} (h : c ∉ syntaxChars) : Reads [c] [.lit c] := by
  intro top below
  simp [step, readNormal, h, Frame.push]

/-- A backslash makes any meta character literal. -/
theorem reads_escaped {c : Char} (h : c ∈ metaChars) : Reads ['\\', c] [.lit c] := by
  intro top below
  simp [step, readNormal, syntaxChars, h, Frame.push]

/-! ## Composition -/

theorem reads_nil : Reads [] [] := by
  intro top below
  rfl

/-- Texts read one after another read as their pieces one after another. -/
theorem Reads.append {t u : List Char} {ps qs : List Regex} (ht : Reads t ps) (hu : Reads u qs) :
    Reads (t ++ u) (ps ++ qs) := by
  intro top below
  rw [List.foldlM_append, ht top below]
  show u.foldlM step ⟨.normal, ⟨top.alts, ps.reverse ++ top.cur⟩, below⟩ = _
  rw [hu, List.reverse_append, List.append_assoc]

/-- A `?` after a single piece that is no repetition makes that piece optional. -/
theorem Reads.optional {t : List Char} {r : Regex} (ht : Reads t [r]) (hr : r.isRep = false) :
    Reads (t ++ ['?']) [.rep .zeroOrOne true r] := by
  intro top below
  rw [List.foldlM_append, ht top below]
  show step ⟨.normal, ⟨top.alts, r :: top.cur⟩, below⟩ '?' >>= _ = _
  simp [step, readNormal, syntaxChars, repeatLast_of_not_rep hr top]

theorem Reads.branches {t : List Char} {ps : List Regex} (h : Reads t ps) : ReadsBranches t [ps] := by
  intro alts below
  refine ⟨⟨alts, ps.reverse⟩, ?_, ?_⟩
  · rw [h ⟨alts, []⟩ below, List.append_nil]
  · simp [Frame.branches]

theorem ReadsBranches.bar {t u : List Char} {ps : List Regex} {pss : List (List Regex)}
    (ht : Reads t ps) (hu : ReadsBranches u pss) : ReadsBranches (t ++ '|' :: u) (ps :: pss) := by
  intro alts below
  obtain ⟨top, hrun, hbr⟩ := hu (ps :: alts) below
  refine ⟨top, ?_, ?_⟩
  · rw [List.foldlM_append, ht ⟨alts, []⟩ below]
    show ('|' :: u).foldlM step ⟨.normal, ⟨alts, ps.reverse ++ []⟩, below⟩ = _
    rw [List.foldlM_cons, step_bar]
    simpa using hrun
  · rw [hbr]
    simp

theorem ReadsBranches.head_ne_question {u : List Char} {pss : List (List Regex)}
    (h : ReadsBranches u pss) (rest : List Char) : u ≠ '?' :: rest := by
  rintro rfl
  obtain ⟨top, hrun, -⟩ := h [] []
  rw [List.foldlM_cons, step_question_start] at hrun
  cases hrun

/-- The text of a group read from its first branch on, and the closing parenthesis. -/
theorem ReadsBranches.close {u : List Char} {pss : List (List Regex)} (h : ReadsBranches u pss)
    (top : Frame) (below : List Frame) :
    (u ++ [')']).foldlM step ⟨.normal, .empty, top :: below⟩ =
      some ⟨.normal, top.push (.alt pss), below⟩ := by
  obtain ⟨inner, hrun, hbr⟩ := h [] (top :: below)
  rw [List.foldlM_append]
  show (u.foldlM step ⟨.normal, ⟨[], []⟩, top :: below⟩ >>= _) = _
  rw [hrun]
  show step ⟨.normal, inner, top :: below⟩ ')' >>= _ = _
  rw [step_close, hbr]
  rfl

/-- A non-capturing group around branches reads as one piece. -/
theorem ReadsBranches.group {u : List Char} {pss : List (List Regex)} (h : ReadsBranches u pss) :
    Reads ('(' :: '?' :: ':' :: (u ++ [')'])) [.alt pss] := by
  intro top below
  have hopen : step ⟨.normal, top, below⟩ '(' = some ⟨.groupOpen, top, below⟩ := by
    simp [step, readNormal, syntaxChars]
  have hquery : step ⟨.groupOpen, top, below⟩ '?' = some ⟨.groupQuery, top, below⟩ := by
    simp [step]
  have hcolon : step ⟨.groupQuery, top, below⟩ ':' = some ⟨.normal, .empty, top :: below⟩ := by
    simp [step]
  rw [foldlM_cons_of_step hopen, foldlM_cons_of_step hquery, foldlM_cons_of_step hcolon]
  exact h.close top below

/-- A capturing group around branches reads as one piece. -/
theorem ReadsBranches.capture {u : List Char} {pss : List (List Regex)} (h : ReadsBranches u pss) :
    Reads ('(' :: (u ++ [')'])) [.alt pss] := by
  intro top below
  have hopen : step ⟨.normal, top, below⟩ '(' = some ⟨.groupOpen, top, below⟩ := by
    simp [step, readNormal, syntaxChars]
  -- the first character after `(` is not `?`, so it is read inside the new group
  have hfirst : ∀ (c : Char) (rest : List Char), u ++ [')'] = c :: rest →
      (c :: rest).foldlM step ⟨.groupOpen, top, below⟩ =
        (c :: rest).foldlM step ⟨.normal, .empty, top :: below⟩ := by
    intro c rest hcr
    have hc : c ≠ '?' := by
      rintro rfl
      cases u with
      | nil => simp at hcr
      | cons d u' =>
        obtain ⟨rfl, -⟩ := List.cons.inj hcr
        exact h.head_ne_question u' rfl
    rw [List.foldlM_cons, List.foldlM_cons, step_groupOpen hc]
  obtain ⟨c, rest, hcr⟩ := List.exists_cons_of_ne_nil (List.append_ne_nil_of_right_ne_nil u
    (List.cons_ne_nil ')' []))
  rw [foldlM_cons_of_step hopen, hcr, hfirst c rest hcr, ← hcr]
  exact h.close top below

/-- A whole pattern whose branches read as `pss` is the alternation of `pss`. -/
theorem parse_eq_of_readsBranches {t : List Char} {pss : List (List Regex)}
    (h : ReadsBranches t pss) : parse t = some (.alt pss) := by
  obtain ⟨top, hrun, hbr⟩ := h [] []
  unfold parse
  rw [show Reader.init = ⟨.normal, ⟨[], []⟩, []⟩ from rfl, hrun]
  simp [hbr]

end Regex

end Alternation
