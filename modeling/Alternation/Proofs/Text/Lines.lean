import Alternation.Text.Split
import Mathlib.Data.List.Forall2
import Mathlib.Data.String.Basic

/-!
# Cutting a text at its line breaks

`Text.Pieces cs ps` says how a text is cut at its line breaks: the text is the pieces with a
break after each but the last, where a break is one line-break character or a carriage return
with a line feed; no piece holds a line-break character; a carriage return before a line feed
always breaks together with it; and the text after the last break is a piece only when it is not
empty. Every text has exactly one such cutting, and `Text.lines` finds it.

`Text.splitLines` cuts with byte offsets. The walk keeps the offset where the current piece
started; each range it gives runs from there to a break and both its ends fall between two
characters, so cutting the text there never splits a character, and what it cuts out is the
piece of `Text.lines`.

Main results:

* `Text.lines_eq_iff_pieces`: `lines` gives the one cutting of a text at its breaks.
* `Text.lineRanges_spans`: each range of the walk holds the corresponding piece.
* `Text.splitLines_cuts_at_breaks`: every range runs forward between characters, and the pieces
  cut out are the one cutting of the text at its breaks.
-/

namespace Alternation

namespace Text

/-- A line break as it stands in a text: one line-break character, or a carriage return and a
    line feed together. -/
inductive IsBreak : List Char → Prop
  | single {c : Char} : isLineBreak c = true → IsBreak [c]
  | crlf : IsBreak ['\r', '\n']

/-- A text and its pieces between line breaks: each piece but the last is followed by a break, no
    piece holds a line-break character, a carriage return before a line feed breaks together with
    it, and the text after the last break is a piece only when it is not empty. -/
inductive Pieces : List Char → List (List Char) → Prop
  | nil : Pieces [] []
  | last {p : List Char} : p ≠ [] → (∀ c ∈ p, isLineBreak c = false) → Pieces p [p]
  | cut {p b rest : List Char} {ps : List (List Char)} : (∀ c ∈ p, isLineBreak c = false) →
      IsBreak b → (b = ['\r'] → rest.head? ≠ some '\n') → Pieces rest ps →
      Pieces (p ++ b ++ rest) (p :: ps)

/-! ## The cutting of `lines` -/

theorem ne_cr_of_not_isLineBreak {c : Char} (h : isLineBreak c = false) : c ≠ '\r' := by
  rintro rfl
  exact absurd h (by decide)

theorem linesFrom_cons_of_not_isLineBreak {c : Char} (hc : isLineBreak c = false)
    (acc rest : List Char) : linesFrom acc (c :: rest) = linesFrom (c :: acc) rest := by
  rw [linesFrom.eq_3 _ _ _ fun _ h _ => ne_cr_of_not_isLineBreak hc h, hc,
    if_neg Bool.false_ne_true]

theorem lineRangesFrom_cons_of_not_isLineBreak {c : Char} (hc : isLineBreak c = false)
    (size start i : Nat) (rest : List (Nat × Char)) :
    lineRangesFrom size start ((i, c) :: rest) = lineRangesFrom size start rest := by
  rw [lineRangesFrom.eq_3 _ _ _ _ _ fun _ _ _ h => ne_cr_of_not_isLineBreak hc h, hc,
    if_neg Bool.false_ne_true]

/-- After the characters `acc` of the current piece, latest first, the walk cuts the rest of the
    text at its breaks. -/
theorem pieces_linesFrom (acc cs : List Char) (hacc : ∀ c ∈ acc, isLineBreak c = false) :
    Pieces (acc.reverse ++ cs) (linesFrom acc cs) := by
  fun_induction linesFrom acc cs with
  | case1 acc hempty =>
    rw [List.isEmpty_iff.1 hempty]
    exact .nil
  | case2 acc hne =>
    rw [List.append_nil]
    exact .last (by simpa using hne) (by simpa using hacc)
  | case3 acc r ih =>
    have hcut := Pieces.cut (p := acc.reverse) (by simpa using hacc) .crlf (by simp) (ih (by simp))
    simpa using hcut
  | case4 acc c r hcrlf hbreak ih =>
    -- a break alone: a carriage return here is not followed by a line feed
    have hcr : [c] = ['\r'] → r.head? ≠ some '\n' := by
      intro hc hhead
      obtain ⟨r', rfl⟩ := List.head?_eq_some_iff.1 hhead
      exact hcrlf r' (List.singleton_inj.1 hc) rfl
    have hcut := Pieces.cut (p := acc.reverse) (by simpa using hacc) (.single hbreak) hcr
      (ih (by simp))
    simpa using hcut
  | case5 acc c r _ hbreak ih =>
    have hcut := ih (by simpa [hbreak] using hacc)
    simpa using hcut

theorem linesFrom_of_noBreak (acc p : List Char) (hp : ∀ c ∈ p, isLineBreak c = false) :
    linesFrom acc p = if acc = [] ∧ p = [] then [] else [acc.reverse ++ p] := by
  induction p generalizing acc with
  | nil => cases acc <;> simp [linesFrom]
  | cons c p ih =>
    have hc : isLineBreak c = false := hp c List.mem_cons_self
    rw [linesFrom_cons_of_not_isLineBreak hc, ih (c :: acc) fun d hd => hp d (List.mem_cons_of_mem c hd)]
    simp

/-- A text without line breaks, then a break, ends the current piece at the break. -/
theorem linesFrom_append_break (acc p : List Char) {b rest : List Char}
    (hp : ∀ c ∈ p, isLineBreak c = false) (hb : IsBreak b)
    (hcr : b = ['\r'] → rest.head? ≠ some '\n') :
    linesFrom acc (p ++ b ++ rest) = (acc.reverse ++ p) :: linesFrom [] rest := by
  induction p generalizing acc with
  | nil =>
    cases hb with
    | @single c hc =>
      have hcrlf : ∀ r', c = '\r' → rest = '\n' :: r' → False := fun r' hr hrest =>
        hcr (by rw [hr]) (by simp [hrest])
      rw [List.nil_append, List.singleton_append, linesFrom.eq_3 _ _ _ hcrlf, if_pos hc]
      simp
    | crlf => simp [linesFrom]
  | cons c p ih =>
    have hc : isLineBreak c = false := hp c List.mem_cons_self
    rw [List.cons_append, List.cons_append, linesFrom_cons_of_not_isLineBreak hc,
      ih (c :: acc) fun d hd => hp d (List.mem_cons_of_mem c hd)]
    simp

/-- A cutting of a text at its breaks is the one `lines` finds. -/
theorem eq_lines_of_pieces {cs : List Char} {ps : List (List Char)} (h : Pieces cs ps) :
    ps = lines cs := by
  induction h with
  | nil => rfl
  | last hne hp =>
    rw [lines, linesFrom_of_noBreak [] _ hp]
    simp [hne]
  | cut hp hb hcr _ ih =>
    rw [lines, linesFrom_append_break [] _ hp hb hcr, ← lines, ← ih]
    simp

/-- `lines` gives the one cutting of a text at its line breaks. -/
theorem lines_eq_iff_pieces {cs : List Char} {ps : List (List Char)} :
    lines cs = ps ↔ Pieces cs ps := by
  constructor
  · rintro rfl
    have hcut := pieces_linesFrom [] cs (by simp)
    rw [List.reverse_nil, List.nil_append] at hcut
    exact hcut
  · intro h
    exact (eq_lines_of_pieces h).symm

/-! ## Cutting by byte offsets

The byte count of a list of characters is `String.utf8Len`, and `String.extract_of_valid` cuts
the piece between two such counts out of a text.
-/

theorem isValid_utf8Len (u w : List Char) :
    String.Pos.Raw.IsValid (String.ofList (u ++ w)) ⟨String.utf8Len u⟩ :=
  String.Pos.Raw.isValid_iff_exists_append.2
    ⟨String.ofList u, String.ofList w, String.ofList_append, (String.rawEndPos_ofList u).symm⟩

/-- A byte range of a text that holds the piece `v`: the text is `u ++ v ++ w`, and the range runs
    from the end of the bytes of `u` to the end of those of `u ++ v`. -/
def Spans (text : List Char) (r : Nat × Nat) (v : List Char) : Prop :=
  ∃ u w, text = u ++ v ++ w ∧ r = (String.utf8Len u, String.utf8Len u + String.utf8Len v)

theorem Spans.valid {text : List Char} {r : Nat × Nat} {v : List Char} (h : Spans text r v) :
    r.1 ≤ r.2 ∧ String.Pos.Raw.IsValid (String.ofList text) ⟨r.1⟩ ∧
      String.Pos.Raw.IsValid (String.ofList text) ⟨r.2⟩ := by
  obtain ⟨u, w, rfl, rfl⟩ := h
  refine ⟨Nat.le_add_right _ _, ?_, ?_⟩
  · rw [List.append_assoc]
    exact isValid_utf8Len u (v ++ w)
  · have hend := isValid_utf8Len (u ++ v) w
    rw [String.utf8Len_append] at hend
    exact hend

theorem Spans.extract {text : List Char} {r : Nat × Nat} {v : List Char} (h : Spans text r v) :
    String.Pos.Raw.extract (String.ofList text) ⟨r.1⟩ ⟨r.2⟩ = String.ofList v := by
  obtain ⟨u, w, rfl, rfl⟩ := h
  exact String.extract_of_valid u v w

/-- The walk over the offsets and characters after the current piece `acc`, latest first, which
    started at the end of `pre`: each range it gives holds the piece `linesFrom` gives. -/
theorem lineRangesFrom_spans (acc cs : List Char) {text pre : List Char} {size start i : Nat}
    (htext : text = pre ++ acc.reverse ++ cs) (hsize : size = String.utf8Len text)
    (hstart : start = String.utf8Len pre) (hi : i = String.utf8Len (pre ++ acc.reverse)) :
    List.Forall₂ (Spans text) (lineRangesFrom size start (indexFrom i cs)) (linesFrom acc cs) := by
  -- the walk and `linesFrom` take the same cases; the current piece is what lies between
  -- `start` and `i`
  fun_induction linesFrom acc cs generalizing pre start i with
  | case1 acc hempty =>
    rw [List.isEmpty_iff.1 hempty] at htext
    have hnot : ¬start < size := by simp [hsize, hstart, htext]
    simp [indexFrom, lineRangesFrom, hnot]
  | case2 acc hne =>
    have hpos : 0 < String.utf8Len acc :=
      Nat.pos_of_ne_zero fun h => hne (by simp [String.utf8Len_eq_zero.1 h])
    have hlt : start < size := by simp [hsize, hstart, htext, hpos]
    simp only [indexFrom, lineRangesFrom, if_pos hlt, List.forall₂_cons, List.Forall₂.nil,
      and_true]
    exact ⟨pre, [], by simp [htext], by simp [hsize, hstart, htext]⟩
  | case3 acc r ih =>
    simp only [indexFrom, lineRangesFrom, List.forall₂_cons]
    refine ⟨⟨pre, '\r' :: '\n' :: r, by simp [htext], by simp [hstart, hi]⟩, ?_⟩
    -- the next piece starts after both bytes of the break
    have hnext : i + '\r'.utf8Size + 1 = String.utf8Len (pre ++ acc.reverse ++ ['\r', '\n']) := by
      have hlf : '\n'.utf8Size = 1 := rfl
      rw [hi, String.utf8Len_append _ ['\r', '\n'], String.utf8Len_cons, String.utf8Len_cons,
        String.utf8Len_nil]
      omega
    -- the walk's own offset counts the line feed's byte as its size
    exact @ih (pre ++ acc.reverse ++ ['\r', '\n']) _ _ (by simp [htext]) hnext
      (by rw [List.reverse_nil, List.append_nil, ← hnext]; rfl)
  | case4 acc c r hcrlf hbreak ih =>
    have hidx : lineRangesFrom size start (indexFrom i (c :: r)) =
        (start, i) :: lineRangesFrom size (i + c.utf8Size) (indexFrom (i + c.utf8Size) r) := by
      rw [indexFrom, lineRangesFrom.eq_3 _ _ _ _ _ ?_, if_pos hbreak]
      -- a carriage return here is not followed by a line feed
      intro j rest hrest hc
      cases r with
      | nil => simp [indexFrom] at hrest
      | cons d r' =>
        simp only [indexFrom, List.cons.injEq, Prod.mk.injEq] at hrest
        exact hcrlf r' hc (by rw [hrest.1.2])
    rw [hidx, List.forall₂_cons]
    refine ⟨⟨pre, c :: r, by simp [htext], by simp [hstart, hi]⟩, ?_⟩
    have hnext : i + c.utf8Size = String.utf8Len (pre ++ acc.reverse ++ [c]) := by
      rw [hi, String.utf8Len_append _ [c], String.utf8Len_cons, String.utf8Len_nil, Nat.zero_add]
    exact @ih (pre ++ acc.reverse ++ [c]) _ _ (by simp [htext]) hnext
      (by rw [List.reverse_nil, List.append_nil, hnext])
  | case5 acc c r _ hbreak ih =>
    have hnot : isLineBreak c = false := by simpa using hbreak
    rw [indexFrom, lineRangesFrom_cons_of_not_isLineBreak hnot]
    have hnext : i + c.utf8Size = String.utf8Len (pre ++ (c :: acc).reverse) := by
      rw [hi, List.reverse_cons, ← List.append_assoc, String.utf8Len_append _ [c],
        String.utf8Len_cons, String.utf8Len_nil, Nat.zero_add]
    exact @ih pre _ _ (by simp [htext]) hstart hnext

/-- Each byte range of a text's pieces holds the corresponding piece. -/
theorem lineRanges_spans (raw : String) :
    List.Forall₂ (Spans raw.toList) (lineRanges raw) (lines raw.toList) :=
  @lineRangesFrom_spans [] raw.toList raw.toList [] _ 0 0 (by simp)
    (by rw [← String.utf8ByteSize_ofList, String.ofList_toList]) rfl rfl

/-- The pieces cut out by byte ranges are those of `lines`. -/
theorem splitLines_eq_lines (raw : String) :
    (splitLines raw).map String.toList = lines raw.toList := by
  have hcut : List.Forall₂ (fun r v => (String.Pos.Raw.extract raw ⟨r.1⟩ ⟨r.2⟩).toList = v)
      (lineRanges raw) (lines raw.toList) := by
    refine (lineRanges_spans raw).imp fun r v h => ?_
    rw [← String.ofList_toList (s := raw), h.extract, String.toList_ofList]
  rw [splitLines, List.map_map, ← List.forall₂_eq_eq_eq, List.forall₂_map_left_iff]
  exact hcut

/-- Cutting a text at its line breaks: every byte range the walk cuts at runs forward between two
    characters of the text, so no cut falls inside a character, and the pieces cut out are the
    one cutting of the text at its breaks. -/
theorem splitLines_cuts_at_breaks (raw : String) :
    (∀ r ∈ lineRanges raw, r.1 ≤ r.2 ∧ String.Pos.Raw.IsValid raw ⟨r.1⟩ ∧
      String.Pos.Raw.IsValid raw ⟨r.2⟩) ∧
    ∀ ps, Pieces raw.toList ps ↔ (splitLines raw).map String.toList = ps := by
  refine ⟨?_, fun ps => by rw [splitLines_eq_lines, lines_eq_iff_pieces]⟩
  have hvalid := (lineRanges_spans raw).imp fun r v (h : Spans raw.toList r v) =>
    And.intro h.valid h
  rw [String.ofList_toList] at hvalid
  exact ((List.forall₂_and_left _ _).1 hvalid).1

example : splitLines "a\r\r\nb\u2028" = ["a", "", "b"] := by decide +kernel

end Text

end Alternation
