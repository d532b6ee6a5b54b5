import Alternation.Decimal.Layout
import Alternation.Decimal.Read
import Alternation.Proofs.Decimal.Interval

/-!
# Reading a laid-out decimal back

A decimal `d₁.d₂…dₙ · 10 ^ k` laid out by `Layout.render`, positionally or with an exponent, reads
back through `Decimal.readUnsigned?` as a decimal of the same value: the reader takes the digits
before and after the point and the exponent, and each layout only moves the point, pads zeros
that add nothing, or writes the exponent with a sign and leading zeros. The float reader then sees
the sign of the text and that decimal.

Main results:

* `Decimal.digitsValue_append`, `Decimal.digitsValue_toDigits`: the value of a digit string.
* `Layout.value_readUnsigned?_body`: the body of a rendered decimal reads back with its value.
* `Layout.readFloat?_render`: the rendered text reads as its sign and such a decimal.
-/

namespace Alternation

namespace Decimal

/-- A list of decimal digit characters. -/
def AllDigits (cs : List Char) : Prop :=
  ∀ c ∈ cs, c.isDigit = true

theorem allDigits_append {as bs : List Char} (ha : AllDigits as) (hb : AllDigits bs) :
    AllDigits (as ++ bs) := by
  intro c hc
  rcases List.mem_append.1 hc with hc | hc
  · exact ha c hc
  · exact hb c hc

theorem allDigits_zeros (n : ℕ) : AllDigits (Layout.zeros n) := by
  intro c hc
  rw [Layout.zeros, List.mem_replicate] at hc
  rw [hc.2]
  rfl

theorem allDigits_toDigits (n : ℕ) : AllDigits (Nat.toDigits 10 n) :=
  fun _ hc => Nat.isDigit_of_mem_toDigits (by norm_num) (le_refl _) hc

theorem foldl_digits (cs : List Char) (init : ℕ) :
    cs.foldl (fun n c => 10 * n + (c.toNat - '0'.toNat)) init =
      init * 10 ^ cs.length + digitsValue cs := by
  induction cs generalizing init with
  | nil => simp [digitsValue]
  | cons c cs ih =>
    have hcons : digitsValue (c :: cs) =
        (10 * 0 + (c.toNat - '0'.toNat)) * 10 ^ cs.length + digitsValue cs := by
      rw [digitsValue, List.foldl_cons, ih]
    rw [List.foldl_cons, ih, hcons, List.length_cons, pow_succ]
    ring

theorem digitsValue_append (as bs : List Char) :
    digitsValue (as ++ bs) = digitsValue as * 10 ^ bs.length + digitsValue bs := by
  rw [digitsValue, List.foldl_append, foldl_digits]
  rfl

theorem digitsValue_zeros (n : ℕ) : digitsValue (Layout.zeros n) = 0 := by
  induction n with
  | zero => rfl
  | succ n ih =>
    rw [Layout.zeros, List.replicate_succ', ← Layout.zeros, digitsValue_append, ih]
    rfl

theorem digitsValue_toDigits (n : ℕ) : digitsValue (Nat.toDigits 10 n) = n :=
  Nat.ofDigitChars_toDigits (by norm_num) (le_refl _)

/-! ## Splitting off digits -/

theorem spanDigits_of_allDigits {ds : List Char} (h : AllDigits ds) : spanDigits ds = (ds, []) := by
  unfold spanDigits
  rw [List.takeWhile_eq_self_iff.2 h, List.dropWhile_eq_nil_iff.2 h]

theorem spanDigits_append_cons {ds : List Char} (h : AllDigits ds) {c : Char}
    (hc : c.isDigit = false) (r : List Char) : spanDigits (ds ++ c :: r) = (ds, c :: r) := by
  unfold spanDigits
  rw [List.takeWhile_append_of_pos h, List.dropWhile_append_of_pos h,
    List.takeWhile_cons_of_neg (by simp [hc]), List.dropWhile_cons_of_neg (by simp [hc]),
    List.append_nil]

/-- An exponent written with its sign and leading zeros reads back. -/
theorem readExponent_signed (k : ℤ) (w : ℕ) :
    readExponent ((if k < 0 then '-' else '+') :: (Layout.zeros w ++ Nat.toDigits 10 k.natAbs)) =
      some k := by
  have hall := allDigits_append (allDigits_zeros w) (allDigits_toDigits k.natAbs)
  have hne : Layout.zeros w ++ Nat.toDigits 10 k.natAbs ≠ [] := by simp [Nat.toDigits_ne_nil]
  have hval : digitsValue (Layout.zeros w ++ Nat.toDigits 10 k.natAbs) = k.natAbs := by
    rw [digitsValue_append, digitsValue_zeros, digitsValue_toDigits, zero_mul, zero_add]
  by_cases hk : k < 0
  · simp only [hk, if_true, readExponent, spanSign, spanDigits_of_allDigits hall,
      List.isEmpty_eq_false_iff.2 hne, List.isEmpty_nil, Bool.not_true, Bool.or_false,
      Bool.false_eq_true, if_false, hval]
    congr 1
    omega
  · simp only [hk, if_false, readExponent, spanSign, spanDigits_of_allDigits hall,
      List.isEmpty_eq_false_iff.2 hne, List.isEmpty_nil, Bool.not_true, Bool.or_false,
      Bool.false_eq_true, hval]
    congr 1
    omega

/-! ## Reading unsigned decimals -/

theorem isDigit_point : ('.').isDigit = false := by decide

theorem isDigit_e : ('e').isDigit = false := by decide

theorem readUnsigned?_point {whole fraction : List Char} (hw : AllDigits whole) (hwne : whole ≠ [])
    (hf : AllDigits fraction) :
    readUnsigned? (whole ++ '.' :: fraction) =
      some ⟨digitsValue (whole ++ fraction), 0 - fraction.length⟩ := by
  simp only [readUnsigned?, spanDigits_append_cons hw isDigit_point, spanDigits_of_allDigits hf,
    List.isEmpty_eq_false_iff.2 hwne, Bool.false_and, Bool.false_eq_true, if_false,
    Option.map_some]

theorem readUnsigned?_point_exponent {whole fraction : List Char} (hw : AllDigits whole)
    (hwne : whole ≠ []) (hf : AllDigits fraction) (ex : List Char) :
    readUnsigned? (whole ++ '.' :: (fraction ++ 'e' :: ex)) =
      (readExponent ex).map fun e => ⟨digitsValue (whole ++ fraction), e - fraction.length⟩ := by
  simp only [readUnsigned?, spanDigits_append_cons hw isDigit_point,
    spanDigits_append_cons hf isDigit_e, List.isEmpty_eq_false_iff.2 hwne, Bool.false_and,
    Bool.false_eq_true, if_false, true_or, if_true]

theorem readUnsigned?_exponent {whole : List Char} (hw : AllDigits whole) (hwne : whole ≠ [])
    (ex : List Char) :
    readUnsigned? (whole ++ 'e' :: ex) =
      (readExponent ex).map fun e => ⟨digitsValue (whole ++ []), e - ([] : List Char).length⟩ := by
  simp only [readUnsigned?, spanDigits_append_cons hw isDigit_e, List.isEmpty_eq_false_iff.2 hwne,
    Bool.false_and, Bool.false_eq_true, if_false]
  rfl

end Decimal

namespace Layout

open Decimal

variable {ds : List Char}

/-- A positional layout reads back as the digits with the point moved by the leading
    exponent. -/
theorem value_readUnsigned?_positional (hd : AllDigits ds) (hne : ds ≠ []) (k : ℤ) :
    (readUnsigned? (positional ds k)).map Decimal.value =
      some ((digitsValue ds : ℚ) * 10 ^ (k + 1 - ds.length)) := by
  unfold positional
  dsimp only
  split
  · -- `0.`, zeros, then the digits
    rename_i hk
    have hall := allDigits_append (allDigits_zeros ((-k).toNat - 1)) hd
    rw [show ('0' :: '.' :: zeros ((-k).toNat - 1)) ++ ds =
      ['0'] ++ '.' :: (zeros ((-k).toNat - 1) ++ ds) from rfl,
      readUnsigned?_point (by simp [AllDigits]) (by simp) hall, Option.map_some]
    congr 1
    rw [Decimal.value, ← List.append_assoc, digitsValue_append (['0'] ++ _),
      digitsValue_append ['0'], digitsValue_zeros]
    simp only [List.length_append, List.length_replicate, zeros]
    congr 2
    · simp [digitsValue]
    · push_cast
      omega
  · rename_i hk
    split
    · -- the point inside the digits
      rename_i hp
      have htake : AllDigits (ds.take (k.toNat + 1)) := fun c hc => hd c (List.mem_of_mem_take hc)
      have hdrop : AllDigits (ds.drop (k.toNat + 1)) := fun c hc => hd c (List.mem_of_mem_drop hc)
      rw [readUnsigned?_point htake (by simpa using hne) hdrop, Option.map_some,
        List.take_append_drop]
      congr 1
      rw [Decimal.value, List.length_drop]
      congr 2
      push_cast
      omega
    · -- zeros after the digits, then `.0`
      rename_i hp
      have hall := allDigits_append hd (allDigits_zeros (k.toNat + 1 - ds.length))
      rw [show ds ++ zeros (k.toNat + 1 - ds.length) ++ ['.', '0'] =
          (ds ++ zeros (k.toNat + 1 - ds.length)) ++ '.' :: ['0'] by simp,
        readUnsigned?_point hall (by simp [hne]) (by simp [AllDigits]), Option.map_some]
      congr 1
      rw [Decimal.value, digitsValue_append, digitsValue_append, digitsValue_zeros,
        show digitsValue ['0'] = 0 from rfl]
      simp only [zeros, List.length_replicate, List.length_cons, List.length_nil, add_zero]
      rw [show k + 1 - (ds.length : ℤ) = ((k.toNat + 1 - ds.length : ℕ) : ℤ) by omega,
        zpow_natCast]
      push_cast
      rw [zpow_neg_one]
      field_simp

/-- A layout with an exponent reads back as the digits with the point after the first, times the
    power of ten that the exponent gives. -/
theorem value_readUnsigned?_scientific (l : Layout) (hd : AllDigits ds) (hne : ds ≠ []) (k : ℤ) :
    (readUnsigned? (l.scientific ds k)).map Decimal.value =
      some ((digitsValue ds : ℚ) * 10 ^ (k + 1 - ds.length)) := by
  obtain ⟨d, rest, rfl⟩ := List.exists_cons_of_ne_nil hne
  have hdigit : AllDigits [d] := fun c hc => hd c (by simp_all)
  unfold scientific
  cases rest with
  | nil =>
    -- a single digit stands without a point
    rw [show [d] ++ 'e' :: ((if k < 0 then '-' else '+') ::
        (zeros (l.exponentWidth - (Nat.toDigits 10 k.natAbs).length) ++
          Nat.toDigits 10 k.natAbs)) = _ from rfl,
      readUnsigned?_exponent hdigit (by simp), readExponent_signed]
    simp [Decimal.value]
  | cons e rest =>
    have hrest : AllDigits (e :: rest) := fun c hc => hd c (List.mem_cons_of_mem _ hc)
    rw [show (d :: '.' :: e :: rest) ++ 'e' :: ((if k < 0 then '-' else '+') ::
        (zeros (l.exponentWidth - (Nat.toDigits 10 k.natAbs).length) ++
          Nat.toDigits 10 k.natAbs)) =
        [d] ++ '.' :: ((e :: rest) ++ 'e' :: ((if k < 0 then '-' else '+') ::
          (zeros (l.exponentWidth - (Nat.toDigits 10 k.natAbs).length) ++
            Nat.toDigits 10 k.natAbs))) from rfl,
      readUnsigned?_point_exponent hdigit (by simp) hrest, readExponent_signed]
    simp only [Option.map_some, Decimal.value, List.singleton_append, List.length_cons]
    congr 3
    push_cast
    ring

/-- The text of a decimal without its sign, as `render` lays it out. -/
def bodyOf (l : Layout) (d : Decimal) : List Char :=
  if l.plainFrom ≤ d.leadExponent ∧ d.leadExponent ≤ l.plainTo then
    positional d.digitChars d.leadExponent
  else l.scientific d.digitChars d.leadExponent

theorem toList_render (l : Layout) (negative : Bool) (d : Decimal) :
    (l.render negative d).toList = if negative then '-' :: l.bodyOf d else l.bodyOf d := by
  simp only [render, bodyOf, String.toList_ofList]

/-- The body of a rendered decimal reads back as a decimal of the same value. -/
theorem value_readUnsigned?_body (l : Layout) (d : Decimal) :
    (readUnsigned? (l.bodyOf d)).map Decimal.value = some d.value := by
  have hd : AllDigits d.digitChars := allDigits_toDigits d.digits
  have hne : d.digitChars ≠ [] := Nat.toDigits_ne_nil
  have hk : d.leadExponent + 1 - (d.digitChars.length : ℤ) = d.exponent := by
    unfold Decimal.leadExponent
    ring
  have hv : (digitsValue d.digitChars : ℚ) = d.digits := by
    rw [Decimal.digitChars, digitsValue_toDigits]
  unfold bodyOf
  split
  · rw [value_readUnsigned?_positional hd hne, hk, hv]
    rfl
  · rw [value_readUnsigned?_scientific l hd hne, hk, hv]
    rfl

theorem positional_cons (c : Char) (r : List Char) (k : ℤ) :
    ∃ r', positional (c :: r) k = c :: r' ∨ positional (c :: r) k = '0' :: r' := by
  unfold positional
  split
  · exact ⟨_, .inr rfl⟩
  · dsimp only
    split
    · exact ⟨_, .inl rfl⟩
    · exact ⟨_, .inl rfl⟩

theorem scientific_cons (l : Layout) (c : Char) (r : List Char) (k : ℤ) :
    ∃ r', l.scientific (c :: r) k = c :: r' := by
  unfold scientific
  cases r <;> exact ⟨_, rfl⟩

theorem exists_cons_bodyOf (l : Layout) (d : Decimal) :
    ∃ c r, l.bodyOf d = c :: r ∧ c.isDigit = true := by
  have hd : AllDigits d.digitChars := allDigits_toDigits d.digits
  have hne : d.digitChars ≠ [] := Nat.toDigits_ne_nil
  unfold bodyOf
  generalize d.leadExponent = k
  generalize d.digitChars = ds at hd hne
  obtain ⟨c, r, rfl⟩ := List.exists_cons_of_ne_nil hne
  have hc : c.isDigit = true := hd c List.mem_cons_self
  split
  · obtain ⟨r', h | h⟩ := positional_cons c r k
    · exact ⟨c, r', h, hc⟩
    · exact ⟨'0', r', h, rfl⟩
  · obtain ⟨r', h⟩ := scientific_cons l c r k
    exact ⟨c, r', h, hc⟩

theorem spanSign_of_isDigit {c : Char} (hc : c.isDigit = true) (r : List Char) :
    spanSign (c :: r) = (false, c :: r) := by
  unfold spanSign
  split
  · simp_all
  · simp_all
  · rfl

/-- The text of a decimal reads as its sign and a decimal of the same value. -/
theorem readFloat?_render (l : Layout) (negative : Bool) (d : Decimal) :
    ∃ d', readUnsigned? (l.bodyOf d) = some d' ∧ d'.value = d.value ∧
      readFloat? (l.render negative d) = some (if negative then -d'.toFloat else d'.toFloat) := by
  obtain ⟨d', hd', hv⟩ := Option.map_eq_some_iff.1 (value_readUnsigned?_body l d)
  obtain ⟨c, r, hbody, hc⟩ := exists_cons_bodyOf l d
  refine ⟨d', hd', hv, ?_⟩
  unfold readFloat?
  rw [toList_render]
  cases negative
  · simp only [Bool.false_eq_true, if_false, hbody, spanSign_of_isDigit hc, List.isEmpty_cons]
    rw [← hbody, hd']
    rfl
  · simp only [if_true, hbody, spanSign, List.isEmpty_cons]
    rw [← hbody, hd']
    rfl

end Layout

end Alternation
