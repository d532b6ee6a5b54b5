import Alternation.Candidate
import Alternation.Proofs.Decimal.Text
import Alternation.Proofs.Float.Scientific

/-!
# The text of a double reads back as it

The member text of a double is `nan`, a signed `inf`, or the shortest decimal of its magnitude
laid out by `Candidate.floatLayout` after a minus for the sign bit. The laid-out decimal reads
back as a decimal of the same value, that value lies in the rounding interval of the double,
and the float reader rounds it to the double: so the text reads back bit for bit, the sign of
zero included. Two doubles that are numbers therefore never share a text, and since every text
holds a point or an exponent or is one of the three words, no double shares one with an integer.

Main results:

* `Candidate.readFloat?_floatText`: the text of a double that is a number reads back as it.
* `Candidate.FloatTextReadsBack`: what such a text is made of, and that it reads back.
* `Candidate.floatText_reads_back`: the text reads back, is injective away from not-a-number,
  holds a point or an exponent or is a word, and is never the text of an integer.
-/

namespace Alternation

open Float.Model Float.Model.UnpackedFloat

namespace Layout

theorem point_mem_positional (ds : List Char) (k : ℤ) : '.' ∈ positional ds k := by
  simp only [positional]
  split_ifs <;> simp

theorem e_mem_scientific (l : Layout) (ds : List Char) (k : ℤ) : 'e' ∈ l.scientific ds k := by
  simp [scientific]

theorem mem_bodyOf (l : Layout) (d : Decimal) : '.' ∈ l.bodyOf d ∨ 'e' ∈ l.bodyOf d := by
  unfold bodyOf
  split_ifs
  · exact .inl (point_mem_positional _ _)
  · exact .inr (e_mem_scientific _ _ _)

end Layout

namespace Rounding

theorem ofFloat_signed_of_toModel {b : Binary} (hb : b.IsDouble) {z : Float}
    (h : z.toModel = Float.Model.pack (.finite .positive b.mantissa b.exponent hb.1))
    (negative : Bool) :
    Binary64.ofFloat (if negative then -z else z) = .finite negative b := by
  cases negative
  · show Binary64.ofBits z.toModel.toBits = _
    rw [h]
    exact Binary64.ofBits_pack_finite hb .positive
  · show Binary64.ofBits (-z.toModel).toBits = _
    rw [h, Binary64.neg_pack_finite hb]
    exact Binary64.ofBits_pack_finite hb .negative

theorem ofFloat_signed_of_toModel_zero {z : Float}
    (h : z.toModel = Float.Model.pack (.zero .positive)) (negative : Bool) :
    Binary64.ofFloat (if negative then -z else z) = .zero negative := by
  cases negative
  · show Binary64.ofBits z.toModel.toBits = _
    rw [h]
    exact Binary64.ofBits_pack_zero .positive
  · show Binary64.ofBits (-z.toModel).toBits = _
    rw [h, Binary64.neg_pack_zero]
    exact Binary64.ofBits_pack_zero .negative

end Rounding

namespace Decimal

theorem digits_eq_zero_of_value {d : Decimal} (h : d.value = 0) : d.digits = 0 := by
  have hpow : (10 : ℚ) ^ d.exponent ≠ 0 := by positivity
  unfold value at h
  exact_mod_cast (mul_eq_zero.1 h).resolve_right hpow

end Decimal

namespace Candidate

theorem floatText_of_infinite {x : Float} {negative : Bool}
    (h : Binary64.ofFloat x = .infinite negative) :
    floatText x = if negative then "-inf" else "inf" := by
  simp only [floatText, h]

theorem floatText_of_decimal? {x : Float} {negative : Bool} {d : Decimal}
    (hnan : Binary64.ofFloat x ≠ .nan) (hinf : ∀ n, Binary64.ofFloat x ≠ .infinite n)
    (h : (Binary64.ofFloat x).decimal? .up = some (negative, d)) :
    floatText x = floatLayout.render negative d := by
  unfold floatText
  split
  · exact absurd ‹_› hnan
  · exact absurd ‹_› (hinf _)
  · rw [h]

theorem toBits_eq_of_ofFloat {x y : Float} (h : Binary64.ofFloat y = Binary64.ofFloat x)
    (hn : Binary64.ofFloat x ≠ .nan) : y.toBits = x.toBits :=
  Binary64.ofBits_injective h (by
    show Binary64.ofFloat y ≠ .nan
    rw [h]
    exact hn)

theorem readFloat?_floatText_of_infinite {x : Float} {negative : Bool}
    (h : Binary64.ofFloat x = .infinite negative) :
    ∃ y, Decimal.readFloat? (floatText x) = some y ∧ y.toBits = x.toBits := by
  have hbits := Binary64.encode_ofBits x.toBits (by rw [← Binary64.ofFloat, h]; simp)
  rw [← Binary64.ofFloat, h] at hbits
  rw [floatText_of_infinite h]
  cases negative
  · refine ⟨Decimal.infinity, rfl, ?_⟩
    rw [← UInt64.toNat_inj, ← hbits]
    rfl
  · refine ⟨-Decimal.infinity, rfl, ?_⟩
    rw [← UInt64.toNat_inj, ← hbits]
    rfl

/-- The text of a double that is a number reads back as it, bit for bit. -/
theorem readFloat?_floatText {x : Float} (hn : Binary64.ofFloat x ≠ .nan) :
    ∃ y, Decimal.readFloat? (floatText x) = some y ∧ y.toBits = x.toBits := by
  cases hx : Binary64.ofFloat x with
  | nan => exact absurd hx hn
  | infinite negative => exact readFloat?_floatText_of_infinite hx
  | zero negative =>
    -- zero is laid out as `0.0`, which reads as positive zero before the sign
    rw [floatText_of_decimal? hn (by simp [hx]) (by rw [hx]; rfl)]
    obtain ⟨d', -, hv, hread⟩ := Layout.readFloat?_render floatLayout negative ⟨0, 0⟩
    have hzero : d'.toFloat.toModel = Float.Model.pack (.zero .positive) :=
      Rounding.toModel_toFloat_zero (Decimal.digits_eq_zero_of_value (by rw [hv]; simp [Decimal.value]))
    refine ⟨_, hread, toBits_eq_of_ofFloat ?_ (by rw [hx]; simp)⟩
    rw [hx]
    exact Rounding.ofFloat_signed_of_toModel_zero hzero negative
  | finite negative b =>
    -- the shortest decimal lies in the rounding interval, so it reads as the magnitude
    have hb := Binary64.isDouble_of_ofBits hx
    rw [floatText_of_decimal? hn (by simp [hx]) (by rw [hx]; rfl)]
    obtain ⟨d', -, hv, hread⟩ := Layout.readFloat?_render floatLayout negative (b.shortest .up).trim
    have hin : b.InInterval d'.value := hv ▸ Binary.inInterval_shortest .up hb
    refine ⟨_, hread, toBits_eq_of_ofFloat ?_ (by rw [hx]; simp)⟩
    rw [hx]
    exact Rounding.ofFloat_signed_of_toModel hb (Rounding.toModel_toFloat hb hin) negative

/-! ## What the text is made of -/

/-- The text of a double that is a number: a minus exactly when the sign bit is set, then `inf`
    for an infinity, and otherwise the layout of the shortest decimal of the double, which reads
    back as a decimal of the same value; and the whole text reads back as the double, bit for
    bit. -/
def FloatTextReadsBack (x : Float) : Prop :=
  ∃ (negative : Bool) (body : List Char),
    (floatText x).toList = (if negative then '-' :: body else body) ∧
    (negative = true ↔ x.toBits >>> 63 = 1) ∧
    (x.isInf = true → body = "inf".toList) ∧
    (x.isInf = false → ∃ d, (Binary64.ofFloat x).decimal? .up = some (negative, d) ∧
      body = floatLayout.bodyOf d ∧
      ∃ d', Decimal.readUnsigned? body = some d' ∧ d'.value = d.value) ∧
    ∃ y, Decimal.readFloat? (floatText x) = some y ∧ y.toBits = x.toBits

theorem floatTextReadsBack_of_decimal? {x : Float} {negative : Bool} {d : Decimal}
    (hnan : Binary64.ofFloat x ≠ .nan) (hinf : ∀ n, Binary64.ofFloat x ≠ .infinite n)
    (h : (Binary64.ofFloat x).decimal? .up = some (negative, d))
    (hsign : negative = true ↔ x.toBits >>> 63 = 1) : FloatTextReadsBack x := by
  have hfinite : x.isInf = false := by
    cases hi : x.isInf
    · rfl
    · obtain ⟨n, hn⟩ := (Binary64.isInf_iff x).1 hi
      exact absurd hn (hinf n)
  obtain ⟨d', hd', hv, -⟩ := Layout.readFloat?_render floatLayout negative d
  refine ⟨negative, floatLayout.bodyOf d, ?_, hsign, fun hi => absurd hi (by simp [hfinite]),
    fun _ => ⟨d, h, rfl, d', hd', hv⟩, readFloat?_floatText hnan⟩
  rw [floatText_of_decimal? hnan hinf h, Layout.toList_render]

theorem floatTextReadsBack {x : Float} (hn : x.isNaN = false) : FloatTextReadsBack x := by
  have hnan : Binary64.ofFloat x ≠ .nan := fun h => by
    rw [(Binary64.isNaN_iff x).2 h] at hn
    cases hn
  cases hx : Binary64.ofFloat x with
  | nan => exact absurd hx hnan
  | infinite negative =>
    refine ⟨negative, "inf".toList, ?_, Binary64.sign_of_ofBits (.inl hx), fun _ => rfl,
      fun hi => absurd ((Binary64.isInf_iff x).2 ⟨_, hx⟩) (by simp [hi]),
      readFloat?_floatText hnan⟩
    rw [floatText_of_infinite hx]
    cases negative <;> rfl
  | zero negative =>
    exact floatTextReadsBack_of_decimal? hnan (by simp [hx]) (by rw [hx]; rfl)
      (Binary64.sign_of_ofBits (.inr (.inl hx)))
  | finite negative b =>
    exact floatTextReadsBack_of_decimal? hnan (by simp [hx]) (by rw [hx]; rfl)
      (Binary64.sign_of_ofBits (.inr (.inr ⟨b, hx⟩)))

/-! ## No text is shared -/

/-- Every text of a double holds a point or an exponent, or is one of three words. -/
theorem floatText_shape (x : Float) :
    '.' ∈ (floatText x).toList ∨ 'e' ∈ (floatText x).toList ∨
      floatText x = "nan" ∨ floatText x = "inf" ∨ floatText x = "-inf" := by
  unfold floatText
  split
  · exact .inr (.inr (.inl rfl))
  · rename_i negative _
    cases negative
    · exact .inr (.inr (.inr (.inl rfl)))
    · exact .inr (.inr (.inr (.inr rfl)))
  · split
    · rename_i negative d _
      rw [Layout.toList_render]
      rcases Layout.mem_bodyOf floatLayout d with h | h <;> cases negative <;> simp [h]
    · exact .inr (.inr (.inl rfl))

theorem mem_toString_int {n : ℤ} {c : Char} (h : c ∈ (toString n).toList) :
    c = '-' ∨ c.isDigit = true := by
  rw [Int.toString_eq_repr] at h
  cases n with
  | ofNat m =>
    simp only [Int.repr, Nat.repr, String.toList_ofList] at h
    exact .inr (Nat.isDigit_of_mem_toDigits (by norm_num) (le_refl _) h)
  | negSucc m =>
    simp only [Int.repr, Nat.repr, String.toList_append, String.toList_ofList] at h
    rcases List.mem_append.1 h with h | h
    · exact .inl (by simpa using h)
    · exact .inr (Nat.isDigit_of_mem_toDigits (by norm_num) (le_refl _) h)

/-- No double has the text of an integer. -/
theorem coerce_float_ne_integer (x : Float) (n : ℤ) :
    coerce (.float x) ≠ coerce (.integer n) := by
  simp only [coerce, ne_eq, Except.ok.injEq]
  intro h
  have hnot {c : Char} (hc : c ∈ (floatText x).toList) (h1 : c ≠ '-') (h2 : c.isDigit = false) :
      False := by
    rw [h] at hc
    rcases mem_toString_int hc with h' | h'
    · exact h1 h'
    · rw [h2] at h'
      cases h'
  rcases floatText_shape x with hc | hc | hc | hc | hc
  · exact hnot hc (by decide) (by decide)
  · exact hnot hc (by decide) (by decide)
  all_goals
    have hn : 'n' ∈ (floatText x).toList := by rw [hc]; decide
    exact hnot hn (by decide) (by decide)

/-- The member text of a double: for a double that is a number it is made as
    `FloatTextReadsBack` says and reads back as the double bit for bit, so two such doubles
    with one text are equal; every text holds a point or an exponent or is `nan`, `inf` or
    `-inf`; and no double has the text of an integer. -/
theorem floatText_reads_back :
    (∀ x : Float, x.isNaN = false → FloatTextReadsBack x) ∧
    (∀ x y : Float, x.isNaN = false → y.isNaN = false → floatText x = floatText y → x = y) ∧
    (∀ x : Float, '.' ∈ (floatText x).toList ∨ 'e' ∈ (floatText x).toList ∨
      floatText x = "nan" ∨ floatText x = "inf" ∨ floatText x = "-inf") ∧
    (∀ (x : Float) (n : ℤ), coerce (.float x) ≠ coerce (.integer n)) := by
  refine ⟨fun x hx => floatTextReadsBack hx, fun x y hx hy hxy => ?_, floatText_shape,
    coerce_float_ne_integer⟩
  -- one text reads back as one float, whose bits are those of both
  obtain ⟨-, -, -, -, -, -, zx, hzx, hbx⟩ := floatTextReadsBack hx
  obtain ⟨-, -, -, -, -, -, zy, hzy, hby⟩ := floatTextReadsBack hy
  rw [hxy, hzy, Option.some.injEq] at hzx
  rw [← Float.toBits_inj, ← hbx, ← hby, hzx]

/-- The text `1e-05`, of the greatest power of ten laid out with an exponent below one, reads
    back. -/
theorem floatText_reads_back_of_hundred_thousandth :
    (Float.ofBits 0x3EE4F8B588E368F1).isNaN = false ∧
      FloatTextReadsBack (Float.ofBits 0x3EE4F8B588E368F1) ∧
      floatText (Float.ofBits 0x3EE4F8B588E368F1) = "1e-05" :=
  ⟨by decide, floatText_reads_back.1 _ (by decide), by decide +kernel⟩

example : floatText (Float.ofBits 0x8000000000000000) = "-0.0" := by
  decide +kernel

end Candidate

end Alternation
