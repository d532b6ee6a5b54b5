import Alternation.Proofs.Float.Rounding

/-!
# Bit patterns of doubles

`Binary64.ofBits` reads a bit pattern as a sign bit, a biased exponent and a fraction, and the
model of core's `Float` packs and unpacks the same three fields. This module relates the two. As
a number, a bit pattern is `sign · 2 ^ 63 + biased · 2 ^ 52 + fraction`; `Binary64.encode` writes
that number back from what `ofBits` reads, so that `ofBits` loses nothing away from not-a-number
and two patterns that read alike are equal. Packing the mantissa and exponent of a double gives
the pattern that reads as that double, and unpacking it gives them back.

Main results:

* `Binary64.encode_ofBits`: a bit pattern that is a number is the encoding of what it reads as.
* `Binary64.ofBits_injective`: two such patterns that read alike are equal.
* `Binary64.ofBits_pack_finite`: a packed double reads as that double with its sign.
* `Binary64.agrees_ofBits`: `ofBits` and core's unpacking read every bit pattern alike, so
  core's tests `isNaN` and `isInf` are those of `ofBits` (`Binary64.isNaN_iff`,
  `Binary64.isInf_iff`).
* `Binary64.unpack_pack_finite`: unpacking a packed double gives its mantissa and exponent.
-/

namespace Alternation

namespace Binary64

open Float.Model Float.Model.UnpackedFloat

/-! ## The three fields as arithmetic -/

theorem negative_eq (w : UInt64) : (w >>> 63 == 1) = decide (2 ^ 63 ≤ w.toNat) := by
  have hlt := w.toNat_lt
  have hshift : (w >>> 63).toNat = w.toNat / 2 ^ 63 := by
    rw [UInt64.toNat_shiftRight]
    simp [Nat.shiftRight_eq_div_pow]
  have hiff : (w >>> 63 == 1) = true ↔ (w >>> 63).toNat = 1 := by
    rw [beq_iff_eq, ← UInt64.toNat_inj]
    rfl
  rw [Bool.eq_iff_iff, hiff, hshift, decide_eq_true_iff]
  omega

theorem biased_eq (w : UInt64) : ((w >>> 52) &&& 0x7FF).toNat = w.toNat / 2 ^ 52 % 2 ^ 11 := by
  rw [UInt64.toNat_and, UInt64.toNat_shiftRight]
  have h : (0x7FF : UInt64).toNat = 2 ^ 11 - 1 := rfl
  rw [h, Nat.and_two_pow_sub_one_eq_mod]
  simp [Nat.shiftRight_eq_div_pow]

theorem fraction_eq (w : UInt64) : (w &&& 0xFFFFFFFFFFFFF).toNat = w.toNat % 2 ^ 52 := by
  rw [UInt64.toNat_and]
  have h : (0xFFFFFFFFFFFFF : UInt64).toNat = 2 ^ 52 - 1 := rfl
  rw [h, Nat.and_two_pow_sub_one_eq_mod]

/-! ## Encoding -/

/-- The bit pattern, as a number, of a double that `ofBits` reads: the sign bit, the biased
    exponent (zero below the least normal mantissa) and the fraction. -/
def encode : Binary64 → ℕ
  | .nan => 0x7FF8000000000000
  | .infinite negative => (if negative then 2 ^ 63 else 0) + 0x7FF * 2 ^ 52
  | .zero negative => if negative then 2 ^ 63 else 0
  | .finite negative b =>
    (if negative then 2 ^ 63 else 0) +
      (if 2 ^ 52 ≤ b.mantissa then (b.exponent + 1075).toNat else 0) * 2 ^ 52 +
      b.mantissa % 2 ^ 52

theorem sign_term (N : ℕ) (hlt : N < 2 ^ 64) :
    (if decide (2 ^ 63 ≤ N) = true then 2 ^ 63 else 0) = N / 2 ^ 63 * 2 ^ 63 := by
  by_cases hs : 2 ^ 63 ≤ N
  · rw [if_pos (by simpa using hs)]
    omega
  · rw [if_neg (by simpa using hs)]
    omega

/-- A bit pattern that is a number is the encoding of what it reads as. -/
theorem encode_ofBits (w : UInt64) (h : ofBits w ≠ .nan) : encode (ofBits w) = w.toNat := by
  have hlt := w.toNat_lt
  simp only [ofBits, negative_eq, biased_eq, fraction_eq, Nat.pow_eq] at h ⊢
  split_ifs at h ⊢ with h1 h2 h3 h4
  · -- an infinity: the exponent field is full and the fraction empty
    rw [encode, sign_term _ hlt]
    omega
  · exact absurd rfl h
  · -- a zero: both fields empty
    rw [encode, sign_term _ hlt]
    omega
  · -- a subnormal: the fraction alone
    rw [encode, sign_term _ hlt, if_neg (by dsimp only; omega)]
    dsimp only
    omega
  · -- a normal double: the hidden bit above the fraction
    rw [encode, sign_term _ hlt, if_pos (by dsimp only; omega)]
    dsimp only
    omega

/-- Two bit patterns that are numbers and read alike are equal. -/
theorem ofBits_injective {w w' : UInt64} (h : ofBits w = ofBits w') (hn : ofBits w ≠ .nan) :
    w = w' := by
  rw [← UInt64.toNat_inj, ← encode_ofBits w hn, ← encode_ofBits w' (h ▸ hn), h]

/-! ## Packing -/

/-- The sign bit of a sign of the model. -/
def signBit : Sign → Bool
  | .negative => true
  | .positive => false

theorem toNat_packComponents (s : Sign) (e : BitVec 11) (m : BitVec 52) :
    (packComponents Format.binary64 s e m).toNat =
      (if signBit s then 2 ^ 63 else 0) + e.toNat * 2 ^ 52 + m.toNat := by
  simp only [packComponents, BitVec.toNat_append]
  rw [← Nat.shiftLeft_add_eq_or_of_lt m.isLt, ← Nat.shiftLeft_add_eq_or_of_lt e.isLt]
  simp only [Nat.shiftLeft_eq]
  cases s
  · simp only [Sign.toBitVec, signBit, if_true]
    norm_num
    ring
  · simp [Sign.toBitVec, signBit]

theorem encode_finite (negative : Bool) (b : Binary) :
    encode (.finite negative b) = negative.toNat * 2 ^ 63 +
      (if 2 ^ 52 ≤ b.mantissa then (b.exponent + 1075).toNat else 0) * 2 ^ 52 +
      b.mantissa % 2 ^ 52 := by
  cases negative <;> rfl

theorem encode_zero (negative : Bool) : encode (.zero negative) = negative.toNat * 2 ^ 63 := by
  cases negative <;> rfl

theorem exponentBias_binary64 : Format.binary64.exponentBias = 1023 := rfl

theorem mantissaBits_binary64 : Format.binary64.mantissaBits = 53 := rfl

theorem toNat_pack_finite {b : Binary} (hb : b.IsDouble) (s : Sign) :
    (pack Format.binary64 (.finite s b.mantissa b.exponent hb.1)).toNat =
      encode (.finite (signBit s) b) := by
  obtain ⟨hM0, hM53, hq0, hq1, hsub, -⟩ := hb
  have hlog : b.mantissa.log2 < 53 := (Nat.log2_lt hM0.ne').2 hM53
  simp only [UnpackedFloat.pack]
  split_ifs with hinf hnormal
  · -- the exponent field never fills up
    simp only [exponentBias_binary64] at hinf
    omega
  · -- a normal double: the biased exponent and the fraction below the hidden bit
    simp only [mantissaBits_binary64] at hnormal
    have hn : 2 ^ 52 ≤ b.mantissa := by
      rw [← Nat.le_log2 hM0.ne']
      omega
    rw [toNat_packComponents, encode, if_pos hn, BitVec.toNat_ofNat, BitVec.toNat_ofNat,
      exponentBias_binary64]
    have hE : (b.exponent + (1023 : ℕ) + (52 : ℕ)).toNat % 2 ^ 11 = (b.exponent + 1075).toNat := by
      omega
    rw [hE]
  · -- a subnormal: the exponent field is zero
    simp only [mantissaBits_binary64] at hnormal
    have hn : ¬ 2 ^ 52 ≤ b.mantissa := by
      rw [← Nat.le_log2 hM0.ne']
      omega
    rw [toNat_packComponents, encode, if_neg hn, BitVec.toNat_ofNat, BitVec.toNat_ofNat]

theorem toNat_pack_zero (s : Sign) :
    (pack Format.binary64 (.zero s)).toNat = encode (.zero (signBit s)) := by
  simp only [UnpackedFloat.pack, packedZero, toNat_packComponents, encode]
  simp

/-! ## Reading a packed double -/

theorem decide_le_eq (N : ℕ) (negative : Bool) (hlo : negative.toNat * 2 ^ 63 ≤ N)
    (hhi : N < negative.toNat * 2 ^ 63 + 2 ^ 63) : decide (2 ^ 63 ≤ N) = negative := by
  cases negative
  · simp only [Bool.toNat_false, zero_mul, zero_add, decide_eq_false_iff_not, not_le] at hhi ⊢
    exact hhi
  · simp only [Bool.toNat_true, one_mul, decide_eq_true_eq] at hlo ⊢
    exact hlo

/-- A bit pattern whose number encodes a double reads as that double. -/
theorem ofBits_of_toNat_eq_finite {w : UInt64} {negative : Bool} {b : Binary} (hb : b.IsDouble)
    (h : w.toNat = encode (.finite negative b)) : ofBits w = .finite negative b := by
  obtain ⟨M, Q, n⟩ := b
  obtain ⟨hM0, hM53, hq0, hq1, hsub, hnarrow⟩ := hb
  simp only at hM0 hM53 hq0 hq1 hsub hnarrow
  rw [encode_finite] at h
  dsimp only at h
  simp only [ofBits, negative_eq, biased_eq, fraction_eq, Nat.pow_eq]
  by_cases hn : 2 ^ 52 ≤ M
  · -- a normal double
    rw [if_pos hn] at h
    have hE : w.toNat / 2 ^ 52 % 2 ^ 11 = (Q + 1075).toNat := by omega
    have hF : w.toNat % 2 ^ 52 = M - 2 ^ 52 := by omega
    rw [decide_le_eq w.toNat negative (by omega) (by omega), hE, hF, if_neg (by omega), if_neg (by omega)]
    have hnb : n = (M - 2 ^ 52 == 0 && decide (1 < (Q + 1075).toNat)) := by
      rw [Bool.eq_iff_iff, hnarrow, Bool.and_eq_true, beq_iff_eq, decide_eq_true_eq]
      omega
    rw [hnb, Nat.sub_add_cancel hn]
    congr 3
    omega
  · -- a subnormal
    have hq : Q = -1074 := hsub (by omega)
    have hn' : n = false := by
      cases n
      · rfl
      · exact absurd (hnarrow.1 rfl).1 (by omega)
    rw [if_neg hn] at h
    have hE : w.toNat / 2 ^ 52 % 2 ^ 11 = 0 := by omega
    have hF : w.toNat % 2 ^ 52 = M := by omega
    rw [decide_le_eq w.toNat negative (by omega) (by omega), hE, hF, if_neg (by omega), if_pos rfl,
      if_neg (by omega), hq, hn']

theorem ofBits_of_toNat_eq_zero {w : UInt64} {negative : Bool}
    (h : w.toNat = encode (.zero negative)) : ofBits w = .zero negative := by
  rw [encode_zero] at h
  simp only [ofBits, negative_eq, biased_eq, fraction_eq, Nat.pow_eq]
  have hE : w.toNat / 2 ^ 52 % 2 ^ 11 = 0 := by omega
  have hF : w.toNat % 2 ^ 52 = 0 := by omega
  rw [decide_le_eq w.toNat negative (by omega) (by omega), hE, hF, if_neg (by omega), if_pos rfl, if_pos rfl]

/-! ## Unpacking -/

theorem toNat_unpackMantissa (w : BitVec 64) :
    (@unpackMantissa Format.binary64 w).toNat = w.toNat % 2 ^ 52 := by
  simp [unpackMantissa, BitVec.extractLsb_toNat]

theorem toNat_unpackExponent (w : BitVec 64) :
    (@unpackExponent Format.binary64 w).toNat = w.toNat / 2 ^ 52 % 2 ^ 11 := by
  simp [unpackExponent, BitVec.extractLsb_toNat, Nat.shiftRight_eq_div_pow]

theorem toNat_unpackSign (w : BitVec 64) :
    (@unpackSign Format.binary64 w).toNat = w.toNat / 2 ^ 63 := by
  have hlt := w.isLt
  simp only [unpackSign, BitVec.toNat_cast, BitVec.extractLsb_toNat, Nat.shiftRight_eq_div_pow]
  omega

theorem unpackExponent_eq_allOnes_iff (w : BitVec 64) :
    @unpackExponent Format.binary64 w = -1#11 ↔ w.toNat / 2 ^ 52 % 2 ^ 11 = 2047 := by
  rw [← BitVec.toNat_inj, toNat_unpackExponent]
  rfl

theorem unpackExponent_eq_zero_iff (w : BitVec 64) :
    @unpackExponent Format.binary64 w = 0#11 ↔ w.toNat / 2 ^ 52 % 2 ^ 11 = 0 := by
  rw [← BitVec.toNat_inj, toNat_unpackExponent]
  rfl

theorem unpackMantissa_eq_zero_iff (w : BitVec 64) :
    @unpackMantissa Format.binary64 w = 0#52 ↔ w.toNat % 2 ^ 52 = 0 := by
  rw [← BitVec.toNat_inj, toNat_unpackMantissa]
  rfl

theorem sign_unpackSign (w : BitVec 64) :
    Sign.ofBitVec (@unpackSign Format.binary64 w) =
      if 2 ^ 63 ≤ w.toNat then .negative else .positive := by
  have hlt := w.isLt
  have hsign := toNat_unpackSign w
  unfold Sign.ofBitVec
  by_cases h : 2 ^ 63 ≤ w.toNat
  · rw [if_pos h, if_neg]
    intro h0
    rw [h0] at hsign
    simp at hsign
    omega
  · rw [if_neg h, if_pos]
    rw [← BitVec.toNat_inj, hsign]
    simp
    omega

theorem signBit_unpackSign (w : BitVec 64) :
    signBit (Sign.ofBitVec (@unpackSign Format.binary64 w)) = decide (2 ^ 63 ≤ w.toNat) := by
  rw [sign_unpackSign]
  by_cases h : 2 ^ 63 ≤ w.toNat
  · rw [if_pos h, decide_eq_true h]
    rfl
  · rw [if_neg h, decide_eq_false h]
    rfl

theorem signBit_injective {s s' : Sign} (h : signBit s = signBit s') : s = s' := by
  cases s <;> cases s' <;> first | rfl | cases h

theorem finite_congr {s s' : Sign} {m m' : ℕ} {e e' : ℤ} (hs : s = s') (hm : m = m') (he : e = e')
    (h : 0 < m) (h' : 0 < m') : UnpackedFloat.finite s m e h = .finite s' m' e' h' := by
  subst hs hm he
  rfl

/-- What `ofBits` reads and what core unpacks from one bit pattern agree: the class, the sign
    bit and, for a finite value, the mantissa and exponent. -/
def Agrees : Binary64 → UnpackedFloat → Prop
  | .nan, .notANumber => True
  | .infinite n, .infinity s => signBit s = n
  | .zero n, .zero s => signBit s = n
  | .finite n b, .finite s m e _ => signBit s = n ∧ m = b.mantissa ∧ e = b.exponent
  | _, _ => False

/-- `ofBits` and core's unpacking read every bit pattern alike. -/
theorem agrees_ofBits (w : UInt64) : Agrees (ofBits w) (unpack Format.binary64 w.toBitVec) := by
  have hN : w.toBitVec.toNat = w.toNat := rfl
  have hlt := w.toNat_lt
  simp only [UnpackedFloat.unpack, ofBits, negative_eq, biased_eq, fraction_eq, Nat.pow_eq]
  by_cases hE : w.toNat / 2 ^ 52 % 2 ^ 11 = 2047
  · rw [if_pos ((unpackExponent_eq_allOnes_iff _).2 (hN ▸ hE)), if_pos hE]
    by_cases hF : w.toNat % 2 ^ 52 = 0
    · -- an infinity
      rw [if_pos ((unpackMantissa_eq_zero_iff _).2 (hN ▸ hF)), if_pos hF]
      exact signBit_unpackSign _
    · -- not a number
      rw [if_neg (fun h => hF (hN ▸ (unpackMantissa_eq_zero_iff _).1 h)), if_neg hF]
      trivial
  · rw [if_neg (fun h => hE (hN ▸ (unpackExponent_eq_allOnes_iff _).1 h)), if_neg hE]
    by_cases hE0 : w.toNat / 2 ^ 52 % 2 ^ 11 = 0
    · rw [if_pos ((unpackExponent_eq_zero_iff _).2 (hN ▸ hE0)), if_pos hE0]
      by_cases hF : w.toNat % 2 ^ 52 = 0
      · -- a zero
        rw [dif_pos ((unpackMantissa_eq_zero_iff _).2 (hN ▸ hF)), if_pos hF]
        exact signBit_unpackSign _
      · -- a subnormal: the fraction at the least exponent
        rw [dif_neg (fun h => hF (hN ▸ (unpackMantissa_eq_zero_iff _).1 h)), if_neg hF]
        refine ⟨signBit_unpackSign _, toNat_unpackMantissa _, ?_⟩
        dsimp only
        rw [toNat_unpackExponent, hN, exponentBias_binary64]
        omega
    · -- a normal double: the hidden bit above the fraction
      rw [if_neg (fun h => hE0 (hN ▸ (unpackExponent_eq_zero_iff _).1 h)), if_neg hE0]
      refine ⟨signBit_unpackSign _, ?_, ?_⟩
      · dsimp only
        rw [BitVec.toNat_append, ← Nat.shiftLeft_add_eq_or_of_lt (BitVec.isLt _),
          toNat_unpackMantissa, Nat.shiftLeft_eq, hN]
        simp only [BitVec.toNat_ofNat]
        omega
      · dsimp only
        rw [toNat_unpackExponent, hN, exponentBias_binary64]
        omega

theorem isNaN_of_agrees {a : Binary64} {u : UnpackedFloat} (h : Agrees a u) :
    u.isNaN = true ↔ a = .nan := by
  cases a <;> cases u <;> simp [Agrees, UnpackedFloat.isNaN] at h ⊢

theorem isInf_of_agrees {a : Binary64} {u : UnpackedFloat} (h : Agrees a u) :
    u.isInf = true ↔ ∃ n, a = .infinite n := by
  cases a <;> cases u <;> simp [Agrees, UnpackedFloat.isInf] at h ⊢

/-- Core's not-a-number test is the one of `ofFloat`. -/
theorem isNaN_iff (x : Float) : x.isNaN = true ↔ ofFloat x = .nan :=
  isNaN_of_agrees (agrees_ofBits x.toBits)

/-- Core's infinity test is the one of `ofFloat`. -/
theorem isInf_iff (x : Float) : x.isInf = true ↔ ∃ n, ofFloat x = .infinite n :=
  isInf_of_agrees (agrees_ofBits x.toBits)

/-- Unpacking a bit pattern whose number encodes a double gives its sign, mantissa and
    exponent. -/
theorem unpack_of_toNat_eq_finite {w : BitVec 64} {s : Sign} {b : Binary} (hb : b.IsDouble)
    (h : w.toNat = encode (.finite (signBit s) b)) :
    unpack Format.binary64 w = .finite s b.mantissa b.exponent hb.1 := by
  have hagree := agrees_ofBits (UInt64.ofBitVec w)
  rw [ofBits_of_toNat_eq_finite hb h, UInt64.toBitVec_ofBitVec] at hagree
  revert hagree
  cases unpack Format.binary64 w <;> simp only [Agrees, false_implies]
  rintro ⟨hs, hm, he⟩
  exact finite_congr (signBit_injective hs) hm he _ _

theorem unpack_of_toNat_eq_zero {w : BitVec 64} {s : Sign}
    (h : w.toNat = encode (.zero (signBit s))) : unpack Format.binary64 w = .zero s := by
  have hagree := agrees_ofBits (UInt64.ofBitVec w)
  rw [ofBits_of_toNat_eq_zero h, UInt64.toBitVec_ofBitVec] at hagree
  revert hagree
  cases unpack Format.binary64 w <;> simp only [Agrees, false_implies]
  intro hs
  rw [signBit_injective hs]

/-- What `ofBits` reads, not-a-number apart, carries the sign bit of the pattern. -/
theorem sign_of_ofBits {w : UInt64} {n : Bool}
    (h : ofBits w = .infinite n ∨ ofBits w = .zero n ∨ ∃ b, ofBits w = .finite n b) :
    n = true ↔ w >>> 63 = 1 := by
  have hn : n = (w >>> 63 == 1) := by
    unfold ofBits at h
    dsimp only at h
    split_ifs at h <;> rcases h with h | h | ⟨b, h⟩ <;> cases h <;> rfl
  rw [hn, beq_iff_eq]

/-! ## Packed doubles -/

section Packed

variable {b : Binary} (hb : b.IsDouble) (s : Sign)
include hb

/-- Unpacking a packed double gives its sign, mantissa and exponent back. -/
theorem unpack_pack_finite :
    (Float.Model.pack (.finite s b.mantissa b.exponent hb.1)).unpack =
      .finite s b.mantissa b.exponent hb.1 :=
  unpack_of_toNat_eq_finite hb (toNat_pack_finite hb s)

/-- A packed double reads as that double with its sign. -/
theorem ofBits_pack_finite :
    ofBits (Float.Model.pack (.finite s b.mantissa b.exponent hb.1)).toBits =
      .finite (signBit s) b :=
  ofBits_of_toNat_eq_finite hb (toNat_pack_finite hb s)

theorem neg_pack_finite :
    -Float.Model.pack (.finite s b.mantissa b.exponent hb.1) =
      Float.Model.pack (.finite (-s) b.mantissa b.exponent hb.1) := by
  show Float.Model.pack (Float.Model.unpack _).neg = _
  rw [unpack_pack_finite hb s]
  rfl

end Packed

theorem unpack_pack_zero (s : Sign) : (Float.Model.pack (.zero s)).unpack = .zero s :=
  unpack_of_toNat_eq_zero (toNat_pack_zero s)

theorem ofBits_pack_zero (s : Sign) :
    ofBits (Float.Model.pack (.zero s)).toBits = .zero (signBit s) :=
  ofBits_of_toNat_eq_zero (toNat_pack_zero s)

theorem neg_pack_zero (s : Sign) : -Float.Model.pack (.zero s) = Float.Model.pack (.zero (-s)) := by
  show Float.Model.pack (Float.Model.unpack _).neg = _
  rw [unpack_pack_zero s]
  rfl

@[simp]
theorem signBit_neg (s : Sign) : signBit (-s) = !signBit s := by
  cases s <;> rfl

end Binary64

end Alternation
