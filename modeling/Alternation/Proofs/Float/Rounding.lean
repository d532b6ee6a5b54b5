import Alternation.Proofs.Decimal.Interval

/-!
# Rounding in the binary64 model

Core's `Float` is a bit pattern computed by `Float.Model`: an operation works out its exact result
as a mantissa and an exponent with a round bit and a sticky bit for what lies below, shifts that
mantissa to the exponent the result needs, rounds it to nearest with ties to even, and packs it.
This module reads those steps as rational arithmetic. An extended mantissa stands for a
nonnegative rational: its mantissa is the integer part, the round bit says whether the fraction
is at least a half and the sticky bit whether it is neither zero nor a half. Shifting right halves
the rational, and rounding gives the nearest integer, ties to even.

From this, an operation whose exact value lies in the rounding interval of a double gives that
double: the exponent the model shifts to is the double's exponent, or one less just below the
least mantissa of a binade, where rounding carries into the double.

Main results:

* `Rounding.Represents`: an extended mantissa standing for a rational.
* `Rounding.represents_shiftRight`: shifting halves the rational.
* `Rounding.roundedMantissa_eq`: rounding gives the nearest integer, a tie the even one.
* `Rounding.roundWithAccuracy_eq`: a value in the rounding interval of a double rounds to it.
-/

namespace Alternation

namespace Rounding

open Float.Model Float.Model.UnpackedFloat

/-- The extended mantissa `em` stands for the rational `x ≥ 0`: its mantissa is the integer part
    of `x`, its round bit says that the fraction is at least a half, and its sticky bit that the
    fraction is neither zero nor a half. -/
def Represents (em : ExtendedMantissa) (x : ℚ) : Prop :=
  (em.mantissa : ℚ) ≤ x ∧ x < em.mantissa + 1 ∧
    (em.roundBit = true ↔ em.mantissa + 1 / 2 ≤ x) ∧
    (em.stickyBit = true ↔ x ≠ em.mantissa ∧ x ≠ em.mantissa + 1 / 2)

@[simp]
theorem mantissa_ofMantissaAndAccuracy (m : ℕ) (acc : Accuracy) :
    (ExtendedMantissa.ofMantissaAndAccuracy m acc).mantissa = m := by
  unfold ExtendedMantissa.ofMantissaAndAccuracy
  split <;> rfl

theorem represents_exact (m : ℕ) : Represents ⟨m, false, false⟩ m := by
  refine ⟨le_refl _, by linarith, ?_, ?_⟩ <;> simp

/-- Shifting right by one halves the rational: the low bit of the mantissa becomes the round
    bit, and the round and sticky bits together become the sticky bit. -/
theorem represents_shiftRightOne {em : ExtendedMantissa} {x : ℚ} (h : Represents em x) :
    Represents em.shiftRightOne (x / 2) := by
  obtain ⟨hlow, hhigh, hround, hsticky⟩ := h
  obtain ⟨m, r, s⟩ := em
  simp only [ExtendedMantissa.shiftRightOne] at *
  have hdiv : ((m / 2 : ℕ) : ℚ) * 2 + (m % 2 : ℕ) = m := by
    have := Nat.div_add_mod m 2
    exact_mod_cast (by omega : m / 2 * 2 + m % 2 = m)
  rcases Nat.mod_two_eq_zero_or_one m with hm | hm
  · -- an even mantissa: the halved fraction is below a half
    rw [hm] at hdiv
    push_cast at hdiv
    refine ⟨by linarith, by linarith, ?_, ?_⟩
    · simp only [hm, bne_self_eq_false, Bool.false_eq_true, false_iff, not_le]
      linarith
    · rw [Bool.or_eq_true, hround, hsticky]
      constructor
      · rintro (h | ⟨h1, h2⟩)
        · constructor <;> intro h' <;> linarith
        · constructor
          · intro h'
            exact h1 (by linarith)
          · intro h'
            linarith
      · rintro ⟨h1, -⟩
        by_cases hx : (m : ℚ) + 1 / 2 ≤ x
        · exact .inl hx
        · refine .inr ⟨fun h' => h1 (by linarith), fun h' => hx (le_of_eq h'.symm)⟩
  · -- an odd mantissa: the halved fraction is at least a half
    rw [hm] at hdiv
    push_cast at hdiv
    refine ⟨by linarith, by linarith, ?_, ?_⟩
    · simp only [hm]
      constructor
      · intro _
        linarith
      · intro _
        decide
    · rw [Bool.or_eq_true, hround, hsticky]
      constructor
      · rintro (h | ⟨h1, h2⟩)
        · constructor <;> intro h' <;> linarith
        · constructor
          · intro h'
            exact h1 (by linarith)
          · intro h'
            exact h1 (by linarith)
      · rintro ⟨h1, h2⟩
        by_cases hx : (m : ℚ) + 1 / 2 ≤ x
        · exact .inl hx
        · refine .inr ⟨fun h' => h2 (by linarith), fun h' => hx (le_of_eq h'.symm)⟩

/-- Shifting right by `k` divides the rational by `2 ^ k`. -/
theorem represents_shiftRight {em : ExtendedMantissa} {x : ℚ} (h : Represents em x) (k : ℕ) :
    Represents (em >>> k) (x / 2 ^ k) := by
  induction k with
  | zero => simpa [HShiftRight.hShiftRight, Nat.repeat] using h
  | succ k ih =>
    have hstep := represents_shiftRightOne ih
    rw [div_div, ← pow_succ] at hstep
    simpa [HShiftRight.hShiftRight, Nat.repeat] using hstep

theorem represents_below_half {m : ℕ} {x : ℚ} (h1 : (m : ℚ) < x) (h2 : x < m + 1 / 2) :
    Represents ⟨m, false, true⟩ x := by
  refine ⟨h1.le, by linarith, ?_, ?_⟩
  · simp only [Bool.false_eq_true, false_iff, not_le]
    exact h2
  · simp only [true_iff]
    exact ⟨h1.ne', h2.ne⟩

theorem represents_half (m : ℕ) : Represents ⟨m, true, false⟩ ((m : ℚ) + 1 / 2) := by
  refine ⟨by linarith, by linarith, by simp, ?_⟩
  simp

theorem represents_above_half {m : ℕ} {x : ℚ} (h1 : (m : ℚ) + 1 / 2 < x) (h2 : x < m + 1) :
    Represents ⟨m, true, true⟩ x := by
  refine ⟨by linarith, h2, ?_, ?_⟩
  · simp only [true_iff]
    exact h1.le
  · simp only [true_iff]
    exact ⟨by intro h; linarith, h1.ne'⟩

theorem represents_div (n den : ℕ) (hden : 0 < den) :
    Represents (ExtendedMantissa.ofMantissaAndAccuracy (n / den)
      (accuracyOfFraction (n % den) den)) ((n : ℚ) / den) := by
  have hden' : (0 : ℚ) < den := by exact_mod_cast hden
  have hsplit : (n : ℚ) / den = (n / den : ℕ) + ((n % den : ℕ) : ℚ) / den := by
    have h := Nat.div_add_mod n den
    rw [div_eq_iff hden'.ne', add_mul, div_mul_cancel₀ _ hden'.ne']
    exact_mod_cast (by rw [mul_comm] at h; omega : n = n / den * den + n % den)
  have hrem : ((n % den : ℕ) : ℚ) / den < 1 := by
    rw [div_lt_one hden']
    exact_mod_cast Nat.mod_lt n hden
  rw [hsplit]
  unfold accuracyOfFraction
  split
  · -- no remainder: the quotient is exact
    rename_i h
    rw [h, Nat.cast_zero, zero_div, add_zero]
    exact represents_exact _
  · -- the remainder against half the divisor decides the round and sticky bits
    rename_i h
    have hpos : (0 : ℚ) < ((n % den : ℕ) : ℚ) / den :=
      div_pos (by exact_mod_cast Nat.pos_of_ne_zero h) hden'
    rcases hc : compare (2 * (n % den)) den
    · have hlt : 2 * (n % den) < den := Nat.compare_eq_lt.1 hc
      have : ((n % den : ℕ) : ℚ) / den < 1 / 2 := by
        rw [div_lt_iff₀ hden']
        have : (2 * (n % den : ℕ) : ℚ) < den := by exact_mod_cast hlt
        linarith
      exact represents_below_half (by linarith) (by linarith)
    · have heq : 2 * (n % den) = den := Nat.compare_eq_eq.1 hc
      have : ((n % den : ℕ) : ℚ) / den = 1 / 2 := by
        rw [div_eq_iff hden'.ne']
        have : (2 * (n % den : ℕ) : ℚ) = den := by exact_mod_cast heq
        linarith
      rw [this]
      exact represents_half _
    · have hgt : den < 2 * (n % den) := Nat.compare_eq_gt.1 hc
      have : 1 / 2 < ((n % den : ℕ) : ℚ) / den := by
        rw [lt_div_iff₀ hden']
        have : (den : ℚ) < 2 * (n % den : ℕ) := by exact_mod_cast hgt
        linarith
      exact represents_above_half (by linarith) (by linarith)

/-! ## Rounding to nearest -/

/-- Rounding gives the integer `M` when the rational lies within a half of it, a tie only when
    `M` is even. -/
theorem roundedMantissa_eq {em : ExtendedMantissa} {x : ℚ} (h : Represents em x) {M : ℕ}
    (hlow : (M : ℚ) - 1 / 2 ≤ x) (hhigh : x ≤ M + 1 / 2)
    (htie : x = M - 1 / 2 ∨ x = M + 1 / 2 → M % 2 = 0) : em.roundedMantissa = M := by
  obtain ⟨n, r, s⟩ := em
  obtain ⟨hlo, hhi, hround, hsticky⟩ := h
  simp only at hlo hhi hround hsticky
  have hle : n ≤ M := by
    by_contra hc
    have : (M : ℚ) + 1 ≤ n := by exact_mod_cast (by omega : M + 1 ≤ n)
    linarith
  have hge : M ≤ n + 1 := by
    by_contra hc
    have : (n : ℚ) + 2 ≤ M := by exact_mod_cast (by omega : n + 2 ≤ M)
    linarith
  simp only [ExtendedMantissa.roundedMantissa]
  rcases (by omega : n = M ∨ n + 1 = M) with rfl | hM
  · -- the integer part is `M`: the fraction is at most a half
    cases r
    · cases s <;> rfl
    · have hx : x = n + 1 / 2 := le_antisymm hhigh (hround.1 rfl)
      have hs : s = false := by
        cases s
        · rfl
        · exact absurd hx (hsticky.1 rfl).2
      subst hs
      have heven := htie (.inr hx)
      simp only [ExtendedMantissa.accuracy, Accuracy.roundToNearestEven]
      omega
  · -- the integer part is `M - 1`: the fraction is at least a half
    have hMq : (M : ℚ) = n + 1 := by exact_mod_cast hM.symm
    have hr : r = true := hround.2 (by linarith)
    subst hr
    cases s
    · have hx : x = n + 1 / 2 := by
        by_contra hne
        exact absurd (hsticky.2 ⟨by intro h; linarith, hne⟩) (by simp)
      have heven := htie (.inl (by rw [hx, hMq]; ring))
      simp only [ExtendedMantissa.accuracy, Accuracy.roundToNearestEven]
      omega
    · simp only [ExtendedMantissa.accuracy, Accuracy.roundToNearestEven]
      exact hM

/-! ## The exponent of a rounding -/

/-- The exponent binary64 rounds a mantissa and exponent to: 53 bits below the leading one, but
    not below the least exponent. -/
theorem targetExponent_binary64 (m : ℕ) (e : ℤ) :
    Format.binary64.targetExponent (totalExponent m e) = max (m.log2 + e - 52) (-1074) := by
  simp only [Format.targetExponent, totalExponent, Format.mantissaBits, Format.minExponent]
  norm_num
  omega

theorem two_zpow_add_natCast (q : ℤ) (n : ℕ) : (2 : ℚ) ^ (q + n) = 2 ^ n * 2 ^ q := by
  rw [zpow_add₀ (by norm_num), zpow_natCast, mul_comm]

/-- The first shift moves the extended mantissa to the target exponent: it then stands for the
    value divided by a power of two of that exponent. -/
theorem shiftToTargetExponent_represents {m : ℕ} {e : ℤ} {acc : Accuracy} {X : ℚ}
    (hX : Represents (ExtendedMantissa.ofMantissaAndAccuracy m acc) X)
    (he : e ≤ Format.binary64.targetExponent (totalExponent m e)) :
    Represents (shiftToTargetExponent Format.binary64 m e acc).1
        (X * 2 ^ e / 2 ^ Format.binary64.targetExponent (totalExponent m e)) ∧
      (shiftToTargetExponent Format.binary64 m e acc).2 =
        Format.binary64.targetExponent (totalExponent m e) := by
  simp only [shiftToTargetExponent, shiftToExponent]
  generalize Format.binary64.targetExponent (totalExponent m e) = T at he ⊢
  have hk : (((T - e).toNat : ℕ) : ℤ) = T - e := Int.toNat_of_nonneg (by omega)
  refine ⟨?_, by omega⟩
  have hpow : (2 : ℚ) ^ T = 2 ^ (T - e).toNat * 2 ^ e := by
    rw [← two_zpow_add_natCast, hk]
    ring_nf
  rw [hpow, mul_comm (2 ^ (T - e).toNat : ℚ), ← div_div, mul_div_cancel_right₀ _ (by positivity)]
  exact represents_shiftRight hX _

/-- Where the value lies relative to the target exponent `T`: below `2 ^ (T + 53)`, and at least
    `2 ^ (T + 52)` unless `T` is the least exponent. -/
theorem value_bounds_of_target {m : ℕ} {e : ℤ} {X : ℚ} (hlo : (m : ℚ) ≤ X) (hhi : X < m + 1)
    (hm : 0 < m ∨ Format.binary64.targetExponent (totalExponent m e) = -1074) :
    X * 2 ^ e < 2 ^ (Format.binary64.targetExponent (totalExponent m e) + 53) ∧
      (Format.binary64.targetExponent (totalExponent m e) = -1074 ∨
        2 ^ (Format.binary64.targetExponent (totalExponent m e) + 52) ≤ X * 2 ^ e) := by
  rw [targetExponent_binary64] at hm ⊢
  have hpos : (0 : ℚ) < 2 ^ e := by positivity
  constructor
  · -- `m + 1 ≤ 2 ^ (log2 m + 1)`
    have hbit : ((m + 1 : ℕ) : ℚ) ≤ 2 ^ (m.log2 + 1) := by exact_mod_cast Nat.lt_log2_self
    calc X * 2 ^ e < (m + 1) * 2 ^ e := by gcongr
      _ ≤ 2 ^ (m.log2 + 1) * 2 ^ e := by gcongr; exact_mod_cast hbit
      _ = 2 ^ (e + (m.log2 + 1 : ℕ)) := by rw [two_zpow_add_natCast]
      _ ≤ 2 ^ (max (m.log2 + e - 52) (-1074) + 53) :=
        zpow_le_zpow_right₀ (by norm_num) (by push_cast; omega)
  · by_cases hT : max ((m.log2 : ℤ) + e - 52) (-1074) = -1074
    · exact .inl hT
    · right
      have hm0 : m ≠ 0 := by
        rcases hm with hm | hm
        · omega
        · exact absurd hm hT
      have hT' : max ((m.log2 : ℤ) + e - 52) (-1074) + 52 = e + (m.log2 : ℕ) := by omega
      rw [hT', two_zpow_add_natCast]
      have hbit : ((2 ^ m.log2 : ℕ) : ℚ) ≤ m := by exact_mod_cast Nat.log2_self_le hm0
      push_cast at hbit
      gcongr
      linarith

/-! ## Rounding a value of the interval of a double -/

/-- A value of the rounding interval scaled to the exponent of the double: at most a half from
    the mantissa, no further below than the half distance to the next double below, and a tie
    only when the mantissa is even. -/
theorem halfBelow_div_le (b : Binary) : b.halfBelow / 2 ^ b.exponent ≤ 1 / 2 := by
  have hq : (0 : ℚ) < 2 ^ b.exponent := by positivity
  rw [div_le_iff₀ hq]
  have := b.halfBelow_le
  rw [zpow_sub_one₀ (by norm_num)] at this
  linarith

theorem scaled_of_inInterval {b : Binary} (hm : 0 < b.mantissa) {v : ℚ} (hv : b.InInterval v) :
    (b.mantissa : ℚ) - b.halfBelow / 2 ^ b.exponent ≤ v / 2 ^ b.exponent ∧
      v / 2 ^ b.exponent ≤ b.mantissa + 1 / 2 ∧
      (v / 2 ^ b.exponent = b.mantissa - 1 / 2 ∨ v / 2 ^ b.exponent = b.mantissa + 1 / 2 →
        b.mantissa % 2 = 0) := by
  have hq : (0 : ℚ) < 2 ^ b.exponent := by positivity
  have hhalf := halfBelow_div_le b
  have hlow : b.low / 2 ^ b.exponent = b.mantissa - b.halfBelow / 2 ^ b.exponent := by
    rw [Binary.low_eq hm, Binary.value, sub_div, mul_div_cancel_right₀ _ hq.ne']
  have hhigh : b.high / 2 ^ b.exponent = b.mantissa + 1 / 2 := by
    rw [Binary.high_eq, Binary.value, add_div, mul_div_cancel_right₀ _ hq.ne',
      zpow_sub_one₀ (by norm_num)]
    field_simp
  unfold Binary.InInterval at hv
  split at hv
  · -- the ends read back: the mantissa is even
    rename_i hends
    have heven : b.mantissa % 2 = 0 := by simpa [Binary.endsIncluded] using hends
    refine ⟨?_, ?_, fun _ => heven⟩
    · rw [← hlow]
      exact div_le_div_of_nonneg_right hv.1 hq.le
    · rw [← hhigh]
      exact div_le_div_of_nonneg_right hv.2 hq.le
  · -- the ends do not read back: a tie is outside the interval
    have h1 : b.low / 2 ^ b.exponent < v / 2 ^ b.exponent := div_lt_div_of_pos_right hv.1 hq
    have h2 : v / 2 ^ b.exponent < b.high / 2 ^ b.exponent := div_lt_div_of_pos_right hv.2 hq
    rw [hlow] at h1
    rw [hhigh] at h2
    refine ⟨h1.le, h2.le, ?_⟩
    rintro (h | h) <;> rw [h] at h1 h2 <;> linarith

theorem lt_of_inInterval {b : Binary} (hb : b.IsDouble) {v : ℚ} (hv : b.InInterval v) :
    v < 2 ^ (b.exponent + (53 : ℕ)) := by
  obtain ⟨-, hhi, -⟩ := scaled_of_inInterval hb.1 hv
  have hq : (0 : ℚ) < 2 ^ b.exponent := by positivity
  have hM : (b.mantissa : ℚ) + 1 ≤ 2 ^ 53 := by exact_mod_cast hb.2.1
  rw [two_zpow_add_natCast, ← div_lt_iff₀ hq]
  linarith

/-- The exponent the model rounds a value of the interval of a double to: the exponent of the
    double, or one less just below the least mantissa of a binade. -/
theorem target_of_inInterval {b : Binary} (hb : b.IsDouble) {v : ℚ} (hv : b.InInterval v)
    {T : ℤ} (hT : -1074 ≤ T) (hlt : v < 2 ^ (T + 53)) (hge : T = -1074 ∨ 2 ^ (T + 52) ≤ v) :
    T = b.exponent ∨ (T = b.exponent - 1 ∧ b.narrowBelow = true ∧ v < 2 ^ (b.exponent + 52)) := by
  have hup := lt_of_inInterval hb hv
  obtain ⟨hM0, hM53, hq0, -, hsub, hnarrow⟩ := hb
  obtain ⟨hlo, hhi, -⟩ := scaled_of_inInterval hM0 hv
  have hq : (0 : ℚ) < 2 ^ b.exponent := by positivity
  have hpow (n : ℕ) : (2 : ℚ) ^ (b.exponent + n) = 2 ^ n * 2 ^ b.exponent :=
    two_zpow_add_natCast _ _
  have hexp {a c : ℤ} (h : (2 : ℚ) ^ a < 2 ^ c) : a < c :=
    (zpow_lt_zpow_iff_right₀ (by norm_num)).1 h
  have hTq : T ≤ b.exponent := by
    rcases hge with hge | hge
    · omega
    · have := hexp (hge.trans_lt hup)
      omega
  by_cases hn : b.narrowBelow = true
  · -- the least mantissa of a binade: the interval reaches below `2 ^ (exponent + 52)`
    obtain ⟨hM, -⟩ := hnarrow.1 hn
    have hhalf : b.halfBelow / 2 ^ b.exponent = 1 / 4 := by
      rw [Binary.halfBelow, if_pos hn, zpow_sub₀ (by norm_num)]
      field_simp
      norm_num
    have hdown : 2 ^ (b.exponent + (51 : ℕ)) < v := by
      rw [hpow, ← lt_div_iff₀ hq]
      rw [hhalf, hM] at hlo
      push_cast at hlo
      linarith
    have := hexp (hdown.trans hlt)
    rcases (by omega : T = b.exponent ∨ T = b.exponent - 1) with h | h
    · exact .inl h
    · refine .inr ⟨h, hn, ?_⟩
      rw [h] at hlt
      convert hlt using 2
      ring
  · left
    by_cases hq0' : b.exponent = -1074
    · omega
    · -- a normal mantissa above the least of its binade: the interval lies above `2 ^ (exponent + 52)`
      have hM : 2 ^ 52 + 1 ≤ b.mantissa := by
        have h52 : 2 ^ 52 ≤ b.mantissa := by
          by_contra h
          exact hq0' (hsub (by omega))
        have : b.mantissa ≠ 2 ^ 52 := fun h => hn (hnarrow.2 ⟨h, by omega⟩)
        omega
      have hhalf : b.halfBelow / 2 ^ b.exponent = 1 / 2 := by
        rw [Binary.halfBelow, if_neg hn, zpow_sub_one₀ (by norm_num)]
        field_simp
      have hdown : 2 ^ (b.exponent + (52 : ℕ)) < v := by
        rw [hpow, ← lt_div_iff₀ hq]
        rw [hhalf] at hlo
        have : ((2 ^ 52 + 1 : ℕ) : ℚ) ≤ b.mantissa := by exact_mod_cast hM
        push_cast at this
        linarith
      have := hexp (hdown.trans hlt)
      omega

/-- The exponent of a double is the one a rounding of its mantissa and exponent shifts to. -/
theorem targetExponent_of_isDouble {b : Binary} (hb : b.IsDouble) :
    Format.binary64.targetExponent (totalExponent b.mantissa b.exponent) = b.exponent := by
  obtain ⟨hM0, hM53, hq0, -, hsub, -⟩ := hb
  have hlog : b.mantissa.log2 < 53 := (Nat.log2_lt hM0.ne').2 hM53
  rw [targetExponent_binary64]
  by_cases h : 2 ^ 52 ≤ b.mantissa
  · have := (Nat.le_log2 hM0.ne').2 h
    omega
  · have := hsub (by omega)
    omega

/-- The mantissa and exponent of a double are where a rounding puts them: the second shift of a
    rounding moves nothing. -/
theorem shiftToTargetExponent_of_isDouble {b : Binary} (hb : b.IsDouble) :
    shiftToTargetExponent Format.binary64 b.mantissa b.exponent .exact =
      (⟨b.mantissa, false, false⟩, b.exponent) := by
  simp only [shiftToTargetExponent, shiftToExponent, targetExponent_of_isDouble hb, sub_self, Int.toNat_zero,
    Nat.cast_zero, add_zero]
  rfl

/-- A rounding that carried to `2 ^ 53` one below an exponent is shifted once more, to the least
    mantissa of the binade at that exponent. -/
theorem shiftToTargetExponent_carry {q : ℤ} (hq : -1074 ≤ q) :
    shiftToTargetExponent Format.binary64 (2 ^ 53) (q - 1) .exact =
      (⟨2 ^ 52, false, false⟩, q) := by
  have htarget :
      Format.binary64.targetExponent (totalExponent (2 ^ 53) (q - 1)) = q := by
    rw [targetExponent_binary64, Nat.log2_two_pow]
    omega
  simp only [shiftToTargetExponent, shiftToExponent, htarget,
    show (q - (q - 1)).toNat = 1 by omega, HShiftRight.hShiftRight, Nat.repeat,
    ExtendedMantissa.ofMantissaAndAccuracy, ExtendedMantissa.shiftRightOne]
  simp only [Prod.mk.injEq, ExtendedMantissa.mk.injEq]
  refine ⟨⟨by norm_num, by decide, rfl⟩, by omega⟩

/-- Rounding to binary64 a value that lies in the rounding interval of a double gives that
    double. The rounding works on a mantissa `m` and exponent `e` whose extended mantissa stands
    for `X`, so that the value is `X · 2 ^ e`; `e` must not lie above the exponent the rounding
    shifts to, and a zero mantissa is rounded at the least exponent. -/
theorem roundWithAccuracy_eq {b : Binary} (hb : b.IsDouble) (s : Sign) {m : ℕ} {e : ℤ}
    {acc : Accuracy} {X : ℚ} (hX : Represents (ExtendedMantissa.ofMantissaAndAccuracy m acc) X)
    (hv : b.InInterval (X * 2 ^ e))
    (he : e ≤ Format.binary64.targetExponent (totalExponent m e))
    (hm : 0 < m ∨ Format.binary64.targetExponent (totalExponent m e) = -1074) :
    roundWithAccuracy Format.binary64 s m e acc = .finite s b.mantissa b.exponent hb.1 := by
  obtain ⟨hrep, hexp⟩ := shiftToTargetExponent_represents hX he
  obtain ⟨hlt, hge⟩ := value_bounds_of_target (m := m)
    (by simpa using hX.1) (by simpa using hX.2.1) hm
  have hT : -1074 ≤ Format.binary64.targetExponent (totalExponent m e) := by
    rw [targetExponent_binary64]
    omega
  unfold roundWithAccuracy
  generalize shiftToTargetExponent Format.binary64 m e acc = first at hrep hexp ⊢
  generalize Format.binary64.targetExponent (totalExponent m e) = T at hrep hexp hlt hge hT
  obtain ⟨em₁, e₁⟩ := first
  simp only at hrep hexp ⊢
  subst hexp
  obtain ⟨hlo, hhi, htie⟩ := scaled_of_inInterval hb.1 hv
  have hsecond : shiftToTargetExponent Format.binary64 em₁.roundedMantissa e₁ .exact =
      (⟨b.mantissa, false, false⟩, b.exponent) := by
    rcases target_of_inInterval hb hv hT hlt hge with rfl | ⟨rfl, hn, hsmall⟩
    · -- rounding at the exponent of the double gives its mantissa
      have hhalf := halfBelow_div_le b
      rw [roundedMantissa_eq hrep (by linarith) hhi htie]
      exact shiftToTargetExponent_of_isDouble hb
    · -- rounding one below carries to `2 ^ 53`, which the second shift halves
      obtain ⟨hM, hq⟩ := hb.2.2.2.2.2.1 hn
      have hq2 : (0 : ℚ) < 2 ^ b.exponent := by positivity
      have hy : X * 2 ^ e / 2 ^ (b.exponent - 1) = 2 * (X * 2 ^ e / 2 ^ b.exponent) := by
        rw [zpow_sub_one₀ (by norm_num)]
        field_simp
      have hhalf : b.halfBelow / 2 ^ b.exponent = 1 / 4 := by
        rw [Binary.halfBelow, if_pos hn, zpow_sub₀ (by norm_num)]
        field_simp
        norm_num
      have hbelow : X * 2 ^ e / 2 ^ b.exponent < 2 ^ 52 := by
        rw [div_lt_iff₀ hq2, ← two_zpow_add_natCast]
        exact hsmall
      rw [hhalf, hM] at hlo
      push_cast at hlo
      rw [roundedMantissa_eq hrep (M := 2 ^ 53) (by push_cast; rw [hy]; linarith)
        (by push_cast; rw [hy]; linarith) (fun _ => by norm_num), hM]
      exact shiftToTargetExponent_carry (by omega)
  rw [hsecond]
  simp only
  rw [dif_neg hb.1.ne']

end Rounding

end Alternation
