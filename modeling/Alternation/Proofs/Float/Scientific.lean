import Alternation.Decimal.Read
import Alternation.Proofs.Float.Bits

/-!
# Decimal literals to doubles

Core's `Float.ofScientific m s e` reads the decimal `m · 10 ^ (±e)`. When `m < 2 ^ 53` and
`e ≤ 22` it multiplies or divides two exactly representable doubles, `m` and a power of ten from a
table; otherwise it multiplies `m · 2 ^ 53 · 2 ^ (-53)` by `10 ^ e`, or divides `m` by `10 ^ (-e)`,
in the model with its exact quotient and remainder. In both cases a single rounding of an exact
value is made, and a decimal in the rounding interval of a double therefore gives that double.

Main results:

* `Rounding.mul_finite_eq`, `Rounding.div_finite_eq`: a product or quotient of positive values in
  the rounding interval of a double rounds to it.
* `Rounding.ofScientific_eq`: the model's decimal reading.
* `Rounding.toModel_ofScientific`: `Float.ofScientific`, both of its paths.
* `Rounding.toModel_toFloat`: a decimal in the rounding interval of a double reads as it.
-/

namespace Alternation

namespace Rounding

open Float.Model Float.Model.UnpackedFloat

theorem inInterval_value {b : Binary} (hm : 0 < b.mantissa) : b.InInterval b.value := by
  have hhalf := b.halfBelow_pos
  have hup : (0 : ℚ) < 2 ^ (b.exponent - 1) := by positivity
  exact Binary.inInterval_of_near hm (by linarith) (by linarith)

theorem roundWithAccuracy_of_isDouble {b : Binary} (hb : b.IsDouble) (s : Sign) :
    roundWithAccuracy Format.binary64 s b.mantissa b.exponent .exact =
      .finite s b.mantissa b.exponent hb.1 :=
  roundWithAccuracy_eq hb s (represents_exact _) (inInterval_value hb.1)
    (by rw [targetExponent_of_isDouble hb]) (.inl hb.1)

/-! ## Products and quotients -/

/-- A product of two positive values whose mantissas have at least 53 bits together, in the
    rounding interval of a double, rounds to that double. -/
theorem mul_finite_eq {b : Binary} (hb : b.IsDouble) {m₁ m₂ : ℕ} {e₁ e₂ : ℤ} (h₁ : 0 < m₁)
    (h₂ : 0 < m₂) (hm : 2 ^ 52 ≤ m₁ * m₂)
    (hv : b.InInterval (((m₁ * m₂ : ℕ) : ℚ) * 2 ^ (e₁ + e₂))) :
    UnpackedFloat.mul Format.binary64 (.finite .positive m₁ e₁ h₁) (.finite .positive m₂ e₂ h₂) =
      .finite .positive b.mantissa b.exponent hb.1 := by
  have hpos : 0 < m₁ * m₂ := Nat.mul_pos h₁ h₂
  have hlog : 52 ≤ (m₁ * m₂).log2 := (Nat.le_log2 hpos.ne').2 hm
  exact roundWithAccuracy_eq hb .positive (represents_exact _) hv
    (by rw [targetExponent_binary64]; omega) (.inl hpos)

/-- The quotient the model divides to has 53 bits unless it is rounded at the least exponent. -/
theorem le_div_of_targetExponent {m₁ m₂ : ℕ} (e₁ e₂ : ℤ) (h₁ : 0 < m₁) (h₂ : 0 < m₂)
    (hT : -1074 < min (e₁ - e₂)
      (Format.binary64.targetExponent (totalExponent m₁ e₁ - totalExponent m₂ e₂))) :
    2 ^ 52 ≤ (m₁ <<< (e₁ - e₂ - min (e₁ - e₂)
      (Format.binary64.targetExponent (totalExponent m₁ e₁ - totalExponent m₂ e₂))).toNat) / m₂ := by
  generalize hk : (e₁ - e₂ - min (e₁ - e₂)
    (Format.binary64.targetExponent (totalExponent m₁ e₁ - totalExponent m₂ e₂))).toNat = k
  -- the shift puts the leading bit of the dividend 53 places above that of the divisor
  have hbits : m₂.log2 + 53 ≤ m₁.log2 + k := by
    simp only [Format.targetExponent, totalExponent, Format.mantissaBits, Format.minExponent] at hT hk
    norm_num at hT hk
    omega
  rw [Nat.le_div_iff_mul_le h₂, Nat.shiftLeft_eq]
  calc 2 ^ 52 * m₂ ≤ 2 ^ 52 * 2 ^ (m₂.log2 + 1) := by
        gcongr
        exact Nat.lt_log2_self.le
    _ = 2 ^ (m₂.log2 + 53) := by rw [← pow_add]; ring_nf
    _ ≤ 2 ^ (m₁.log2 + k) := Nat.pow_le_pow_right (by norm_num) hbits
    _ = 2 ^ m₁.log2 * 2 ^ k := pow_add _ _ _
    _ ≤ m₁ * 2 ^ k := by
        gcongr
        exact Nat.log2_self_le h₁.ne'

/-- A quotient of two positive values in the rounding interval of a double rounds to that
    double. -/
theorem div_finite_eq {b : Binary} (hb : b.IsDouble) {m₁ m₂ : ℕ} {e₁ e₂ : ℤ} (h₁ : 0 < m₁)
    (h₂ : 0 < m₂) (hv : b.InInterval ((m₁ : ℚ) * 2 ^ e₁ / (m₂ * 2 ^ e₂))) :
    UnpackedFloat.div Format.binary64 (.finite .positive m₁ e₁ h₁) (.finite .positive m₂ e₂ h₂) =
      .finite .positive b.mantissa b.exponent hb.1 := by
  have hge := le_div_of_targetExponent e₁ e₂ h₁ h₂
  simp only [UnpackedFloat.div, divCore]
  generalize hT : min (e₁ - e₂)
    (Format.binary64.targetExponent (totalExponent m₁ e₁ - totalExponent m₂ e₂)) = T at hge ⊢
  have hTle : T ≤ e₁ - e₂ := hT ▸ min_le_left _ _
  have hk : (((e₁ - e₂ - T).toNat : ℕ) : ℤ) = e₁ - e₂ - T := Int.toNat_of_nonneg (by omega)
  generalize (e₁ - e₂ - T).toNat = k at hge hk ⊢
  have hX := represents_div (m₁ <<< k) m₂ h₂
  -- the exact quotient at exponent `T` is the value
  have hvalue : ((m₁ <<< k : ℕ) : ℚ) / m₂ * 2 ^ T = m₁ * 2 ^ e₁ / (m₂ * 2 ^ e₂) := by
    have hpow : (2 : ℚ) ^ k * 2 ^ T * 2 ^ e₂ = 2 ^ e₁ := by
      rw [← zpow_natCast, ← zpow_add₀ (by norm_num), ← zpow_add₀ (by norm_num), hk]
      ring_nf
    rw [Nat.shiftLeft_eq, Nat.cast_mul, Nat.cast_pow, Nat.cast_ofNat, ← hpow]
    field_simp
  rw [← hvalue] at hv
  have hlog (h : -1074 < T) : 52 ≤ ((m₁ <<< k) / m₂).log2 :=
    (Nat.le_log2 (by have := hge h; omega)).2 (hge h)
  refine roundWithAccuracy_eq hb _ hX hv ?_ ?_
  · -- the quotient's exponent is not above the one it is rounded to
    rw [targetExponent_binary64]
    by_cases h : -1074 < T
    · have := hlog h
      omega
    · omega
  · -- a zero quotient only at the least exponent
    by_cases hq : (m₁ <<< k) / m₂ = 0
    · have h : ¬ -1074 < T := fun h => by
        have := hge h
        omega
      right
      rw [targetExponent_binary64, hq]
      simp only [Nat.log2_zero, Nat.cast_zero, zero_add]
      omega
    · exact .inl (Nat.pos_of_ne_zero hq)

/-! ## The model's decimal reading -/

theorem le_of_inInterval {b : Binary} (hb : b.IsDouble) {v : ℚ} (hv : b.InInterval v) :
    (2 : ℚ) ^ (-1076 : ℤ) ≤ v := by
  have hlow : b.low ≤ v := by
    unfold Binary.InInterval at hv
    split at hv
    · exact hv.1
    · exact hv.1.le
  have hquarters : (1 : ℚ) ≤ b.lowQuarters := by
    have := hb.1
    unfold Binary.lowQuarters
    split <;> norm_cast <;> omega
  have hpow : (2 : ℚ) ^ (-1076 : ℤ) ≤ 2 ^ (b.exponent - 2) :=
    zpow_le_zpow_right₀ (by norm_num) (by have := hb.2.2.1; omega)
  calc (2 : ℚ) ^ (-1076 : ℤ) ≤ 2 ^ (b.exponent - 2) := hpow
    _ ≤ b.lowQuarters * 2 ^ (b.exponent - 2) := le_mul_of_one_le_left (by positivity) hquarters
    _ ≤ v := hlow

theorem two_zpow_le_ten_zpow {E : ℤ} (h : 0 ≤ E) : (2 : ℚ) ^ E ≤ 10 ^ E :=
  zpow_le_zpow_left₀ h (by norm_num) (by norm_num)

theorem ten_zpow_le_two_zpow {E : ℤ} (h : E ≤ 0) : (10 : ℚ) ^ E ≤ 2 ^ E := by
  obtain ⟨n, rfl⟩ := Int.exists_eq_neg_ofNat h
  rw [zpow_neg, zpow_neg, zpow_natCast, zpow_natCast]
  exact inv_anti₀ (by positivity) (pow_le_pow_left₀ (by norm_num) (by norm_num) n)

/-- The model reads a positive decimal in the rounding interval of a double as that double:
    neither of its guards against huge powers of ten applies, and it multiplies by `10 ^ E` or
    divides by `10 ^ (-E)`. -/
theorem ofScientific_eq {b : Binary} (hb : b.IsDouble) {D : ℕ} (hD : 0 < D) {E : ℤ}
    (hv : b.InInterval (D * 10 ^ E)) :
    UnpackedFloat.ofScientific Format.binary64 D E = .finite .positive b.mantissa b.exponent hb.1 := by
  have hup : (D : ℚ) * 10 ^ E < 2 ^ (1024 : ℤ) :=
    (lt_of_inInterval hb hv).trans_le
      (zpow_le_zpow_right₀ (by norm_num) (by have := hb.2.2.2.1; push_cast; omega))
  have hlow := le_of_inInterval hb hv
  have hD1 : (1 : ℚ) ≤ D := by exact_mod_cast hD
  -- an exponent above 1023 overflows every double
  have hbig : E < 1024 := by
    by_contra h
    have h10 : (2 : ℚ) ^ (1024 : ℤ) ≤ D * 10 ^ E :=
      calc (2 : ℚ) ^ (1024 : ℤ) ≤ 2 ^ E := zpow_le_zpow_right₀ (by norm_num) (by omega)
        _ ≤ 10 ^ E := two_zpow_le_ten_zpow (by omega)
        _ ≤ D * 10 ^ E := le_mul_of_one_le_left (by positivity) hD1
    linarith
  -- an exponent below `-(2048 + log2 D)` leaves the value below every double
  have hsmall : -((2 : ℤ) ^ 11 + D.log2) ≤ E := by
    by_contra h
    have hDlt : (D : ℚ) < 2 ^ (D.log2 + 1) := by exact_mod_cast Nat.lt_log2_self
    have h10 : (D : ℚ) * 10 ^ E < 2 ^ (-1076 : ℤ) :=
      calc (D : ℚ) * 10 ^ E ≤ D * 2 ^ E := by
            gcongr
            exact ten_zpow_le_two_zpow (by omega)
        _ < 2 ^ (D.log2 + 1) * 2 ^ E := by gcongr
        _ = 2 ^ ((D.log2 + 1 : ℕ) + E) := by rw [zpow_add₀ (by norm_num), zpow_natCast]
        _ ≤ 2 ^ (-1076 : ℤ) := zpow_le_zpow_right₀ (by norm_num) (by push_cast; omega)
    linarith
  unfold UnpackedFloat.ofScientific
  rw [dif_neg hD.ne', if_neg (by show ¬E > 2 ^ 11; omega),
    if_neg (by show ¬E < -((2 : ℤ) ^ 11 + D.log2); omega)]
  split_ifs with hE
  · -- a nonnegative exponent: `D · 2 ^ 53 · 2 ^ (-53)` times `10 ^ E`
    obtain ⟨n, rfl⟩ := Int.eq_ofNat_of_zero_le hE
    refine mul_finite_eq hb _ _ ?_ ?_
    · rw [Nat.shiftLeft_eq, Binary64.mantissaBits_binary64]
      calc 2 ^ 52 ≤ 2 ^ 53 := by norm_num
        _ ≤ D * 2 ^ 53 := Nat.le_mul_of_pos_left _ hD
        _ ≤ D * 2 ^ 53 * 10 ^ (n : ℤ).toNat := Nat.le_mul_of_pos_right _ (by positivity)
    · convert hv using 1
      rw [Nat.shiftLeft_eq, Int.toNat_natCast, Binary64.mantissaBits_binary64]
      push_cast
      rw [show (2 : ℚ) ^ (-53 : ℤ) = 1 / 9007199254740992 by norm_num, zpow_natCast]
      ring
  · -- a negative exponent: `D` divided by `10 ^ (-E)`
    refine div_finite_eq hb _ _ ?_
    convert hv using 1
    have hE' : ((-E).toNat : ℤ) = -E := Int.toNat_of_nonneg (by omega)
    rw [zpow_zero, mul_one, mul_one]
    push_cast
    rw [← zpow_natCast, hE', zpow_neg, div_inv_eq_mul]

/-! ## Exact doubles -/

/-- The double `n · 2 ^ e` of a mantissa `0 < n < 2 ^ 53`, with the mantissa shifted up to 53
    bits. -/
def normalized (n : ℕ) (e : ℤ) : Binary :=
  ⟨n <<< (52 - n.log2), e - (52 - n.log2 : ℕ), n <<< (52 - n.log2) == 2 ^ 52⟩

theorem log2_le_of_lt {n : ℕ} (hn : n ≠ 0) (h : n < 2 ^ 53) : n.log2 ≤ 52 := by
  have := (Nat.log2_lt hn).2 h
  omega

section Normalized

variable {n : ℕ} (h0 : 0 < n) (h53 : n < 2 ^ 53)
include h0 h53

theorem mantissa_normalized (e : ℤ) :
    2 ^ 52 ≤ (normalized n e).mantissa ∧ (normalized n e).mantissa < 2 ^ 53 := by
  have hl := log2_le_of_lt h0.ne' h53
  have hsplit : 52 = n.log2 + (52 - n.log2) := by omega
  simp only [normalized, Nat.shiftLeft_eq]
  constructor
  · calc 2 ^ 52 = 2 ^ n.log2 * 2 ^ (52 - n.log2) := by rw [← pow_add, ← hsplit]
      _ ≤ n * 2 ^ (52 - n.log2) := by
        gcongr
        exact Nat.log2_self_le h0.ne'
  · calc n * 2 ^ (52 - n.log2) < 2 ^ (n.log2 + 1) * 2 ^ (52 - n.log2) := by
          gcongr
          exact Nat.lt_log2_self
      _ = 2 ^ 53 := by rw [← pow_add]; congr 1; omega

theorem isDouble_normalized {e : ℤ} (he₁ : -1022 < e) (he₂ : e ≤ 971) :
    (normalized n e).IsDouble := by
  obtain ⟨hlo, hhi⟩ := mantissa_normalized h0 h53 e
  have hl := log2_le_of_lt h0.ne' h53
  refine ⟨by omega, hhi, ?_, ?_, fun h => absurd h (by omega), ?_⟩
  · simp only [normalized]
    omega
  · simp only [normalized]
    omega
  · simp only [normalized, beq_iff_eq] at hlo ⊢
    constructor
    · intro h
      exact ⟨h, by omega⟩
    · exact fun h => h.1

theorem value_normalized (e : ℤ) : (normalized n e).value = n * 2 ^ e := by
  have hl := log2_le_of_lt h0.ne' h53
  simp only [Binary.value, normalized, Nat.shiftLeft_eq]
  push_cast
  rw [mul_assoc, ← zpow_natCast, ← zpow_add₀ (by norm_num)]
  congr 2
  ring

end Normalized

/-- A positive natural below `2 ^ 53` converts exactly: to its normalized mantissa and
    exponent. -/
theorem toModel_toFloat_of_lt {D : ℕ} (h0 : 0 < D) (h53 : D < 2 ^ 53) :
    D.toUInt64.toFloat.toModel =
      Float.Model.pack (.finite .positive (normalized D 0).mantissa (normalized D 0).exponent
        (isDouble_normalized h0 h53 (by norm_num) (by norm_num)).1) := by
  have hl := log2_le_of_lt h0.ne' h53
  have hD : D.toUInt64.toNat = D := by
    rw [Nat.toUInt64_eq, UInt64.toNat_ofNat']
    omega
  have hround : round Format.binary64 .positive D 0 =
      .finite .positive (normalized D 0).mantissa (normalized D 0).exponent
        (isDouble_normalized h0 h53 (by norm_num) (by norm_num)).1 := by
    rw [← roundWithAccuracy_of_isDouble (isDouble_normalized h0 h53 (by norm_num) (by norm_num))]
    simp only [UnpackedFloat.round, decreaseExponent, targetExponent_binary64]
    have hshift : (0 - max ((D.log2 : ℤ) + 0 - 52) (-1074)).toNat = 52 - D.log2 := by omega
    rw [hshift]
    rfl
  show Float.Model.pack (normalize Format.binary64 (D.toUInt64.toNat : ℤ) 0 .positive) = _
  rw [hD]
  simp only [UnpackedFloat.normalize, show compare (D : ℤ) 0 = .gt from Int.compare_eq_gt.2 (by omega),
    Int.toNat_natCast, hround]

/-- The table's powers of ten are the doubles `5 ^ E · 2 ^ E`. -/
theorem toNat_powerOfTen : ∀ E (h : E < Float.exactlyRepresentablePowersOfTen.size),
    Float.exactlyRepresentablePowersOfTen[E].toBits.toNat =
      Binary64.encode (.finite false (normalized (5 ^ E) E)) := by
  decide

theorem size_powersOfTen : Float.exactlyRepresentablePowersOfTen.size = 23 := rfl

theorem lt_size_powersOfTen {E : ℕ} (h : E ≤ 22) :
    E < Float.exactlyRepresentablePowersOfTen.size := by
  rw [size_powersOfTen]
  omega

theorem five_pow_lt {E : ℕ} (h : E ≤ 22) : 5 ^ E < 2 ^ 53 :=
  lt_of_le_of_lt (Nat.pow_le_pow_right (by norm_num) h) (by norm_num)

theorem isDouble_powerOfTen {E : ℕ} (h : E < Float.exactlyRepresentablePowersOfTen.size) :
    (normalized (5 ^ E) E).IsDouble := by
  have hE : E ≤ 22 := by
    rw [size_powersOfTen] at h
    omega
  exact isDouble_normalized (by positivity) (five_pow_lt hE) (by omega) (by omega)

theorem unpack_powerOfTen {E : ℕ} (h : E < Float.exactlyRepresentablePowersOfTen.size) :
    Float.exactlyRepresentablePowersOfTen[E].toModel.unpack =
      .finite .positive (normalized (5 ^ E) E).mantissa (normalized (5 ^ E) E).exponent
        (isDouble_powerOfTen h).1 :=
  Binary64.unpack_of_toNat_eq_finite (isDouble_powerOfTen h) (toNat_powerOfTen E h)

theorem value_powerOfTen {E : ℕ} (h : E ≤ 22) : (normalized (5 ^ E) E).value = 10 ^ (E : ℤ) := by
  rw [value_normalized (by positivity) (five_pow_lt h), zpow_natCast, zpow_natCast]
  push_cast
  rw [← mul_pow]
  norm_num

theorem unpack_toFloat_of_lt {D : ℕ} (h0 : 0 < D) (h53 : D < 2 ^ 53) :
    D.toUInt64.toFloat.toModel.unpack =
      .finite .positive (normalized D 0).mantissa (normalized D 0).exponent
        (isDouble_normalized h0 h53 (by norm_num) (by norm_num)).1 := by
  rw [toModel_toFloat_of_lt h0 h53,
    Binary64.unpack_pack_finite (isDouble_normalized h0 h53 (by norm_num) (by norm_num))]

/-! ## Core's decimal reading -/

/-- Core's decimal reading `Float.ofScientific` reads a positive decimal in the rounding
    interval of a double as that double, on its fast path through two exact doubles as on its
    slow path through the model. -/
theorem toModel_ofScientific {b : Binary} (hb : b.IsDouble) {D : ℕ} (hD : 0 < D) (neg : Bool)
    (E : ℕ) (hv : b.InInterval (D * 10 ^ (if neg then -(E : ℤ) else E))) :
    (Float.ofScientific D neg E).toModel =
      Float.Model.pack (.finite .positive b.mantissa b.exponent hb.1) := by
  unfold Float.ofScientific
  split_ifs with hfast hneg hneg'
  · -- the fast path dividing by a power of ten
    obtain ⟨h53, h22⟩ := hfast
    have htable := lt_size_powersOfTen h22
    show Float.Model.pack (UnpackedFloat.div Format.binary64 D.toUInt64.toFloat.toModel.unpack
      Float.exactlyRepresentablePowersOfTen[E].toModel.unpack) = _
    rw [unpack_toFloat_of_lt hD h53, unpack_powerOfTen htable,
      div_finite_eq hb _ _]
    rw [if_pos hneg] at hv
    convert hv using 1
    rw [← Binary.value, ← Binary.value, value_normalized hD h53, value_powerOfTen h22, zpow_zero,
      mul_one, zpow_neg, div_eq_mul_inv]
  · -- the fast path multiplying by a power of ten
    obtain ⟨h53, h22⟩ := hfast
    have htable := lt_size_powersOfTen h22
    show Float.Model.pack (UnpackedFloat.mul Format.binary64 D.toUInt64.toFloat.toModel.unpack
      Float.exactlyRepresentablePowersOfTen[E].toModel.unpack) = _
    rw [unpack_toFloat_of_lt hD h53, unpack_powerOfTen htable, mul_finite_eq hb _ _]
    · exact le_trans (mantissa_normalized hD h53 0).1
        (Nat.le_mul_of_pos_right _ (isDouble_powerOfTen htable).1)
    · rw [if_neg hneg] at hv
      convert hv using 1
      rw [Nat.cast_mul, zpow_add₀ (by norm_num), mul_mul_mul_comm, ← Binary.value,
        ← Binary.value, value_normalized hD h53, value_powerOfTen h22, zpow_zero, mul_one]
  · -- the slow path through the model, dividing
    show Float.Model.pack (UnpackedFloat.ofScientific Format.binary64 D (Int.negOfNat E)) = _
    rw [ofScientific_eq hb hD]
    rwa [if_pos hneg', ← Int.ofNat_eq_natCast, ← Int.negOfNat_eq] at hv
  · -- the slow path through the model, multiplying
    show Float.Model.pack (UnpackedFloat.ofScientific Format.binary64 D (Int.ofNat E)) = _
    rw [ofScientific_eq hb hD]
    rwa [if_neg hneg'] at hv

/-- A decimal in the rounding interval of a double reads as that double. -/
theorem toModel_toFloat {b : Binary} (hb : b.IsDouble) {d : Decimal}
    (hv : b.InInterval d.value) :
    d.toFloat.toModel = Float.Model.pack (.finite .positive b.mantissa b.exponent hb.1) := by
  have hD : 0 < d.digits := by
    by_contra h
    have hzero : d.value = 0 := by simp [Decimal.value, show d.digits = 0 by omega]
    have := le_of_inInterval hb hv
    rw [hzero] at this
    exact absurd this (not_le.2 (by positivity))
  unfold Decimal.toFloat
  split_ifs with he
  · refine toModel_ofScientific hb hD false _ ?_
    rwa [if_neg Bool.false_ne_true, Int.toNat_of_nonneg he]
  · refine toModel_ofScientific hb hD true _ ?_
    rwa [if_pos rfl, Int.toNat_of_nonneg (by omega), neg_neg]

/-- The decimal zero reads as positive zero, on either path. -/
theorem toModel_ofScientific_zero (neg : Bool) (E : ℕ) :
    (Float.ofScientific 0 neg E).toModel = Float.Model.pack (.zero .positive) := by
  have hzero : (0 : ℕ).toUInt64.toFloat.toModel = Float.Model.pack (.zero .positive) := rfl
  unfold Float.ofScientific
  split_ifs with hfast hneg hneg'
  · -- zero divided by a power of ten
    have htable := lt_size_powersOfTen hfast.2
    show Float.Model.pack (UnpackedFloat.div Format.binary64 (0 : ℕ).toUInt64.toFloat.toModel.unpack
      Float.exactlyRepresentablePowersOfTen[E].toModel.unpack) = _
    rw [hzero, Binary64.unpack_pack_zero, unpack_powerOfTen htable]
    rfl
  · -- zero times a power of ten
    have htable := lt_size_powersOfTen hfast.2
    show Float.Model.pack (UnpackedFloat.mul Format.binary64 (0 : ℕ).toUInt64.toFloat.toModel.unpack
      Float.exactlyRepresentablePowersOfTen[E].toModel.unpack) = _
    rw [hzero, Binary64.unpack_pack_zero, unpack_powerOfTen htable]
    rfl
  · rfl
  · rfl

theorem toModel_toFloat_zero {d : Decimal} (h : d.digits = 0) :
    d.toFloat.toModel = Float.Model.pack (.zero .positive) := by
  unfold Decimal.toFloat
  rw [h]
  split_ifs <;> exact toModel_ofScientific_zero _ _

end Rounding

end Alternation
