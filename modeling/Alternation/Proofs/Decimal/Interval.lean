import Alternation.Decimal.Shortest
import Mathlib

/-!
# The shortest decimal lies in the rounding interval

`Binary.shortest` works in natural numbers: it compares scaled naturals, takes floors on a
decimal grid and counts the digits of an integer part. Read as rational arithmetic, each of these
steps says what its name says, and together they put the shortest decimal of every finite double
inside the double's rounding interval: the reals from the midpoint with the next double below to
the midpoint with the next double above, the midpoints included exactly when the mantissa is
even. Seventeen significant digits always reach the interval, because a grid of that spacing is
finer than the narrower half of the interval, so the search never falls back to its default.

Main results:

* `compareScaled_lt_iff`, `compareScaled_gt_iff`, `floorScaled_spec`: the comparisons and floors
  of `Binary.shortest` in `ℚ`.
* `Binary.readsBack_iff`: the test of `Binary.shortest` is membership in the rounding interval.
* `Binary.decimalExponent_spec`: the leading power of ten of the value.
* `Binary.IsDouble`, `Binary64.isDouble_of_ofBits`: the magnitudes the bit patterns decode to.
* `Binary.inInterval_shortest`: the shortest decimal of a double lies in its rounding interval.
* `Decimal.value_trim`: trimming trailing zeros keeps the value.
-/

namespace Alternation

/-! ## Scaled naturals as rationals -/

theorem zpow_mul_pow_toNat_neg (a : ℚ) (ha : a ≠ 0) (s : ℤ) :
    a ^ s * a ^ (-s).toNat = a ^ s.toNat := by
  rw [← zpow_natCast, ← zpow_natCast, ← zpow_add₀ ha]
  congr 1
  omega

/-- The factor that clears the negative powers of `a · 2 ^ s` and `b · 10 ^ t`. -/
def clearing (s t : ℤ) : ℚ :=
  2 ^ (-s).toNat * 10 ^ (-t).toNat

theorem clearing_pos (s t : ℤ) : 0 < clearing s t := by
  unfold clearing
  positivity

theorem two_zpow_mul_clearing (a : ℕ) (s t : ℤ) :
    (a : ℚ) * 2 ^ s * clearing s t = ((a * 2 ^ s.toNat * 10 ^ (-t).toNat : ℕ) : ℚ) := by
  rw [clearing]
  push_cast
  rw [← zpow_mul_pow_toNat_neg 2 (by norm_num) s]
  ring

theorem ten_zpow_mul_clearing (b : ℕ) (s t : ℤ) :
    (b : ℚ) * 10 ^ t * clearing s t = ((b * 10 ^ t.toNat * 2 ^ (-s).toNat : ℕ) : ℚ) := by
  rw [clearing]
  push_cast
  rw [← zpow_mul_pow_toNat_neg 10 (by norm_num) t]
  ring

/-- Comparing `a · 2 ^ s` with `b · 10 ^ t` after clearing the negative powers is comparing them
    in `ℚ`. -/
theorem scaled_lt_iff (a b : ℕ) (s t : ℤ) :
    a * 2 ^ s.toNat * 10 ^ (-t).toNat < b * 10 ^ t.toNat * 2 ^ (-s).toNat ↔
      (a : ℚ) * 2 ^ s < b * 10 ^ t := by
  rw [← mul_lt_mul_iff_of_pos_right (clearing_pos s t), two_zpow_mul_clearing,
    ten_zpow_mul_clearing, Nat.cast_lt]

theorem scaled_gt_iff (a b : ℕ) (s t : ℤ) :
    b * 10 ^ t.toNat * 2 ^ (-s).toNat < a * 2 ^ s.toNat * 10 ^ (-t).toNat ↔
      (b : ℚ) * 10 ^ t < a * 2 ^ s := by
  rw [← mul_lt_mul_iff_of_pos_right (clearing_pos s t), two_zpow_mul_clearing,
    ten_zpow_mul_clearing, Nat.cast_lt]

theorem compareScaled_lt_iff (a : ℕ) (s : ℤ) (b : ℕ) (t : ℤ) :
    compareScaled a s b t = .lt ↔ (a : ℚ) * 2 ^ s < b * 10 ^ t := by
  rw [compareScaled, Nat.compare_eq_lt]
  simp only [Nat.pow_eq]
  exact scaled_lt_iff a b s t

theorem compareScaled_gt_iff (a : ℕ) (s : ℤ) (b : ℕ) (t : ℤ) :
    compareScaled a s b t = .gt ↔ (b : ℚ) * 10 ^ t < a * 2 ^ s := by
  rw [compareScaled, Nat.compare_eq_gt]
  simp only [Nat.pow_eq]
  exact scaled_gt_iff a b s t

/-- The value `floorScaled a s t` is the floor of `a · 2 ^ s` on the grid `10 ^ t`. -/
theorem floorScaled_spec (a : ℕ) (s t : ℤ) :
    (floorScaled a s t : ℚ) * 10 ^ t ≤ a * 2 ^ s ∧ (a : ℚ) * 2 ^ s < (floorScaled a s t + 1) * 10 ^ t := by
  have hD : 0 < 10 ^ t.toNat * 2 ^ (-s).toNat := by positivity
  have hlow := Nat.div_mul_le_self (a * 2 ^ s.toNat * 10 ^ (-t).toNat) (10 ^ t.toNat * 2 ^ (-s).toNat)
  have hhigh : a * 2 ^ s.toNat * 10 ^ (-t).toNat <
      a * 2 ^ s.toNat * 10 ^ (-t).toNat / (10 ^ t.toNat * 2 ^ (-s).toNat) *
        (10 ^ t.toNat * 2 ^ (-s).toNat) + 10 ^ t.toNat * 2 ^ (-s).toNat :=
    Nat.lt_div_mul_add hD
  have hfloor : floorScaled a s t =
      a * 2 ^ s.toNat * 10 ^ (-t).toNat / (10 ^ t.toNat * 2 ^ (-s).toNat) := by
    simp only [floorScaled, Nat.pow_eq]
  constructor
  · rw [← not_lt, ← scaled_lt_iff, not_lt, hfloor]
    linarith
  · have h := (scaled_lt_iff a (floorScaled a s t + 1) s t).1
    push_cast at h
    apply h
    rw [hfloor]
    linarith

theorem two_zpow_eq_four_mul (q : ℤ) : (2 : ℚ) ^ q = 4 * 2 ^ (q - 2) := by
  rw [show (4 : ℚ) = 2 ^ (2 : ℤ) by norm_num, ← zpow_add₀ (by norm_num)]
  congr 1
  omega

theorem two_zpow_sub_one (q : ℤ) : (2 : ℚ) ^ (q - 1) = 2 * 2 ^ (q - 2) := by
  rw [show (2 : ℚ) * 2 ^ (q - 2) = 2 ^ (1 : ℤ) * 2 ^ (q - 2) by norm_num, ← zpow_add₀ (by norm_num)]
  congr 1
  omega

theorem pow_length_toDigits (n : ℕ) (hn : 0 < n) :
    10 ^ ((Nat.toDigits 10 n).length - 1) ≤ n ∧ n < 10 ^ (Nat.toDigits 10 n).length := by
  induction n using Nat.strong_induction_on with
  | _ n ih =>
    rw [Nat.toDigits_eq_if (by norm_num)]
    split
    · simp only [List.length_singleton, Nat.sub_self, pow_zero, pow_one]
      omega
    · rename_i hge
      obtain ⟨hlow, hhigh⟩ := ih (n / 10) (by omega) (by omega)
      have hpos : 0 < (Nat.toDigits 10 (n / 10)).length := Nat.length_toDigits_pos
      simp only [List.length_append, List.length_singleton, Nat.add_sub_cancel]
      -- one more digit is one more factor of ten
      constructor
      · calc 10 ^ (Nat.toDigits 10 (n / 10)).length
            = 10 ^ ((Nat.toDigits 10 (n / 10)).length - 1) * 10 := by
              rw [← pow_succ]
              congr 1
              omega
          _ ≤ n / 10 * 10 := Nat.mul_le_mul_right 10 hlow
          _ ≤ n := Nat.div_mul_le_self n 10
      · rw [pow_succ]
        omega

namespace Binary

/-- The value `mantissa · 2 ^ exponent`. -/
def value (b : Binary) : ℚ :=
  b.mantissa * 2 ^ b.exponent

/-- The lower end of the rounding interval. -/
def low (b : Binary) : ℚ :=
  b.lowQuarters * 2 ^ (b.exponent - 2)

/-- The upper end of the rounding interval. -/
def high (b : Binary) : ℚ :=
  b.highQuarters * 2 ^ (b.exponent - 2)

/-- Half the distance to the next double below: a quarter of `2 ^ exponent` at the least
    mantissa of a binade with one beneath it, else a half. -/
def halfBelow (b : Binary) : ℚ :=
  if b.narrowBelow then 2 ^ (b.exponent - 2) else 2 ^ (b.exponent - 1)

/-- Whether `v` lies in the rounding interval, its ends included exactly when they read back. -/
def InInterval (b : Binary) (v : ℚ) : Prop :=
  if b.endsIncluded then b.low ≤ v ∧ v ≤ b.high else b.low < v ∧ v < b.high

theorem low_eq {b : Binary} (hm : 0 < b.mantissa) : b.low = b.value - b.halfBelow := by
  unfold low value halfBelow lowQuarters
  rw [two_zpow_eq_four_mul b.exponent, two_zpow_sub_one]
  split <;> rw [Nat.cast_sub (by omega)] <;> push_cast <;> ring

theorem high_eq (b : Binary) : b.high = b.value + 2 ^ (b.exponent - 1) := by
  unfold high value highQuarters
  rw [two_zpow_eq_four_mul b.exponent, two_zpow_sub_one]
  push_cast
  ring

theorem halfBelow_le (b : Binary) : b.halfBelow ≤ 2 ^ (b.exponent - 1) := by
  unfold halfBelow
  split
  · rw [two_zpow_sub_one]
    have : (0 : ℚ) < 2 ^ (b.exponent - 2) := by positivity
    linarith
  · exact le_refl _

theorem halfBelow_pos (b : Binary) : 0 < b.halfBelow := by
  unfold halfBelow
  split <;> positivity

/-- The test of `Binary.shortest` is membership in the rounding interval. -/
theorem readsBack_iff (b : Binary) (d : ℕ) (t : ℤ) :
    b.readsBack d t = true ↔ b.InInterval (d * 10 ^ t) := by
  rw [readsBack, InInterval]
  cases b.endsIncluded
  · simp only [Bool.false_eq_true, if_false, Bool.and_eq_true, beq_iff_eq,
      compareScaled_lt_iff, compareScaled_gt_iff, low, high]
  · simp only [if_true, Bool.and_eq_true, bne_iff_ne, ne_eq, compareScaled_gt_iff,
      compareScaled_lt_iff, not_lt, low, high]

theorem inInterval_of_near {b : Binary} (hm : 0 < b.mantissa) {v : ℚ}
    (hlow : b.value - b.halfBelow < v) (hhigh : v < b.value + 2 ^ (b.exponent - 1)) :
    b.InInterval v := by
  unfold InInterval
  rw [low_eq hm, high_eq]
  split
  · exact ⟨le_of_lt hlow, le_of_lt hhigh⟩
  · exact ⟨hlow, hhigh⟩

theorem ten_zpow_le_value {b : Binary} (hm : 0 < b.mantissa) :
    (10 : ℚ) ^ (-((-b.exponent).toNat : ℤ)) ≤ b.value := by
  have hm1 : (1 : ℚ) ≤ b.mantissa := by exact_mod_cast hm
  have h2 : (10 : ℚ) ^ (-((-b.exponent).toNat : ℤ)) ≤ 2 ^ b.exponent := by
    rcases le_or_gt 0 b.exponent with he | he
    · rw [show (-b.exponent).toNat = 0 by omega]
      simpa using one_le_zpow₀ (by norm_num : (1 : ℚ) ≤ 2) he
    · -- a negative power of ten lies below the same negative power of two
      obtain ⟨n, hn⟩ : ∃ n : ℕ, b.exponent = -(n : ℤ) := ⟨(-b.exponent).toNat, by omega⟩
      rw [hn, show (-(-(n : ℤ))).toNat = n by omega, zpow_neg, zpow_neg, zpow_natCast,
        zpow_natCast]
      exact inv_anti₀ (by positivity) (pow_le_pow_left₀ (by norm_num) (by norm_num) n)
  calc (10 : ℚ) ^ (-((-b.exponent).toNat : ℤ)) ≤ 2 ^ b.exponent := h2
    _ = 1 * 2 ^ b.exponent := (one_mul _).symm
    _ ≤ b.mantissa * 2 ^ b.exponent := by gcongr
    _ = b.value := rfl

/-- The leading power of ten of the value: `10 ^ k ≤ value < 10 ^ (k + 1)`. -/
theorem decimalExponent_spec {b : Binary} (hm : 0 < b.mantissa) :
    (10 : ℚ) ^ b.decimalExponent ≤ b.value ∧ b.value < 10 ^ (b.decimalExponent + 1) := by
  set p : ℕ := (-b.exponent).toNat with hp
  set N := floorScaled b.mantissa b.exponent (-(p : ℤ)) with hN
  have hk : b.decimalExponent = ((Nat.toDigits 10 N).length : ℤ) - 1 - p := rfl
  -- the integer part of `value · 10 ^ p` is `N`, and it is at least one
  obtain ⟨hN1, hN2⟩ := floorScaled_spec b.mantissa b.exponent (-(p : ℤ))
  have hge := ten_zpow_le_value hm
  rw [← hp] at hge
  unfold value at hge ⊢
  have hNpos : 0 < N := by
    rcases Nat.eq_zero_or_pos N with h0 | h0
    · rw [← hN, h0] at hN2
      push_cast at hN2
      linarith
    · exact h0
  obtain ⟨hL1, hL2⟩ := pow_length_toDigits N hNpos
  have hL : 0 < (Nat.toDigits 10 N).length := Nat.length_toDigits_pos
  have hlead : (10 : ℚ) ^ (((Nat.toDigits 10 N).length : ℤ) - 1) ≤ N := by
    rw [show ((Nat.toDigits 10 N).length : ℤ) - 1 = (((Nat.toDigits 10 N).length - 1 : ℕ) : ℤ) by
      omega, zpow_natCast]
    exact_mod_cast hL1
  have hnext : (N : ℚ) + 1 ≤ 10 ^ ((Nat.toDigits 10 N).length : ℤ) := by
    rw [zpow_natCast]
    exact_mod_cast hL2
  rw [hk]
  constructor
  · calc (10 : ℚ) ^ (((Nat.toDigits 10 N).length : ℤ) - 1 - p)
        = 10 ^ (((Nat.toDigits 10 N).length : ℤ) - 1) * 10 ^ (-(p : ℤ)) := by
          rw [← zpow_add₀ (by norm_num)]
          rfl
      _ ≤ N * 10 ^ (-(p : ℤ)) := by gcongr
      _ ≤ b.mantissa * 2 ^ b.exponent := hN1
  · calc (b.mantissa : ℚ) * 2 ^ b.exponent < (N + 1) * 10 ^ (-(p : ℤ)) := hN2
      _ ≤ 10 ^ ((Nat.toDigits 10 N).length : ℤ) * 10 ^ (-(p : ℤ)) := by gcongr
      _ = 10 ^ (((Nat.toDigits 10 N).length : ℤ) - 1 - p + 1) := by
          rw [← zpow_add₀ (by norm_num)]
          congr 1
          ring

/-- The magnitudes of the finite nonzero doubles: a mantissa of at most 53 bits, of exactly 53
    above the least exponent, an exponent within the 2046 binades, and the next double below
    half as far away as the next above exactly at the least mantissa of a binade with another
    beneath it. -/
def IsDouble (b : Binary) : Prop :=
  0 < b.mantissa ∧ b.mantissa < 2 ^ 53 ∧ -1074 ≤ b.exponent ∧ b.exponent ≤ 971 ∧
    (b.mantissa < 2 ^ 52 → b.exponent = -1074) ∧
    (b.narrowBelow = true ↔ b.mantissa = 2 ^ 52 ∧ -1074 < b.exponent)

/-! ## Candidates on a decimal grid -/

theorem readsBack_of_candidate {tie : Tie} {b : Binary} {k : ℤ} {n : ℕ} {d : Decimal}
    (h : b.candidate tie k n = some d) : b.readsBack d.digits d.exponent = true := by
  unfold candidate at h
  cases h1 : b.readsBack (floorScaled b.mantissa b.exponent (k - n + 1)) (k - n + 1) <;>
    cases h2 : b.readsBack (floorScaled b.mantissa b.exponent (k - n + 1) + 1) (k - n + 1) <;>
    simp only [h1, h2, reduceCtorEq] at h
  · cases h
    exact h2
  · cases h
    exact h1
  · split at h
    · cases h
      exact h1
    · split at h <;> cases h
      · exact h1
      · exact h2
    · cases h
      exact h2

theorem candidate_ne_none_of_readsBack {tie : Tie} {b : Binary} {k : ℤ} {n : ℕ}
    (h : b.readsBack (floorScaled b.mantissa b.exponent (k - n + 1)) (k - n + 1) = true ∨
      b.readsBack (floorScaled b.mantissa b.exponent (k - n + 1) + 1) (k - n + 1) = true) :
    b.candidate tie k n ≠ none := by
  unfold candidate
  dsimp only
  -- every branch but the one where neither neighbour reads back gives a candidate
  rcases h with h | h <;> rw [h] <;> repeat' split
  all_goals simp_all

/-- On a grid finer than twice the narrower half of the interval, one of the two neighbours of
    the value lies in the interval, so the candidate of that grid exists. -/
theorem candidate_ne_none {tie : Tie} {b : Binary} (hm : 0 < b.mantissa) {k : ℤ} {n : ℕ}
    (hfine : (10 : ℚ) ^ (k - n + 1) < 2 * b.halfBelow) : b.candidate tie k n ≠ none := by
  apply candidate_ne_none_of_readsBack
  obtain ⟨hd1, hd2⟩ := floorScaled_spec b.mantissa b.exponent (k - n + 1)
  have hhalf := halfBelow_le b
  rw [readsBack_iff, readsBack_iff]
  generalize floorScaled b.mantissa b.exponent (k - n + 1) = d at hd1 hd2 ⊢
  generalize (10 : ℚ) ^ (k - n + 1) = s at hfine hd1 hd2 ⊢
  -- the nearer neighbour lies within half a grid step of the value
  by_cases hnear : (b.mantissa : ℚ) * 2 ^ b.exponent - d * s ≤ s / 2
  · left
    refine inInterval_of_near hm ?_ ?_ <;> unfold value <;> linarith
  · right
    push_cast
    refine inInterval_of_near hm ?_ ?_ <;> unfold value <;> linarith

/-- Seventeen significant digits are always enough: their grid is finer than twice the
    narrower half of the interval of every double. -/
theorem candidate_seventeen_ne_none (tie : Tie) {b : Binary} (hb : b.IsDouble) :
    b.candidate tie b.decimalExponent 17 ≠ none := by
  obtain ⟨hm, hm53, -, -, -, hnarrow⟩ := hb
  apply candidate_ne_none hm
  obtain ⟨hk, -⟩ := decimalExponent_spec hm
  -- the grid of seventeen digits has the spacing `10 ^ (k - 16)`, at most `value / 10 ^ 16`
  have hgrid : (10 : ℚ) ^ (b.decimalExponent - (17 : ℕ) + 1) = 10 ^ b.decimalExponent / 10 ^ 16 := by
    rw [show b.decimalExponent - ((17 : ℕ) : ℤ) + 1 = b.decimalExponent - 16 by push_cast; ring,
      zpow_sub₀ (by norm_num)]
    norm_num
  have hstep : (10 : ℚ) ^ b.decimalExponent / 10 ^ 16 ≤ b.value / 10 ^ 16 :=
    div_le_div_of_nonneg_right hk (by positivity)
  rw [hgrid]
  refine lt_of_le_of_lt hstep ?_
  have hX : (0 : ℚ) < 2 ^ (b.exponent - 2) := by positivity
  unfold halfBelow value
  rw [two_zpow_eq_four_mul b.exponent, div_lt_iff₀ (by positivity)]
  split
  · -- at the least mantissa of a binade the interval is narrower below: `2 ^ 53 < 10 ^ 16`
    rw [(hnarrow.1 ‹_›).1]
    push_cast
    nlinarith
  · rw [two_zpow_sub_one]
    have hm16 : (b.mantissa : ℚ) < 10 ^ 16 := by
      have : b.mantissa < 10 ^ 16 := by omega
      exact_mod_cast this
    nlinarith

/-- The shortest decimal of a double reads back: the search over one to seventeen digits
    finds a candidate, and every candidate reads back. -/
theorem readsBack_shortest (tie : Tie) {b : Binary} (hb : b.IsDouble) :
    b.readsBack (b.shortest tie).digits (b.shortest tie).exponent = true := by
  have hsome : ((List.range 17).findSome? fun i => b.candidate tie b.decimalExponent (i + 1)) ≠
      none := by
    rw [ne_eq, List.findSome?_eq_none_iff]
    intro hall
    exact candidate_seventeen_ne_none tie hb (hall 16 (by simp))
  obtain ⟨d, hd⟩ := Option.ne_none_iff_exists'.1 hsome
  obtain ⟨i, -, hi⟩ := List.exists_of_findSome?_eq_some hd
  unfold shortest
  simp only [hd, Option.getD_some]
  exact readsBack_of_candidate hi

end Binary

namespace Decimal

/-- The value `digits · 10 ^ exponent`. -/
def value (d : Decimal) : ℚ :=
  d.digits * 10 ^ d.exponent

/-- Moving trailing zeros into the exponent keeps the value. -/
theorem value_trim (d : Decimal) : d.trim.value = d.value := by
  fun_induction trim d with
  | case1 d h ih =>
    rw [ih]
    obtain ⟨q, hq⟩ : 10 ∣ d.digits := Nat.dvd_of_mod_eq_zero h.2
    unfold value
    simp only [hq, Nat.mul_div_cancel_left q (by norm_num : 0 < 10)]
    rw [zpow_add_one₀ (by norm_num)]
    push_cast
    ring
  | case2 d _ => rfl

end Decimal

namespace Binary

/-- The shortest decimal of a double, trailing zeros trimmed, lies in its rounding interval. -/
theorem inInterval_shortest (tie : Tie) {b : Binary} (hb : b.IsDouble) :
    b.InInterval (b.shortest tie).trim.value := by
  rw [Decimal.value_trim, Decimal.value, ← readsBack_iff]
  exact readsBack_shortest tie hb

end Binary

namespace Binary64

theorem biased_le (w : UInt64) : ((w >>> 52) &&& 0x7FF).toNat ≤ 2047 := by
  rw [UInt64.toNat_and]
  exact Nat.and_le_right

theorem fraction_lt (w : UInt64) : (w &&& 0xFFFFFFFFFFFFF).toNat < 2 ^ 52 := by
  rw [UInt64.toNat_and]
  exact Nat.lt_of_le_of_lt Nat.and_le_right (by decide)

/-- Every finite nonzero bit pattern decodes to the magnitude of a double. -/
theorem isDouble_of_ofBits {w : UInt64} {negative : Bool} {b : Binary}
    (h : ofBits w = .finite negative b) : b.IsDouble := by
  have hE := biased_le w
  have hF := fraction_lt w
  unfold ofBits at h
  generalize ((w >>> 52) &&& 0x7FF).toNat = E at h hE
  generalize (w &&& 0xFFFFFFFFFFFFF).toNat = F at h hF
  simp only [Nat.pow_eq] at h
  split_ifs at h with h1 h2 h3 h4 <;> cases h <;> simp only [Binary.IsDouble]
  · -- a subnormal: the fraction alone at the least exponent
    refine ⟨by omega, by omega, le_refl _, by norm_num, fun _ => trivial, ?_⟩
    simp only [Bool.false_eq_true, false_iff, not_and]
    omega
  · -- a normal double: the hidden bit and the biased exponent
    refine ⟨by omega, by omega, by omega, by omega, fun _ => by omega, ?_⟩
    simp only [Bool.and_eq_true, beq_iff_eq, decide_eq_true_eq]
    omega

end Binary64

end Alternation
