/-
Binary64 numbers of either sign.

A number's place among all numbers is the word of its magnitude with its sign (`ordinal`): both zeros are at place 0, the infinities
at the two ends. Numbers are compared by their places (`le_iff_ordinal`), and `value` is the exact number at a place. Sums,
differences, products and quotients of finite numbers stand at the place nearest to the exact result (`ordinal_add`, `ordinal_sub`,
`ordinal_mul`, `ordinal_div`), where both zeros and cancelling signs need no cases any more: what is known of nearest places, above
all that they grow with the number (`nearestSigned_mono`), is all a bound on a computed number needs.
-/
import Mathlib.Data.Int.ConditionallyCompleteOrder
import Sampling.Arith.Binary64
import Sampling.Proofs.Binary64
import Sampling.Unit

namespace Sampling.Binary64

open Float.Model Float.Model.UnpackedFloat

/-! ## Places -/

/-- the place of a number among all numbers: the word of its magnitude, with its sign -/
def ordinal (x : Float) : ℤ := if x.toBits.toNat < 2 ^ 63 then x.toBits.toNat else 2 ^ 63 - x.toBits.toNat

def signedNumber (k : ℤ) : ℚ := k.sign * number k.natAbs

/-- the exact value of a finite number -/
def value (x : Float) : ℚ := signedNumber (ordinal x)

/-- the place of the number nearest to `q`, ties to the even one -/
def nearestSigned (q : ℚ) : ℤ := if 0 ≤ q then nearest q else -nearest (-q)

theorem ordinal_of_word {x : Float} {s : Sign} {v : ℕ} (hx : x.toBits.toNat = signWord s + v) (hv : v < 2 ^ 63) :
    ordinal x = s.apply v := by
  unfold ordinal
  rw [hx]
  cases s with
  | negative =>
    rw [if_neg (by simp [signWord])]
    simp [signWord, Sign.apply]
  | positive =>
    rw [if_pos (by simpa [signWord] using hv)]
    simp [signWord, Sign.apply]

/-- above zero a place is the number's word -/
theorem toNat_of_ordinal {x : Float} {v : ℕ} (h0 : 0 < v) (h : ordinal x = v) : x.toBits.toNat = v := by
  unfold ordinal at h
  split_ifs at h <;> omega

theorem natAbs_apply (s : Sign) (v : ℕ) : (s.apply v).natAbs = v := by
  cases s <;> simp [Sign.apply]

theorem signedNumber_natCast (v : ℕ) : signedNumber v = number v := by
  unfold signedNumber
  rcases Nat.eq_zero_or_pos v with rfl | hv
  · simp [number_zero]
  · simp [Int.sign_eq_one_of_pos (by exact_mod_cast hv : (0 : ℤ) < v)]

theorem signedNumber_neg (k : ℤ) : signedNumber (-k) = -signedNumber k := by
  simp [signedNumber]

@[simp] theorem signedNumber_zero : signedNumber 0 = 0 := by
  simp [signedNumber]

theorem signedNumber_strictMono : StrictMono signedNumber := by
  intro j k hjk
  -- one of the two numbers lies on each side of zero, or both on one side
  rcases Int.le_total 0 j with hj | hj
  · obtain ⟨v, rfl⟩ := Int.eq_ofNat_of_zero_le hj
    obtain ⟨w, rfl⟩ := Int.eq_ofNat_of_zero_le (hj.trans hjk.le)
    rw [signedNumber_natCast, signedNumber_natCast]
    exact number_strictMono (by exact_mod_cast hjk)
  · obtain ⟨v, hv⟩ := Int.eq_ofNat_of_zero_le (neg_nonneg.2 hj)
    obtain rfl : j = -(v : ℤ) := by omega
    rw [signedNumber_neg, signedNumber_natCast]
    rcases Int.le_total 0 k with hk | hk
    · obtain ⟨w, rfl⟩ := Int.eq_ofNat_of_zero_le hk
      rw [signedNumber_natCast]
      have hv := number_nonneg v
      have hw := number_nonneg w
      rcases Nat.eq_zero_or_pos v with rfl | hv0
      · have hw0 : w ≠ 0 := by omega
        simpa [number_zero] using number_pos hw0
      · have := number_pos hv0.ne'
        linarith
    · obtain ⟨w, hw⟩ := Int.eq_ofNat_of_zero_le (neg_nonneg.2 hk)
      obtain rfl : k = -(w : ℤ) := by omega
      rw [signedNumber_neg, signedNumber_natCast, neg_lt_neg_iff]
      exact number_strictMono (by omega)

theorem nearestSigned_of_nonneg {q : ℚ} (h : 0 ≤ q) : nearestSigned q = nearest q := if_pos h

theorem nearestSigned_neg (q : ℚ) : nearestSigned (-q) = -nearestSigned q := by
  unfold nearestSigned
  rcases lt_trichotomy q 0 with h | rfl | h
  · rw [if_pos (by linarith), if_neg (by linarith), neg_neg]
  · simp [nearest_zero]
  · rw [if_neg (by linarith), if_pos (by linarith), neg_neg]

/-- **The nearest place grows with the number.** -/
theorem nearestSigned_mono : Monotone nearestSigned := by
  intro p q h
  unfold nearestSigned
  split_ifs with hp hq hq
  · exact_mod_cast nearest_mono h
  · exact absurd (hp.trans h) hq
  · omega
  · have := nearest_mono (neg_le_neg h)
    omega

theorem natAbs_nearestSigned (q : ℚ) : (nearestSigned q).natAbs = nearest |q| := by
  rcases le_total 0 q with h | h
  · rw [nearestSigned_of_nonneg h, abs_of_nonneg h, Int.natAbs_natCast]
  · rw [← neg_neg q, nearestSigned_neg, nearestSigned_of_nonneg (neg_nonneg.2 h), Int.natAbs_neg, Int.natAbs_natCast, abs_neg,
      abs_of_nonneg (neg_nonneg.2 h)]

theorem natAbs_nearestSigned_le (q : ℚ) : (nearestSigned q).natAbs ≤ infinite := by
  rw [natAbs_nearestSigned]
  exact nearest_le_infinite _

theorem nearestSigned_signedNumber {k : ℤ} (h : k.natAbs ≤ infinite) : nearestSigned (signedNumber k) = k := by
  rcases Int.le_total 0 k with hk | hk
  · obtain ⟨v, rfl⟩ := Int.eq_ofNat_of_zero_le hk
    have hpos : 0 ≤ signedNumber (v : ℤ) := by
      rw [← signedNumber_zero]
      exact signedNumber_strictMono.monotone hk
    rw [nearestSigned_of_nonneg hpos, signedNumber_natCast, nearest_number (by simpa using h)]
  · obtain ⟨v, hv⟩ := Int.eq_ofNat_of_zero_le (neg_nonneg.2 hk)
    obtain rfl : k = -(v : ℤ) := by omega
    have hpos : 0 ≤ signedNumber (v : ℤ) := by
      rw [← signedNumber_zero]
      exact signedNumber_strictMono.monotone (by omega)
    rw [signedNumber_neg, nearestSigned_neg, nearestSigned_of_nonneg hpos, signedNumber_natCast,
      nearest_number (by simpa using h)]

/-! ## Kinds of numbers -/

theorem unpack_signWord {x : Float} {s : Sign} {v : ℕ} (hx : x.toBits.toNat = signWord s + v) (hv : v < 2 ^ 63) :
    (v = 0 ∧ x.toModel.unpack = .zero s) ∨
      (∃ h0 : v ≠ 0, v < infinite ∧ x.toModel.unpack = .finite s (mantissa v) (exponent v) (mantissa_pos h0)) ∨
      (v = infinite ∧ x.toModel.unpack = .infinity s) ∨ infinite < v ∧ x.toModel.unpack = .notANumber := by
  rcases Nat.lt_or_ge infinite v with hnan | hle
  · exact Or.inr (Or.inr (Or.inr ⟨hnan, unpack_nan hx hnan hv⟩))
  · rcases unpack_cases hx hle with hzero | hfinite | hinfinite
    · exact Or.inl hzero
    · exact Or.inr (Or.inl hfinite)
    · exact Or.inr (Or.inr (Or.inl hinfinite))

theorem isFinite_iff (x : Float) : x.isFinite = true ↔ (ordinal x).natAbs < infinite := by
  obtain ⟨s, v, hx, hv⟩ := exists_signWord x
  rw [ordinal_of_word hx hv, natAbs_apply]
  have hstatus : x.isFinite = x.toModel.unpack.isFinite := rfl
  rw [hstatus]
  rcases unpack_signWord hx hv with ⟨rfl, hu⟩ | ⟨_, hlt, hu⟩ | ⟨rfl, hu⟩ | ⟨hlt, hu⟩ <;> rw [hu]
  · exact iff_of_true rfl (by decide)
  · exact iff_of_true rfl hlt
  · exact iff_of_false Bool.false_ne_true (lt_irrefl _)
  · exact iff_of_false Bool.false_ne_true hlt.le.not_gt

theorem isNaN_iff (x : Float) : x.isNaN = true ↔ infinite < (ordinal x).natAbs := by
  obtain ⟨s, v, hx, hv⟩ := exists_signWord x
  rw [ordinal_of_word hx hv, natAbs_apply]
  have hstatus : x.isNaN = x.toModel.unpack.isNaN := rfl
  rw [hstatus]
  rcases unpack_signWord hx hv with ⟨rfl, hu⟩ | ⟨_, hlt, hu⟩ | ⟨rfl, hu⟩ | ⟨hlt, hu⟩ <;> rw [hu]
  · exact iff_of_false Bool.false_ne_true (by decide)
  · exact iff_of_false Bool.false_ne_true hlt.not_gt
  · exact iff_of_false Bool.false_ne_true (lt_irrefl _)
  · exact iff_of_true rfl hlt

theorem isNaN_of_isFinite {x : Float} (h : x.isFinite = true) : x.isNaN = false := by
  rw [isFinite_iff] at h
  rw [← Bool.not_eq_true, isNaN_iff]
  omega

theorem isNaN_of_ordinal_nearest {x : Float} {q : ℚ} (h : ordinal x = nearestSigned q) : x.isNaN = false := by
  have hle := natAbs_nearestSigned_le q
  rw [← Bool.not_eq_true, isNaN_iff, h]
  omega

theorem finite_cases {x : Float} (h : x.isFinite = true) :
    (ordinal x = 0 ∧ ∃ s, x.toModel.unpack = .zero s) ∨
      ∃ s v, ∃ h0 : v ≠ 0, v < infinite ∧ ordinal x = s.apply v ∧
        x.toModel.unpack = .finite s (mantissa v) (exponent v) (mantissa_pos h0) := by
  obtain ⟨s, v, hx, hv⟩ := exists_signWord x
  have hordinal := ordinal_of_word hx hv
  rw [isFinite_iff, hordinal, natAbs_apply] at h
  rcases unpack_signWord hx hv with ⟨rfl, hu⟩ | ⟨h0, hlt, hu⟩ | ⟨rfl, -⟩ | ⟨hlt, -⟩
  · exact Or.inl ⟨by rw [hordinal]; cases s <;> rfl, s, hu⟩
  · exact Or.inr ⟨s, v, h0, hlt, hordinal, hu⟩
  · exact absurd h (lt_irrefl _)
  · exact absurd h hlt.not_gt

theorem value_apply {x : Float} {s : Sign} {v : ℕ} (h : ordinal x = s.apply v) : value x = s.apply 1 * number v := by
  rw [value, h]
  cases s with
  | negative => simp [Sign.apply, signedNumber_neg, signedNumber_natCast]
  | positive => simp [Sign.apply, signedNumber_natCast]

/-! ## Arithmetic -/

theorem ordinal_of_zero {x : Float} {s : Sign} (hx : x.toBits.toNat = (packedZero Format.binary64 s).toNat) : ordinal x = 0 := by
  rw [toNat_packedZero] at hx
  rw [ordinal_of_word (v := 0) hx (by decide)]
  cases s <;> rfl

theorem ordinal_of_nearest {x : Float} {s : Sign} {q : ℚ} (hq : 0 ≤ q) (hx : x.toBits.toNat = signWord s + nearest q) :
    ordinal x = nearestSigned (s.apply 1 * q) := by
  rw [ordinal_of_word hx ((nearest_le_infinite q).trans_lt (by decide))]
  cases s with
  | negative => simp [Sign.apply, nearestSigned_neg, nearestSigned_of_nonneg hq]
  | positive => simp [Sign.apply, nearestSigned_of_nonneg hq]

theorem ordinal_of_finite {x : Float} {s : Sign} {v : ℕ} (h0 : v ≠ 0) (hv : v < infinite)
    (hx : x.toBits.toNat =
      (UnpackedFloat.pack Format.binary64 (.finite s (mantissa v) (exponent v) (mantissa_pos h0))).toNat) :
    ordinal x = s.apply v := by
  rw [toNat_pack_finite s (mantissa_pos h0) (canonical_word v), word_mantissa_exponent, min_eq_left hv.le] at hx
  exact ordinal_of_word hx (hv.trans (by decide))

/-- an integer in units of `2 ^ e` stands at the place nearest to its value -/
theorem ordinal_of_normalize {x : Float} {m e : ℤ} (hx : x.toBits.toNat =
    (UnpackedFloat.pack Format.binary64 (UnpackedFloat.normalize Format.binary64 m e .positive)).toNat) :
    ordinal x = nearestSigned (m * 2 ^ e) := by
  rcases lt_trichotomy m 0 with hm | rfl | hm
  · have hcast : (((-m).toNat : ℕ) : ℚ) = -m := by exact_mod_cast Int.toNat_of_nonneg (neg_nonneg.2 hm.le)
    have hpos : (0 : ℚ) ≤ -m * 2 ^ e := mul_nonneg (by exact_mod_cast neg_nonneg.2 hm.le) (by positivity)
    rw [UnpackedFloat.normalize, Int.compare_eq_lt.2 hm] at hx
    dsimp only at hx
    rw [toNat_pack_round .negative (by omega) e, hcast] at hx
    rw [ordinal_of_nearest hpos hx]
    simp [Sign.apply]
  · rw [ordinal_of_zero (s := .positive) hx]
    simp [nearestSigned, nearest_zero]
  · have hpos : (0 : ℚ) < m * 2 ^ e := mul_pos (by exact_mod_cast hm) (by positivity)
    rw [toNat_pack_normalize hpos rfl, ← Nat.zero_add (nearest _)] at hx
    rw [ordinal_of_nearest (s := .positive) hpos.le hx]
    simp [Sign.apply]

theorem value_of_ordinal_zero {x : Float} (h : ordinal x = 0) : value x = 0 := by
  rw [value, h, signedNumber_zero]

theorem value_nonneg_iff {x : Float} : 0 ≤ value x ↔ 0 ≤ ordinal x := by
  rw [value, ← signedNumber_zero, signedNumber_strictMono.le_iff_le]

theorem nearestSigned_value {x : Float} (h : x.isFinite = true) : nearestSigned (value x) = ordinal x :=
  nearestSigned_signedNumber ((isFinite_iff x).1 h).le

theorem apply_neg (s : Sign) (n : ℤ) : (-s).apply n = -s.apply n := by
  cases s with
  | negative => exact (neg_neg n).symm
  | positive => rfl

/-- in units of a smaller exponent a magnitude is whole -/
theorem apply_decreaseExponent (s : Sign) (v : ℕ) {t : ℤ} (h : t ≤ exponent v) :
    ((s.apply ((decreaseExponent (mantissa v) (exponent v) t).1 : ℤ) : ℤ) : ℚ) * 2 ^ t = s.apply 1 * number v := by
  have hvalue := decreaseExponent_value v h
  cases s with
  | negative => simp [Sign.apply, hvalue]
  | positive => simp [Sign.apply, hvalue]

section
variable {x y : Float}

/-- **Sums** stand at the place nearest to the exact sum. -/
theorem ordinal_add (hx : x.isFinite = true) (hy : y.isFinite = true) : ordinal (x + y) = nearestSigned (value x + value y) := by
  have hpacked : (x + y).toBits.toNat =
      (UnpackedFloat.pack Format.binary64 (UnpackedFloat.add Format.binary64 x.toModel.unpack y.toModel.unpack)).toNat := rfl
  rcases finite_cases hx with ⟨hx0, s, hux⟩ | ⟨s, v, hv0, hv, hvx, hux⟩ <;>
    rcases finite_cases hy with ⟨hy0, t, huy⟩ | ⟨t, w, hw0, hw, hwy, huy⟩ <;>
    rw [hux, huy] at hpacked
  · rw [value_of_ordinal_zero hx0, zero_add, nearestSigned_value hy, hy0]
    cases s <;> cases t <;> exact ordinal_of_zero hpacked
  · rw [value_of_ordinal_zero hx0, zero_add, nearestSigned_value hy, hwy]
    exact ordinal_of_finite hw0 hw hpacked
  · rw [value_of_ordinal_zero hy0, add_zero, nearestSigned_value hx, hvx]
    exact ordinal_of_finite hv0 hv hpacked
  · have hnormal := ordinal_of_normalize
      (m := s.apply (decreaseExponent (mantissa v) (exponent v) (min (exponent v) (exponent w))).1 +
        t.apply (decreaseExponent (mantissa w) (exponent w) (min (exponent v) (exponent w))).1) hpacked
    rw [Int.cast_add, add_mul, apply_decreaseExponent s v (min_le_left _ _), apply_decreaseExponent t w (min_le_right _ _)]
      at hnormal
    rw [hnormal, value_apply hvx, value_apply hwy]

/-- **Differences** stand at the place nearest to the exact difference. -/
theorem ordinal_sub (hx : x.isFinite = true) (hy : y.isFinite = true) : ordinal (x - y) = nearestSigned (value x - value y) := by
  have hpacked : (x - y).toBits.toNat =
      (UnpackedFloat.pack Format.binary64 (UnpackedFloat.sub Format.binary64 x.toModel.unpack y.toModel.unpack)).toNat := rfl
  rcases finite_cases hx with ⟨hx0, s, hux⟩ | ⟨s, v, hv0, hv, hvx, hux⟩ <;>
    rcases finite_cases hy with ⟨hy0, t, huy⟩ | ⟨t, w, hw0, hw, hwy, huy⟩ <;>
    rw [hux, huy] at hpacked
  · rw [value_of_ordinal_zero hy0, sub_zero, nearestSigned_value hx, hx0]
    cases s <;> cases t <;> exact ordinal_of_zero hpacked
  · rw [value_of_ordinal_zero hx0, zero_sub, nearestSigned_neg, nearestSigned_value hy, hwy, ← apply_neg]
    exact ordinal_of_finite hw0 hw hpacked
  · rw [value_of_ordinal_zero hy0, sub_zero, nearestSigned_value hx, hvx]
    exact ordinal_of_finite hv0 hv hpacked
  · have hnormal := ordinal_of_normalize
      (m := s.apply (decreaseExponent (mantissa v) (exponent v) (min (exponent v) (exponent w))).1 -
        t.apply (decreaseExponent (mantissa w) (exponent w) (min (exponent v) (exponent w))).1) hpacked
    rw [Int.cast_sub, sub_mul, apply_decreaseExponent s v (min_le_left _ _), apply_decreaseExponent t w (min_le_right _ _)]
      at hnormal
    rw [hnormal, value_apply hvx, value_apply hwy]

theorem apply_mul (s t : Sign) : ((s * t).apply 1 : ℤ) = s.apply 1 * t.apply 1 := by
  cases s <;> cases t <;> rfl

theorem apply_div (s t : Sign) : ((s / t).apply 1 : ℤ) = s.apply 1 * t.apply 1 := by
  cases s <;> cases t <;> rfl

/-- **Products** stand at the place nearest to the exact product. -/
theorem ordinal_mul (hx : x.isFinite = true) (hy : y.isFinite = true) : ordinal (x * y) = nearestSigned (value x * value y) := by
  have hpacked : (x * y).toBits.toNat =
      (UnpackedFloat.pack Format.binary64 (UnpackedFloat.mul Format.binary64 x.toModel.unpack y.toModel.unpack)).toNat := rfl
  have hnothing : nearestSigned 0 = 0 := by simp [nearestSigned, nearest_zero]
  rcases finite_cases hx with ⟨hx0, s, hux⟩ | ⟨s, v, hv0, hv, hvx, hux⟩ <;>
    rcases finite_cases hy with ⟨hy0, t, huy⟩ | ⟨t, w, hw0, hw, hwy, huy⟩ <;>
    rw [hux, huy] at hpacked
  · rw [value_of_ordinal_zero hx0, zero_mul, hnothing]
    exact ordinal_of_zero hpacked
  · rw [value_of_ordinal_zero hx0, zero_mul, hnothing]
    exact ordinal_of_zero hpacked
  · rw [value_of_ordinal_zero hy0, mul_zero, hnothing]
    exact ordinal_of_zero hpacked
  · have hpos : 0 ≤ number v * number w := mul_nonneg (number_pos hv0).le (number_pos hw0).le
    rw [ordinal_of_nearest hpos (hpacked.trans (toNat_pack_mul (s * t) hv0 hw0)), value_apply hvx, value_apply hwy, apply_mul]
    push_cast
    congr 1
    ring

/-- **Quotients** stand at the place nearest to the exact quotient. -/
theorem ordinal_div (hx : x.isFinite = true) (hy : y.isFinite = true) (h0 : value y ≠ 0) :
    ordinal (x / y) = nearestSigned (value x / value y) := by
  have hpacked : (x / y).toBits.toNat =
      (UnpackedFloat.pack Format.binary64 (UnpackedFloat.div Format.binary64 x.toModel.unpack y.toModel.unpack)).toNat := rfl
  rcases finite_cases hy with ⟨hy0, -⟩ | ⟨t, w, hw0, hw, hwy, huy⟩
  · exact absurd (value_of_ordinal_zero hy0) h0
  · rcases finite_cases hx with ⟨hx0, s, hux⟩ | ⟨s, v, hv0, hv, hvx, hux⟩ <;>
      rw [hux, huy] at hpacked
    · rw [value_of_ordinal_zero hx0, zero_div]
      simpa [nearestSigned, nearest_zero] using ordinal_of_zero hpacked
    · have hpos : 0 ≤ number v / number w := div_nonneg (number_pos hv0).le (number_pos hw0).le
      rw [ordinal_of_nearest hpos (hpacked.trans (toNat_pack_div (s / t) hv0 hw0 rfl)), value_apply hvx, value_apply hwy,
        apply_div]
      push_cast
      congr 1
      cases t with
      | negative =>
        simp [Sign.apply]
        ring
      | positive =>
        simp [Sign.apply]
        ring

/-! ## Order -/

theorem number_cases (h : x.isNaN = false) :
    ∃ s v, ordinal x = s.apply v ∧ v ≤ infinite ∧ ((v = 0 ∧ x.toModel.unpack = .zero s) ∨
      (∃ h0 : v ≠ 0, v < infinite ∧ x.toModel.unpack = .finite s (mantissa v) (exponent v) (mantissa_pos h0)) ∨
      (v = infinite ∧ x.toModel.unpack = .infinity s)) := by
  obtain ⟨s, v, hx, hv⟩ := exists_signWord x
  have hordinal := ordinal_of_word hx hv
  have hle : v ≤ infinite := by
    by_contra hlt
    have hnan := (isNaN_iff x).2 (by rw [hordinal, natAbs_apply]; exact not_le.1 hlt)
    rw [h] at hnan
    cases hnan
  exact ⟨s, v, hordinal, hle, unpack_cases hx hle⟩

theorem compare_apply (s : Sign) (v w : ℕ) :
    compare (s.apply v) (s.apply w) = match s with
      | .negative => (compare v w).swap
      | .positive => compare v w := by
  rcases Nat.lt_trichotomy v w with h | rfl | h
  · rw [Nat.compare_eq_lt.2 h]
    cases s with
    | negative => exact Int.compare_eq_gt.2 (neg_lt_neg (Int.ofNat_lt.2 h))
    | positive => exact Int.compare_eq_lt.2 (Int.ofNat_lt.2 h)
  · rw [Nat.compare_eq_eq.2 rfl, Int.compare_eq_eq.2 rfl]
    cases s <;> rfl
  · rw [Nat.compare_eq_gt.2 h]
    cases s with
    | negative => exact Int.compare_eq_lt.2 (neg_lt_neg (Int.ofNat_lt.2 h))
    | positive => exact Int.compare_eq_gt.2 (Int.ofNat_lt.2 h)

theorem compare_finite (s : Sign) {v w : ℕ} (hv0 : v ≠ 0) (hw0 : w ≠ 0) :
    UnpackedFloat.compare (.finite s (mantissa v) (exponent v) (mantissa_pos hv0))
      (.finite s (mantissa w) (exponent w) (mantissa_pos hw0)) = some (compare (s.apply v) (s.apply w)) := by
  rw [compare_apply, ← compare_lex]
  cases s <;> rfl

/-- **Numbers are compared by their places.** -/
theorem compare_ordinal (hx : x.isNaN = false) (hy : y.isNaN = false) :
    x.toModel.unpack.compare y.toModel.unpack = some (compare (ordinal x) (ordinal y)) := by
  have hpos : 0 < infinite := by decide
  obtain ⟨s, v, hvx, hv, hxu⟩ := number_cases hx
  obtain ⟨t, w, hwy, hw, hyu⟩ := number_cases hy
  rw [hvx, hwy]
  rcases hxu with ⟨rfl, hux⟩ | ⟨hv0, hv, hux⟩ | ⟨rfl, hux⟩ <;>
    rcases hyu with ⟨rfl, huy⟩ | ⟨hw0, hw, huy⟩ | ⟨rfl, huy⟩ <;>
    rw [hux, huy] <;> cases s <;> cases t
  -- two magnitudes of one sign, or kinds and signs that settle the order
  all_goals first
    | exact compare_finite _ hv0 hw0
    | exact congrArg some (Int.compare_eq_eq.2 rfl).symm
    | exact congrArg some (Int.compare_eq_lt.2 (by dsimp only [Sign.apply]; omega)).symm
    | exact congrArg some (Int.compare_eq_gt.2 (by dsimp only [Sign.apply]; omega)).symm

theorem le_iff_ordinal (hx : x.isNaN = false) (hy : y.isNaN = false) : x ≤ y ↔ ordinal x ≤ ordinal y := by
  rw [le_iff_compare, compare_ordinal hx hy, Option.any_some, Int.isLE_compare]

theorem lt_iff_ordinal (hx : x.isNaN = false) (hy : y.isNaN = false) : x < y ↔ ordinal x < ordinal y := by
  rw [lt_iff_compare, compare_ordinal hx hy, beq_iff_eq, Option.some.injEq, Int.compare_eq_lt]

theorem isNaN_of_le (h : x ≤ y) : x.isNaN = false ∧ y.isNaN = false := by
  rw [le_iff_compare] at h
  have hstatus : ∀ z : Float, z.isNaN = z.toModel.unpack.isNaN := fun _ => rfl
  rw [hstatus, hstatus]
  cases hux : x.toModel.unpack with
  | notANumber =>
    rw [hux] at h
    cases h
  | _ =>
    cases huy : y.toModel.unpack with
    | notANumber =>
      rw [hux, huy] at h
      cases h
    | _ => exact ⟨rfl, rfl⟩

/-- **Finite numbers are compared by their values.** -/
theorem le_iff_value (hx : x.isFinite = true) (hy : y.isFinite = true) : x ≤ y ↔ value x ≤ value y := by
  rw [le_iff_ordinal (isNaN_of_isFinite hx) (isNaN_of_isFinite hy), value, value, signedNumber_strictMono.le_iff_le]

theorem lt_iff_value (hx : x.isFinite = true) (hy : y.isFinite = true) : x < y ↔ value x < value y := by
  rw [lt_iff_ordinal (isNaN_of_isFinite hx) (isNaN_of_isFinite hy), value, value, signedNumber_strictMono.lt_iff_lt]

theorem ordinal_zero : ordinal 0.0 = 0 := by decide

theorem zero_le_iff : 0.0 ≤ x ↔ x.isNaN = false ∧ 0 ≤ ordinal x := by
  have hzero : (0.0 : Float).isNaN = false := by decide
  constructor
  · intro h
    have hx := (isNaN_of_le h).2
    rw [le_iff_ordinal hzero hx, ordinal_zero] at h
    exact ⟨hx, h⟩
  · rintro ⟨hx, h⟩
    rwa [le_iff_ordinal hzero hx, ordinal_zero]

theorem zero_le_of_not_lt (hx : x.isFinite = true) (h : ¬ x < 0.0) : 0.0 ≤ x := by
  have hnumber := isNaN_of_isFinite hx
  rw [lt_iff_ordinal hnumber (by decide), ordinal_zero, not_lt] at h
  exact zero_le_iff.2 ⟨hnumber, h⟩

end

/-! ## Sizes -/

theorem toNat_abs {x : Float} (h : x.isNaN = false) : x.abs.toBits.toNat = (ordinal x).natAbs := by
  have hpacked : x.abs.toBits.toNat = (UnpackedFloat.pack Format.binary64 x.toModel.unpack.abs).toNat := rfl
  obtain ⟨s, v, hordinal, -, hu⟩ := number_cases h
  rw [hordinal, natAbs_apply]
  rcases hu with ⟨rfl, hu⟩ | ⟨h0, hlt, hu⟩ | ⟨rfl, hu⟩ <;> rw [hu] at hpacked
  · exact hpacked
  · exact hpacked.trans (toNat_pack_word h0 hlt)
  · exact hpacked

theorem abs_value (x : Float) : |value x| = number (ordinal x).natAbs := by
  rw [value, signedNumber, abs_mul, abs_of_nonneg (number_nonneg _)]
  rcases eq_or_ne (ordinal x) 0 with h | h
  · simp [h, number_zero]
  · rw [← Int.cast_abs, Int.abs_sign_of_ne_zero h, Int.cast_one, one_mul]

/-! ## Unit numbers -/

theorem ordinal_of_magnitude {x : Float} {v : ℕ} (hx : x.toBits.toNat = v) (hv : v ≤ infinite) : ordinal x = v :=
  ordinal_of_word (s := .positive) (hx.trans (Nat.zero_add v).symm) (hv.trans_lt (by decide))

theorem ordinal_one : ordinal 1.0 = (0x3ff0000000000000 : ℕ) := ordinal_of_magnitude rfl (by decide)

theorem value_one : value 1.0 = 1 := by
  rw [value, ordinal_one, signedNumber_natCast, number_one]

/-- a number at the place nearest to a magnitude is that magnitude -/
theorem value_of_magnitude {x : Float} {w : ℕ} (hw : w < infinite) (hx : ordinal x = nearestSigned (number w)) :
    x.isFinite = true ∧ value x = number w := by
  rw [nearestSigned_of_nonneg (number_nonneg w), nearest_number hw.le] at hx
  rw [isFinite_iff, value, hx, signedNumber_natCast]
  exact ⟨by simpa using hw, rfl⟩

theorem value_ofNat {n : ℕ} (h : n < 2 ^ 53) : (Float.ofNat n).isFinite = true ∧ value (Float.ofNat n) = n := by
  obtain ⟨hnumber, hlt⟩ := number_nearest_natCast h
  have hordinal := ordinal_of_magnitude (toNat_ofNat n) hlt.le
  rw [isFinite_iff, value, hordinal, signedNumber_natCast, hnumber]
  exact ⟨by simpa using hlt, rfl⟩

theorem number_scale : number 0x4340000000000000 = 2 ^ 53 := by
  rw [number, mantissa, exponent, if_neg (by norm_num), if_neg (by norm_num)]
  norm_num

theorem value_scale : (Float.ofNat (2 ^ 53)).isFinite = true ∧ value (Float.ofNat (2 ^ 53)) = 2 ^ 53 := by
  have hword : (Float.ofNat (2 ^ 53)).toBits.toNat = 0x4340000000000000 := rfl
  rw [isFinite_iff, value, ordinal_of_magnitude hword (by decide), signedNumber_natCast, number_scale]
  exact ⟨by decide, rfl⟩

theorem toNat_shiftRight (w : UInt64) : (w >>> 11).toNat = w.toNat / 2 ^ 11 := by
  rw [UInt64.toNat_shiftRight, Nat.shiftRight_eq_div_pow]
  rfl

/-- the upper bits of a word are few enough to be a mantissa -/
theorem toNat_shiftRight_lt (w : UInt64) : (w >>> 11).toNat < 2 ^ 53 := by
  have hw := w.toNat_lt
  rw [toNat_shiftRight]
  omega

theorem toNat_shiftRight_mono {v w : UInt64} (h : v ≤ w) : (v >>> 11).toNat ≤ (w >>> 11).toNat := by
  rw [toNat_shiftRight, toNat_shiftRight]
  exact Nat.div_le_div_right (UInt64.le_iff_toNat_le.1 h)

/-- **Unit numbers are exact**: the upper 53 bits of a word over `2 ^ 53`. -/
theorem value_unitOf (w : UInt64) : (unitOf w : Float).isFinite = true ∧ value (unitOf w) = (w >>> 11).toNat / 2 ^ 53 := by
  have hn := toNat_shiftRight_lt w
  have hunit : (unitOf w : Float) = Float.ofNat (w >>> 11).toNat / Float.ofNat (2 ^ 53) := rfl
  obtain ⟨hfinite, hvalue⟩ := value_ofNat hn
  obtain ⟨hscale, hvalue'⟩ := value_scale
  obtain ⟨v, hv, hnumber⟩ := exists_number hn (e := -53) (by norm_num) (by norm_num)
  have hquotient : ((w >>> 11).toNat : ℚ) / 2 ^ 53 = number v := by
    rw [hnumber, zpow_neg, div_eq_mul_inv]
    norm_cast
  have hordinal := ordinal_div hfinite hscale (by rw [hvalue']; norm_num)
  rw [hvalue, hvalue', ← hunit, hquotient] at hordinal
  rw [hquotient]
  exact value_of_magnitude hv hordinal

theorem value_unitOf_nonneg (w : UInt64) : 0 ≤ value (unitOf w) := by
  rw [(value_unitOf w).2]
  positivity

theorem value_unitOf_le (w : UInt64) : value (unitOf w) ≤ 1 - 1 / 2 ^ 53 := by
  have hn : ((w >>> 11).toNat : ℚ) + 1 ≤ 2 ^ 53 := by exact_mod_cast toNat_shiftRight_lt w
  rw [(value_unitOf w).2, div_le_iff₀ (by norm_num)]
  linarith

end Sampling.Binary64
