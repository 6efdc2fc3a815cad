/-
Binary64 square roots are nearest magnitudes.

A root is taken of an integer with enough bits: its whole part, and what the remainder tells of the rest (`rootAccuracy`). The root
itself is no rational number in general, so what is nearest to it is said by comparison: a number whose square is at most `x` rounds
to no more than the root of `x`, and one whose square is at least `x` to no less (`nearest_le_sqrt`, `sqrt_le_nearest`). For every such
number there is one on the same side of it that the remainder cannot tell from the root (`exists_liesAt_of_sq_le`,
`exists_liesAt_of_le_sq`). Roots of squares are exact (`value_sqrt_sq`), others off by at most a factor close to one (`sqrt_near`).
-/
import Sampling.Proofs.SignedNumbers

namespace Sampling.Binary64

open Float.Model Float.Model.UnpackedFloat

/-! ## Whole roots and their remainders -/

/-- what the remainder of a whole root tells of the root -/
def rootAccuracy (n : ℕ) : Accuracy :=
  if n - n.sqrt * n.sqrt = 0 then .exact else .inexact (if n - n.sqrt * n.sqrt ≤ n.sqrt then .lt else .gt)

theorem rootAccuracy_cases (n : ℕ) :
    (rootAccuracy n = .exact ∧ n = n.sqrt * n.sqrt) ∨
    (rootAccuracy n = .inexact .lt ∧ n.sqrt * n.sqrt < n ∧ n ≤ n.sqrt * n.sqrt + n.sqrt) ∨
    (rootAccuracy n = .inexact .gt ∧ n.sqrt * n.sqrt + n.sqrt < n ∧ n < (n.sqrt + 1) * (n.sqrt + 1)) := by
  have hle := n.sqrt_le
  have hlt := n.lt_succ_sqrt
  unfold rootAccuracy
  split_ifs with hzero hsmall
  · exact Or.inl ⟨rfl, by omega⟩
  · exact Or.inr (Or.inl ⟨rfl, by omega, by omega⟩)
  · exact Or.inr (Or.inr ⟨rfl, by omega, hlt⟩)

section
variable {n : ℕ} {y : ℚ}

/-- no less than a number whose square is at most `n`, there is one that the remainder cannot tell from the root -/
theorem exists_liesAt_of_sq_le (h : y ^ 2 ≤ n) : ∃ x, y ≤ x ∧ LiesAt n.sqrt (rootAccuracy n) x := by
  rcases rootAccuracy_cases n with ⟨hacc, hn⟩ | ⟨hacc, -, hn⟩ | ⟨hacc, -, hn⟩ <;> rw [hacc]
  · refine ⟨n.sqrt, ?_, rfl⟩
    have hsq : y ^ 2 ≤ (n.sqrt : ℚ) ^ 2 := h.trans_eq (by rw [sq]; exact_mod_cast hn)
    exact le_of_sq_le_sq hsq (Nat.cast_nonneg _)
  · refine ⟨max y (n.sqrt + 1 / 4), le_max_left _ _, lt_max_of_lt_right (by linarith), max_lt ?_ (by linarith)⟩
    have hn : (n : ℚ) ≤ n.sqrt * n.sqrt + n.sqrt := by exact_mod_cast hn
    exact lt_of_pow_lt_pow_left₀ 2 (by positivity) (by nlinarith)
  · refine ⟨max y (n.sqrt + 3 / 4), le_max_left _ _, lt_max_of_lt_right (by linarith), max_lt ?_ (by linarith)⟩
    have hn : (n : ℚ) < (n.sqrt + 1) * (n.sqrt + 1) := by exact_mod_cast hn
    exact lt_of_pow_lt_pow_left₀ 2 (by positivity) (by nlinarith)

/-- and no more than one whose square is at least `n` -/
theorem exists_liesAt_of_le_sq (hy : 0 ≤ y) (h : n ≤ y ^ 2) : ∃ x, x ≤ y ∧ LiesAt n.sqrt (rootAccuracy n) x := by
  rcases rootAccuracy_cases n with ⟨hacc, hn⟩ | ⟨hacc, hn, -⟩ | ⟨hacc, hn, -⟩ <;> rw [hacc]
  · refine ⟨n.sqrt, ?_, rfl⟩
    have hsq : (n.sqrt : ℚ) ^ 2 ≤ y ^ 2 := le_trans (by rw [sq]; exact_mod_cast hn.ge) h
    exact le_of_sq_le_sq hsq hy
  · refine ⟨min y (n.sqrt + 1 / 4), min_le_left _ _, lt_min ?_ (by linarith), min_lt_of_right_lt (by linarith)⟩
    have hn : (n.sqrt * n.sqrt : ℚ) < n := by exact_mod_cast hn
    exact lt_of_pow_lt_pow_left₀ 2 hy (by nlinarith)
  · refine ⟨min y (n.sqrt + 3 / 4), min_le_left _ _, lt_min ?_ (by linarith), min_lt_of_right_lt (by linarith)⟩
    have hn : (n.sqrt * n.sqrt + n.sqrt : ℚ) + 1 ≤ n := by exact_mod_cast hn
    exact lt_of_pow_lt_pow_left₀ 2 hy (by nlinarith)

end

/-! ## Roots of magnitudes -/

/-- enough bits are in a whole root whose radicand was shifted as far as this -/
theorem roomy_sqrt {m : ℕ} (hm : m ≠ 0) {k : ℕ} {e t : ℤ} (ht : t ≤ max ((m.log2 + 1 + e + 1) / 2 - 53) (-1074))
    (hk : e - 2 * t = k) : Roomy (m <<< k).sqrt t := by
  by_cases hmin : t ≤ -1074
  · exact Or.inr hmin
  · have hne : m <<< k ≠ 0 := by
      rw [Nat.shiftLeft_eq]
      positivity
    have hbits : 104 ≤ (m <<< k).log2 := by
      rw [log2_shiftLeft hm]
      omega
    have hroot : 2 ^ 52 ≤ (m <<< k).sqrt := Nat.le_sqrt.2 ((Nat.le_log2 hne).1 hbits)
    exact Or.inl ((Nat.le_log2 (by omega)).2 hroot)

section
variable {x : Float} {v : ℕ}

/-- the root of a magnitude is rounded from any number that the remainder cannot tell from it -/
theorem toNat_sqrt_of_liesAt (hx : x.toBits.toNat = v) (h0 : v ≠ 0) (hv : v < infinite) :
    ∃ (n : ℕ) (t : ℤ), n * (2 ^ t) ^ 2 = number v ∧
      ∀ z, LiesAt n.sqrt (rootAccuracy n) z → x.sqrt.toBits.toNat = nearest (z * 2 ^ t) := by
  have hm := mantissa_pos h0
  have hpacked : x.sqrt.toBits.toNat =
      (UnpackedFloat.pack Format.binary64 (UnpackedFloat.sqrt Format.binary64 x.toModel.unpack)).toNat := rfl
  rw [unpack_word hx h0 hv] at hpacked
  unfold UnpackedFloat.sqrt sqrtCore at hpacked
  dsimp only at hpacked
  rw [targetExponent_eq, totalExponent] at hpacked
  generalize ht : min ((exponent v).ediv 2) _ = t at hpacked
  have hle : t ≤ (exponent v).ediv 2 := ht ▸ min_le_left _ _
  have hle' : t ≤ max (((mantissa v).log2 + 1 + exponent v + 1) / 2 - 53) (-1074) := ht ▸ min_le_right _ _
  change t ≤ exponent v / 2 at hle
  obtain ⟨k, hk⟩ := Int.le.dest (show 2 * t ≤ exponent v by omega)
  have hnat : (exponent v - 2 * t).toNat = k := by omega
  rw [hnat] at hpacked
  have hroom := roomy_sqrt hm.ne' hle' (k := k) (by omega)
  refine ⟨mantissa v <<< k, t, ?_, fun z hz => ?_⟩
  · rw [number, ← hk, Nat.shiftLeft_eq, zpow_add₀ (by norm_num), zpow_natCast, two_mul, zpow_add₀ (by norm_num)]
    push_cast
    ring
  · have hpos : 0 < z := by
      have hroot : 0 < (mantissa v <<< k).sqrt := by
        rw [Nat.sqrt_pos, Nat.shiftLeft_eq]
        positivity
      have hfloor := Int.floor_eq_iff.1 hz.floor_eq
      rw [Int.cast_natCast] at hfloor
      exact lt_of_lt_of_le (by exact_mod_cast hroot) hfloor.1
    rw [hpacked]
    exact (toNat_pack_roundWithAccuracy .positive hz hpos hroom).trans (Nat.zero_add _)

/-- **A number whose square is at most a magnitude** rounds to no more than the magnitude's root. -/
theorem nearest_le_sqrt (hx : x.toBits.toNat = v) (h0 : v ≠ 0) (hv : v < infinite) {q : ℚ} (hq : q ^ 2 ≤ number v) :
    nearest q ≤ x.sqrt.toBits.toNat := by
  obtain ⟨n, t, hn, hsqrt⟩ := toNat_sqrt_of_liesAt hx h0 hv
  have hpos : (0 : ℚ) < 2 ^ t := by positivity
  have hy : (q / 2 ^ t) ^ 2 ≤ n := by
    rw [div_pow, div_le_iff₀ (by positivity), hn]
    exact hq
  obtain ⟨z, hle, hz⟩ := exists_liesAt_of_sq_le hy
  rw [hsqrt z hz]
  exact nearest_mono ((div_le_iff₀ hpos).1 hle)

/-- **A number whose square is at least a magnitude** rounds to no less than the magnitude's root. -/
theorem sqrt_le_nearest (hx : x.toBits.toNat = v) (h0 : v ≠ 0) (hv : v < infinite) {q : ℚ} (hq0 : 0 ≤ q)
    (hq : number v ≤ q ^ 2) : x.sqrt.toBits.toNat ≤ nearest q := by
  obtain ⟨n, t, hn, hsqrt⟩ := toNat_sqrt_of_liesAt hx h0 hv
  have hpos : (0 : ℚ) < 2 ^ t := by positivity
  have hy : n ≤ (q / 2 ^ t) ^ 2 := by
    rw [div_pow, le_div_iff₀ (by positivity), hn]
    exact hq
  obtain ⟨z, hle, hz⟩ := exists_liesAt_of_le_sq (by positivity) hy
  rw [hsqrt z hz]
  exact nearest_mono ((le_div_iff₀ hpos).1 hle)

end

/-! ## Roots of whole numbers -/

section
variable {n : ℕ}

theorem ordinal_sqrt_bounds (h0 : 0 < n) (h : n < 2 ^ 53) :
    0x3ff0000000000000 ≤ (Float.ofNat n).sqrt.toBits.toNat ∧ (Float.ofNat n).sqrt.toBits.toNat < infinite := by
  obtain ⟨hnumber, hlt⟩ := number_nearest_natCast h
  have hword := nearest_natCast_pos h0
  have hone : (1 : ℚ) ≤ n := by exact_mod_cast h0
  constructor
  · calc 0x3ff0000000000000 = nearest (number 0x3ff0000000000000) := (nearest_number (by decide)).symm
      _ = nearest 1 := by rw [number_one]
      _ ≤ _ := nearest_le_sqrt (toNat_ofNat n) hword hlt (by rw [hnumber]; linarith)
  · refine (sqrt_le_nearest (toNat_ofNat n) hword hlt (q := n) (Nat.cast_nonneg n) ?_).trans_lt hlt
    rw [hnumber]
    nlinarith

theorem value_sqrt (h0 : 0 < n) (h : n < 2 ^ 53) : (Float.ofNat n).sqrt.isFinite = true ∧
    value (Float.ofNat n).sqrt = number (Float.ofNat n).sqrt.toBits.toNat := by
  have hlt := (ordinal_sqrt_bounds h0 h).2
  have hordinal := ordinal_of_magnitude rfl hlt.le
  rw [isFinite_iff, value, hordinal, signedNumber_natCast]
  exact ⟨by simpa using hlt, rfl⟩

/-- **Roots are close**: the root of a whole number is off by at most a factor close to one. -/
theorem sqrt_near (h0 : 0 < n) (h : n < 2 ^ 53) :
    ((1 - 1 / 2 ^ 53) * value (Float.ofNat n).sqrt) ^ 2 < n ∧ n < ((1 + 1 / 2 ^ 52) * value (Float.ofNat n).sqrt) ^ 2 := by
  obtain ⟨hnumber, hlt⟩ := number_nearest_natCast h
  have hword := nearest_natCast_pos h0
  obtain ⟨hlow, hhigh⟩ := ordinal_sqrt_bounds h0 h
  rw [(value_sqrt h0 h).2]
  have hpos : 0 < number (Float.ofNat n).sqrt.toBits.toNat := number_pos (by omega)
  constructor
  · by_contra hge
    have hle := sqrt_le_nearest (toNat_ofNat n) hword hlt (by positivity) (hnumber.trans_le (not_lt.1 hge))
    exact (nearest_lt_of_le_mul (lt_of_lt_of_le (by norm_num) hlow) hhigh le_rfl).not_ge hle
  · by_contra hle
    have hge := nearest_le_sqrt (toNat_ofNat n) hword hlt ((not_lt.1 hle).trans_eq hnumber.symm)
    refine (lt_nearest_of_mul_lt (le_trans (by norm_num) hlow) hhigh ?_).not_ge hge
    exact mul_lt_mul_of_pos_right (by norm_num) hpos

/-- **Roots of squares are exact.** -/
theorem value_sqrt_sq {j : ℕ} (h0 : 0 < j) (h : j ^ 2 < 2 ^ 53) : value (Float.ofNat (j ^ 2)).sqrt = j := by
  have hn : 0 < j ^ 2 := by positivity
  have hj : j < 2 ^ 53 := lt_of_le_of_lt (Nat.le_self_pow two_ne_zero j) h
  obtain ⟨hnumber, hlt⟩ := number_nearest_natCast h
  have hword := nearest_natCast_pos hn
  have hroot : (Float.ofNat (j ^ 2)).sqrt.toBits.toNat = nearest j := by
    have hsq : number (nearest ((j ^ 2 : ℕ) : ℚ)) = (j : ℚ) ^ 2 := by
      rw [hnumber]
      push_cast
      rfl
    exact le_antisymm (sqrt_le_nearest (toNat_ofNat _) hword hlt (Nat.cast_nonneg j) hsq.le)
      (nearest_le_sqrt (toNat_ofNat _) hword hlt hsq.ge)
  rw [(value_sqrt hn h).2, hroot, (number_nearest_natCast hj).1]

end

end Sampling.Binary64
