/-
The share of ones, and when it is too far from one half.

The pre-test of the runs test compares the distance of `k / n` from one half with `2 / √n`, and each of the five operations on the way
rounds. Both sides stand at places nearest to what was rounded before (`unbalanced_iff`). What that says of the exact criterion:
- the two can only differ within `2 ^ -52` of the threshold (`le_sq_of_unbalanced`, `unbalanced_of_le_sq`);
- so off the threshold they agree for even `n` below `2 ^ 33`, where `(2k - n)²` and `16n` are too far apart (`unbalanced_iff_of_ne`);
- on the threshold `n` is the square of some `4j`, the root is exact, and what decides is the way in which the share was rounded:
  above one half by `2 ^ 52 / j` (`unbalanced_above_iff`), below it by `2 ^ 53 / j` (`unbalanced_below_iff`).
-/
import Sampling.Battery.Bits
import Sampling.Proofs.SquareRoot

namespace Sampling.Battery

open Binary64

def share (k n : ℕ) : Float := Float.ofNat k / Float.ofNat n

def root (n : ℕ) : ℚ := value (Float.ofNat n).sqrt

/-- how far the exact share of `k` in `n` is from one half -/
def distance (k n : ℕ) : ℚ := |(k : ℚ) / n - 1 / 2|

/-- `k` ones of `n` bits less the zeros -/
def imbalance (k n : ℕ) : ℤ := 2 * k - n

/-! ## Both sides of the comparison -/

theorem value_two : (2.0 : Float).isFinite = true ∧ value 2.0 = 2 := value_ofNat (n := 2) (by norm_num)

theorem value_half : (0.5 : Float).isFinite = true ∧ value 0.5 = 1 / 2 := by
  have hword : (0.5 : Float).toBits.toNat = 0x3fe0000000000000 := rfl
  rw [isFinite_iff, value, ordinal_of_magnitude hword (by decide), signedNumber_natCast, number, mantissa, exponent,
    if_neg (by norm_num), if_neg (by norm_num)]
  norm_num
  decide

theorem root_pos {n : ℕ} (h0 : 0 < n) (h : n < 2 ^ 53) : 0 < root n := by
  have hlow := (ordinal_sqrt_bounds h0 h).1
  rw [root, (value_sqrt h0 h).2]
  exact number_pos (by omega)

theorem lt_nearest_threshold {n : ℕ} (h0 : 0 < n) (h : n < 2 ^ 53) : 2 ^ 52 < nearest (2 / root n) := by
  have hs := root_pos h0 h
  have hroot : ((1 - 1 / 2 ^ 53) * root n) ^ 2 < n := (sqrt_near h0 h).1
  have hn : (n : ℚ) < (2 ^ 27) ^ 2 := (by exact_mod_cast h : (n : ℚ) < 2 ^ 53).trans (by norm_num)
  have hbound : (1 - 1 / 2 ^ 53) * root n < 2 ^ 27 := lt_of_pow_lt_pow_left₀ 2 (by norm_num) (hroot.trans hn)
  have hsmall : (2 : ℚ) ^ (-1022 : ℤ) ≤ 2 ^ (-28 : ℤ) := zpow_le_zpow_right₀ (by norm_num) (by norm_num)
  refine lt_nearest_of_mul_lt le_rfl (by decide) ?_
  rw [number_least_normal]
  calc (1 + 1 / 2 ^ 53) * (2 : ℚ) ^ (-1022 : ℤ) ≤ 2 * 2 ^ (-28 : ℤ) := mul_le_mul (by norm_num) hsmall (by positivity) (by norm_num)
    _ = 1 / 2 ^ 27 := by norm_num
    _ < 2 / root n := by
      rw [div_lt_div_iff₀ (by positivity) hs]
      linarith

section
variable {k n : ℕ} (h0 : 0 < n) (h : n < 2 ^ 53) (hk : k ≤ n)
include hk

theorem exactShare_le_one : (k : ℚ) / n ≤ 1 := div_le_one_of_le₀ (by exact_mod_cast hk) (Nat.cast_nonneg n)

theorem distance_le_half : distance k n ≤ 1 / 2 := by
  have hle := exactShare_le_one hk
  have hnonneg : (0 : ℚ) ≤ k / n := by positivity
  exact abs_le.2 ⟨by linarith, by linarith⟩

theorem nearest_exactShare_le : nearest (k / n : ℚ) ≤ 0x3ff0000000000000 :=
  calc nearest (k / n : ℚ) ≤ nearest 1 := nearest_mono (exactShare_le_one hk)
    _ = nearest (number 0x3ff0000000000000) := by rw [number_one]
    _ = 0x3ff0000000000000 := nearest_number (by decide)

include h0 h

theorem value_share : (share k n).isFinite = true ∧ value (share k n) = number (nearest (k / n : ℚ)) := by
  obtain ⟨hfinite, hvalue⟩ := value_ofNat (hk.trans_lt h)
  obtain ⟨hfinite', hvalue'⟩ := value_ofNat h
  have hlt : nearest (k / n : ℚ) < infinite := (nearest_exactShare_le hk).trans_lt (by decide)
  have hordinal : ordinal (share k n) = nearestSigned (value (Float.ofNat k) / value (Float.ofNat n)) :=
    ordinal_div hfinite hfinite' (by rw [hvalue']; exact_mod_cast h0.ne')
  rw [hvalue, hvalue', nearestSigned_of_nonneg (by positivity)] at hordinal
  rw [isFinite_iff, value, hordinal, signedNumber_natCast]
  exact ⟨by simpa using hlt, rfl⟩

/-- **Shares are close**: half a unit of the last place below one is at most `2 ^ -54`. -/
theorem value_share_near : |value (share k n) - k / n| ≤ 1 / 2 ^ 54 := by
  rw [(value_share h0 h hk).2]
  rcases Nat.eq_zero_or_pos k with rfl | hpos
  · simp [nearest_zero, number_zero]
  rcases hk.eq_or_lt with rfl | hlt
  · rw [div_self (by exact_mod_cast h0.ne'), number_nearest (by decide) number_one]
    norm_num
  · have hshare : (0 : ℚ) < k / n := by positivity
    have hbelow : (k : ℚ) / n < ((2 : ℕ) : ℚ) ^ (0 : ℤ) := by
      rw [zpow_zero, div_lt_one (by exact_mod_cast h0)]
      exact_mod_cast hlt
    have hlog := (Int.lt_zpow_iff_log_lt (by norm_num) hshare).1 hbelow
    have hplace : place (k / n : ℚ) ≤ -53 := by
      unfold place
      omega
    have hunit : (2 : ℚ) ^ place (k / n : ℚ) ≤ 2 ^ (-53 : ℤ) := zpow_le_zpow_right₀ (by norm_num) hplace
    obtain ⟨hlow, hhigh⟩ := number_nearest_near hshare ((nearest_exactShare_le hk).trans_lt (by decide))
    have hhalf : (2 : ℚ) ^ (-53 : ℤ) / 2 = 1 / 2 ^ 54 := by norm_num
    exact abs_le.2 ⟨by linarith, by linarith⟩

/-- what the distance of the computed share from one half is, within the same margin -/
theorem value_share_distance : |value (share k n) - 1 / 2| ≤ distance k n + 1 / 2 ^ 54 ∧
    distance k n - 1 / 2 ^ 54 ≤ |value (share k n) - 1 / 2| := by
  have hnear := abs_abs_sub_abs_le (value (share k n) - 1 / 2) (k / n - 1 / 2 : ℚ)
  rw [sub_sub_sub_cancel_right] at hnear
  obtain ⟨hlow, hhigh⟩ := abs_le.1 (hnear.trans (value_share_near h0 h hk))
  unfold distance
  constructor <;> linarith

/-- **The pre-test**, as a comparison of nearest places. -/
theorem unbalanced_iff :
    unbalanced (share k n) n = true ↔ nearest (2 / root n) ≤ nearest |value (share k n) - 1 / 2| := by
  obtain ⟨hshare, -⟩ := value_share h0 h hk
  obtain ⟨htwo, htwo'⟩ := value_two
  obtain ⟨hhalf, hhalf'⟩ := value_half
  obtain ⟨hroot, -⟩ := value_sqrt h0 h
  have hpos := root_pos h0 h
  have hquotient : ordinal (2.0 / (Float.ofNat n).sqrt) = nearestSigned (2 / root n) := by
    rw [ordinal_div htwo hroot hpos.ne', htwo', root]
  have hdifference : ordinal (share k n - 0.5) = nearestSigned (value (share k n) - 1 / 2) := by
    rw [ordinal_sub hshare hhalf, hhalf']
  have hword := toNat_abs (isNaN_of_ordinal_nearest hdifference)
  rw [hdifference, natAbs_nearestSigned] at hword
  have hdistance := ordinal_of_magnitude hword (nearest_le_infinite _)
  have hsize : (share k n - 0.5).abs.isNaN = false :=
    isNaN_of_ordinal_nearest (hdistance.trans (nearestSigned_of_nonneg (abs_nonneg _)).symm)
  have hcompare : unbalanced (share k n) n = true ↔ 2.0 / (Float.ofNat n).sqrt ≤ (share k n - 0.5).abs := decide_eq_true_iff
  rw [hcompare, le_iff_ordinal (isNaN_of_ordinal_nearest hquotient) hsize, hquotient, hdistance,
    nearestSigned_of_nonneg (by positivity)]
  exact Nat.cast_le

/-! ## Beyond the margin -/

/-- what is unbalanced as computed reaches the threshold, or misses it by less than `2 ^ -52` -/
theorem le_sq_of_unbalanced (hn : 100 ≤ n) (hpre : unbalanced (share k n) n = true) : 4 ≤ (distance k n + 1 / 2 ^ 52) ^ 2 * n := by
  have hx : 0 ≤ distance k n := abs_nonneg _
  rcases le_or_gt (1 / 5) (distance k n + 1 / 2 ^ 52) with hfar | hnear
  · have hn : (100 : ℚ) ≤ n := by exact_mod_cast hn
    have hsq := pow_le_pow_left₀ (by norm_num) hfar 2
    nlinarith
  · -- less than a fifth away, the margin is wider than all errors together
    have hs := root_pos h0 h
    have hroot : ((1 - 1 / 2 ^ 53) * root n) ^ 2 < n := (sqrt_near h0 h).1
    have hdistance := (value_share_distance h0 h hk).1
    have hfinite : nearest |value (share k n) - 1 / 2| < infinite :=
      nearest_lt (v := 0x3ff0000000000000) (by decide) (by rw [number_one]; linarith) (number_strictMono (by decide))
    have hcompare := mul_lt_of_nearest_le (lt_nearest_threshold h0 h) hfinite ((unbalanced_iff h0 h hk).1 hpre)
    have hmargin : (1 + 1 / 2 ^ 53) * |value (share k n) - 1 / 2| ≤
        (1 - 1 / 2 ^ 53) * ((1 - 1 / 2 ^ 53) * (distance k n + 1 / 2 ^ 52)) := by linarith
    have hthreshold : 2 / root n < (1 - 1 / 2 ^ 53) * (distance k n + 1 / 2 ^ 52) :=
      lt_of_mul_lt_mul_left (hcompare.trans_le hmargin) (by norm_num)
    rw [div_lt_iff₀ hs] at hthreshold
    calc (4 : ℚ) = 2 ^ 2 := by norm_num
      _ ≤ ((1 - 1 / 2 ^ 53) * (distance k n + 1 / 2 ^ 52) * root n) ^ 2 := pow_le_pow_left₀ two_pos.le hthreshold.le 2
      _ = (distance k n + 1 / 2 ^ 52) ^ 2 * ((1 - 1 / 2 ^ 53) * root n) ^ 2 := by ring
      _ ≤ (distance k n + 1 / 2 ^ 52) ^ 2 * n := mul_le_mul_of_nonneg_left hroot.le (sq_nonneg _)

/-- what reaches the threshold by more than `2 ^ -52` is unbalanced as computed -/
theorem unbalanced_of_le_sq (hx : 1 / 2 ^ 52 ≤ distance k n) (hpast : 4 ≤ (distance k n - 1 / 2 ^ 52) ^ 2 * n) :
    unbalanced (share k n) n = true := by
  have hs := root_pos h0 h
  have hhalf := distance_le_half hk
  have hroot : n < ((1 + 1 / 2 ^ 52) * root n) ^ 2 := (sqrt_near h0 h).2
  have hproduct : 2 ≤ (distance k n - 1 / 2 ^ 52) * ((1 + 1 / 2 ^ 52) * root n) := by
    have hnonneg : 0 ≤ (distance k n - 1 / 2 ^ 52) * ((1 + 1 / 2 ^ 52) * root n) := mul_nonneg (by linarith) (by positivity)
    refine le_of_sq_le_sq ?_ hnonneg
    calc (2 : ℚ) ^ 2 = 4 := by norm_num
      _ ≤ (distance k n - 1 / 2 ^ 52) ^ 2 * n := hpast
      _ ≤ (distance k n - 1 / 2 ^ 52) ^ 2 * ((1 + 1 / 2 ^ 52) * root n) ^ 2 := mul_le_mul_of_nonneg_left hroot.le (sq_nonneg _)
      _ = ((distance k n - 1 / 2 ^ 52) * ((1 + 1 / 2 ^ 52) * root n)) ^ 2 := by ring
  rw [unbalanced_iff h0 h hk]
  refine nearest_mono ?_
  rw [div_le_iff₀ hs]
  calc 2 ≤ (distance k n - 1 / 2 ^ 52) * ((1 + 1 / 2 ^ 52) * root n) := hproduct
    _ = (distance k n - 1 / 2 ^ 52) * (1 + 1 / 2 ^ 52) * root n := by ring
    _ ≤ |value (share k n) - 1 / 2| * root n := mul_le_mul_of_nonneg_right ?_ hs.le
  exact le_trans (by linarith) (value_share_distance h0 h hk).2

end

/-! ## Off the threshold -/

section
variable {k n : ℕ}

theorem abs_imbalance (h0 : 0 < n) : |(imbalance k n : ℚ)| = 2 * n * distance k n := by
  have hn : (0 : ℚ) < n := by exact_mod_cast h0
  have hproduct : (imbalance k n : ℚ) = 2 * n * (k / n - 1 / 2) := by
    unfold imbalance
    push_cast
    field_simp
  rw [hproduct, abs_mul, abs_of_pos (by positivity), distance]

theorem sq_imbalance_iff (h0 : 0 < n) (c : ℚ) :
    16 * n ≤ (|(imbalance k n : ℚ)| + 2 * n * c) ^ 2 ↔ 4 ≤ (distance k n + c) ^ 2 * n := by
  have hn : (0 : ℚ) < n := by exact_mod_cast h0
  have hsquare : (|(imbalance k n : ℚ)| + 2 * n * c) ^ 2 = (distance k n + c) ^ 2 * n * (4 * n) := by
    rw [abs_imbalance h0]
    ring
  rw [hsquare, show (16 * n : ℚ) = 4 * (4 * n) by ring, mul_le_mul_iff_left₀ (by positivity)]

/-- **What fails the pre-test** satisfies the exact criterion, up to a margin of `n / 2 ^ 51` bits. -/
theorem sq_imbalance_of_unbalanced (hn : 100 ≤ n) (h : n < 2 ^ 53) (hk : k ≤ n) (hpre : unbalanced (share k n) n = true) :
    16 * n ≤ (|(imbalance k n : ℚ)| + n / 2 ^ 51) ^ 2 := by
  have hmargin := (sq_imbalance_iff (by omega) _).2 (le_sq_of_unbalanced (by omega) h hk hn hpre)
  rwa [show (2 * n * (1 / 2 ^ 52) : ℚ) = n / 2 ^ 51 by ring] at hmargin

/-- **What satisfies the exact criterion** with that margin fails the pre-test. -/
theorem unbalanced_of_sq_imbalance (h0 : 0 < n) (h : n < 2 ^ 53) (hk : k ≤ n) (hx : n / 2 ^ 51 ≤ |(imbalance k n : ℚ)|)
    (hpast : 16 * n ≤ (|(imbalance k n : ℚ)| - n / 2 ^ 51) ^ 2) : unbalanced (share k n) n = true := by
  have hn : (0 : ℚ) < n := by exact_mod_cast h0
  refine unbalanced_of_le_sq h0 h hk ?_ ?_
  · rw [abs_imbalance h0, show (n / 2 ^ 51 : ℚ) = 2 * n * (1 / 2 ^ 52) by ring] at hx
    exact le_of_mul_le_mul_left hx (by positivity)
  · rw [sub_eq_add_neg, ← sq_imbalance_iff h0, show (2 * n * -(1 / 2 ^ 52) : ℚ) = -(n / 2 ^ 51) by ring, ← sub_eq_add_neg]
    exact hpast

/-- an imbalance near the threshold is small in comparison with the precision -/
theorem mul_lt_of_sq_lt {a m c : ℚ} (h0 : 0 < n) (hn : n < 2 ^ 33) (hm : 0 ≤ m) (hc : 0 ≤ c) (ha : a ^ 2 < m * n)
    (hmc : m * 2 ^ 99 ≤ c ^ 2) : a * n < c := by
  have hpos : (0 : ℚ) < n := by exact_mod_cast h0
  have hcube : (n : ℚ) ^ 3 ≤ 2 ^ 99 := by
    have hle : (n : ℚ) ≤ 2 ^ 33 := by exact_mod_cast hn.le
    calc (n : ℚ) ^ 3 ≤ (2 ^ 33) ^ 3 := pow_le_pow_left₀ hpos.le hle 3
      _ = 2 ^ 99 := by norm_num
  refine lt_of_pow_lt_pow_left₀ 2 hc ?_
  calc (a * n) ^ 2 = a ^ 2 * n ^ 2 := by ring
    _ < m * n * n ^ 2 := mul_lt_mul_of_pos_right ha (by positivity)
    _ = m * n ^ 3 := by ring
    _ ≤ m * 2 ^ 99 := mul_le_mul_of_nonneg_left hcube hm
    _ ≤ c ^ 2 := hmc

/-- the square of an even imbalance that is not on the threshold is off it by four or more -/
theorem sq_imbalance_gap (heven : Even n) (hne : imbalance k n ^ 2 ≠ 16 * n) :
    imbalance k n ^ 2 + 4 ≤ 16 * n ∨ 16 * n + 4 ≤ imbalance k n ^ 2 := by
  obtain ⟨m, hm⟩ := heven
  have hdouble : imbalance k n = 2 * (k - m) := by
    unfold imbalance
    omega
  rw [hdouble, mul_pow] at hne ⊢
  omega

/-- **Off the threshold the pre-test is exact** for an even number of bits below `2 ^ 33`. -/
theorem unbalanced_iff_of_ne (heven : Even n) (hn : 100 ≤ n) (h : n < 2 ^ 33) (hk : k ≤ n) (hne : imbalance k n ^ 2 ≠ 16 * n) :
    unbalanced (share k n) n = true ↔ 16 * n ≤ imbalance k n ^ 2 := by
  have hlarge : (100 : ℚ) ≤ n := by exact_mod_cast hn
  have hsmall : (n : ℚ) ≤ 2 ^ 33 := by exact_mod_cast h.le
  have hsq : |(imbalance k n : ℚ)| ^ 2 = ((imbalance k n ^ 2 : ℤ) : ℚ) := by
    rw [sq_abs]
    push_cast
    rfl
  have hnonneg := abs_nonneg (imbalance k n : ℚ)
  constructor
  · -- four below the threshold, the margin adds less than four
    intro hpre
    by_contra hnot
    have hbelow : |(imbalance k n : ℚ)| ^ 2 + 4 ≤ 16 * n := by
      rw [hsq]
      exact_mod_cast (sq_imbalance_gap heven hne).resolve_right (by omega)
    have hproduct : |(imbalance k n : ℚ)| * n < 3 * 2 ^ 50 :=
      mul_lt_of_sq_lt (m := 16) (by omega) h (by norm_num) (by norm_num) (by linarith) (by norm_num)
    have hmargin := sq_imbalance_of_unbalanced hn (by omega) hk hpre
    nlinarith
  · intro hexact
    have habove : 16 * n + 4 ≤ |(imbalance k n : ℚ)| ^ 2 := by
      rw [hsq]
      exact_mod_cast (sq_imbalance_gap heven hne).resolve_left (by omega)
    have hone : 1 ≤ |(imbalance k n : ℚ)| := by nlinarith
    refine unbalanced_of_sq_imbalance (by omega) (by omega) hk (by linarith) ?_
    rcases lt_or_ge (|(imbalance k n : ℚ)| ^ 2) (32 * n) with hnear | hfar
    · -- four above it, the margin takes away at most four
      have hproduct : |(imbalance k n : ℚ)| * n < 2 ^ 52 :=
        mul_lt_of_sq_lt (m := 32) (by omega) h (by norm_num) (by norm_num) hnear (by norm_num)
      nlinarith
    · -- far above it, the margin is less than a quarter
      have hquarter : 3 / 4 * |(imbalance k n : ℚ)| ≤ |(imbalance k n : ℚ)| - n / 2 ^ 51 := by linarith
      have hsquare := pow_le_pow_left₀ (by positivity) hquarter 2
      linarith

end

/-! ## On the threshold -/

/-- a square that eight divides is one that sixteen divides -/
theorem four_dvd_of_eight_dvd_sq {d : ℕ} (h : 8 ∣ d ^ 2) : 4 ∣ d := by
  obtain ⟨i, hi⟩ : Even d := by
    have heven : Even (d ^ 2) := even_iff_two_dvd.2 (Dvd.dvd.trans (by norm_num) h)
    exact (Nat.even_pow.1 heven).1
  obtain ⟨j, hj⟩ : Even i := by
    rw [hi, ← two_mul, mul_pow] at h
    have heven : Even (i ^ 2) := even_iff_two_dvd.2 (by omega)
    exact (Nat.even_pow.1 heven).1
  exact ⟨j, by omega⟩

/-- on the threshold the number of bits is the square of some `4 * j`, and ones and zeros are `8 * j` away from half of it -/
theorem exists_root_of_threshold {k l n : ℕ} (h8 : 8 ∣ n) (hsum : k + l = n) (h : imbalance k n ^ 2 = 16 * n) :
    ∃ j, n = (4 * j) ^ 2 ∧ (k = 8 * j * (j + 1) ∧ l = 8 * j * (j - 1) ∨ k = 8 * j * (j - 1) ∧ l = 8 * j * (j + 1)) := by
  obtain ⟨d, hd⟩ : (4 : ℤ) ∣ imbalance k n := (Int.pow_dvd_pow_iff two_ne_zero).1 ⟨n, by rw [h]; norm_num⟩
  have hsquare : n = d.natAbs ^ 2 := by
    rw [hd] at h
    zify
    rw [sq_abs]
    linarith
  obtain ⟨j, hj⟩ := four_dvd_of_eight_dvd_sq (hsquare ▸ h8)
  have hbits : n = 16 * j ^ 2 := by rw [hsquare, hj, mul_pow]; rfl
  have hmore : 8 * j * (j + 1) = 8 * j ^ 2 + 8 * j := by ring
  have hfewer : 8 * j * (j - 1) = 8 * j ^ 2 - 8 * j := by rw [Nat.mul_sub, mul_one, mul_assoc, sq]
  have hle : j ≤ j ^ 2 := Nat.le_self_pow two_ne_zero j
  unfold imbalance at hd
  refine ⟨j, by rw [hsquare, hj], ?_⟩
  rw [hmore, hfewer]
  rcases Int.natAbs_eq d with hsign | hsign
  · left
    omega
  · right
    omega

section
variable {j N e : ℕ}

/-- a distance that was rounded to a magnitude reaches the threshold exactly if that magnitude does -/
theorem nearest_threshold_le_iff (hj : 0 < j) (hN : 0 < N) (hN' : N < 2 ^ 53) (he : e ≤ 53) :
    nearest (2 / (4 * j : ℚ)) ≤ nearest (N / 2 ^ (e + 1) : ℚ) ↔ 2 ^ e ≤ j * N := by
  have hj' : (0 : ℚ) < j := by exact_mod_cast hj
  have hN0 : (1 : ℚ) ≤ N := by exact_mod_cast hN
  have hbits : (2 : ℚ) ^ e ≤ 2 ^ 53 := pow_le_pow_right₀ (by norm_num) he
  constructor
  · contrapose!
    intro hlt
    obtain ⟨w, hw, hnumber⟩ := exists_number hN' (e := -(e + 1 : ℕ)) (by omega) (by omega)
    have hdivide : number w = N / (2 ^ e * 2) := by
      rw [hnumber, zpow_neg, zpow_natCast, pow_succ (2 : ℚ), div_eq_mul_inv]
    have hnormal : 2 ^ 52 ≤ w := by
      rw [← number_strictMono.le_iff_le, number_least_normal, hdivide]
      calc (2 : ℚ) ^ (-1022 : ℤ) ≤ 2 ^ (-54 : ℤ) := zpow_le_zpow_right₀ (by norm_num) (by norm_num)
        _ = 1 / (2 ^ 53 * 2) := by norm_num
        _ ≤ N / (2 ^ e * 2) := div_le_div₀ (Nat.cast_nonneg N) hN0 (by positivity) (by linarith)
    rw [pow_succ (2 : ℚ) e, ← hdivide, nearest_number hw.le]
    refine lt_nearest_of_mul_lt hnormal hw ?_
    rw [hdivide, lt_div_iff₀ (by positivity), mul_div_assoc', div_mul_eq_mul_div, div_lt_iff₀ (by positivity)]
    have hgap : (j * N : ℚ) + 1 ≤ 2 ^ e := by exact_mod_cast hlt
    nlinarith
  · intro h
    refine nearest_mono ?_
    rw [div_le_div_iff₀ (by positivity) (by positivity), pow_succ (2 : ℚ) e]
    have h : (2 : ℚ) ^ e ≤ j * N := by exact_mod_cast h
    linarith

theorem root_of_square (hj : 0 < j) (h : (4 * j) ^ 2 < 2 ^ 53) : root ((4 * j) ^ 2) = 4 * j := by
  rw [root, value_sqrt_sq (by omega) h]
  push_cast
  rfl

/-- on the threshold the distance has as many bits as the share has below one half -/
theorem roundQuotient_bounds (hj : 3 ≤ j) (hj' : j < 2 ^ 51) (he : e = 52 ∨ e = 53) :
    0 < roundQuotient (2 ^ e) j ∧ roundQuotient (2 ^ e) j < 2 ^ 53 := by
  obtain ⟨hlow, hhigh⟩ := roundQuotient_near (2 ^ e) j (by omega)
  have hpow : 2 ^ 52 ≤ 2 ^ e ∧ 2 ^ e ≤ 2 ^ 53 := by rcases he with rfl | rfl <;> norm_num
  constructor
  · by_contra hnot
    have hzero : roundQuotient (2 ^ e) j = 0 := by omega
    rw [hzero] at hhigh
    omega
  · by_contra hlarge
    have hmul : 2 ^ 53 * 3 ≤ roundQuotient (2 ^ e) j * j := Nat.mul_le_mul (not_lt.1 hlarge) hj
    omega

/-- where the last place of the share is known, so is what it is rounded to -/
theorem value_share_of_place {k : ℕ} (hj : 3 ≤ j) (h : (4 * j) ^ 2 < 2 ^ 53) (hk : k ≤ (4 * j) ^ 2) (he : 0 < e) {s : ℤ}
    (hs : s = 1 ∨ s = -1) (hexact : (k / ((4 * j) ^ 2 : ℕ) : ℚ) = 1 / 2 + s / (2 * j))
    (hplace : place (1 / 2 + s / (2 * j) : ℚ) = -(e + 1 : ℕ)) :
    value (share k ((4 * j) ^ 2)) - 1 / 2 = s * (roundQuotient (2 ^ e) j / 2 ^ (e + 1)) := by
  have hpos : (3 : ℚ) ≤ j := by exact_mod_cast hj
  have hshare : (0 : ℚ) < k / ((4 * j) ^ 2 : ℕ) := by
    have hsixth : 1 / (2 * j : ℚ) ≤ 1 / 6 := one_div_le_one_div_of_le (by norm_num) (by linarith)
    have hpart : 0 ≤ 1 / (2 * j : ℚ) := by positivity
    rw [hexact]
    rcases hs with rfl | rfl
    · rw [Int.cast_one]
      linarith
    · rw [Int.cast_neg, Int.cast_one, neg_div]
      linarith
  -- one half is an even count of units of the last place, so the rest is rounded by itself
  obtain ⟨m, hm⟩ : ∃ m : ℤ, 2 * (m : ℚ) = 2 ^ e := by
    refine ⟨2 ^ (e - 1), ?_⟩
    push_cast
    rw [← pow_succ', show e - 1 + 1 = e by omega]
  have hunits : ((1 / 2 + s / (2 * j)) / 2 ^ (-(e + 1 : ℕ) : ℤ) : ℚ) = s * ((2 ^ e : ℕ) / j) + 2 * m := by
    rw [hm, zpow_neg, zpow_natCast, div_inv_eq_mul, pow_succ]
    push_cast
    field_simp
    ring
  have hrounded : nearestEven (s * ((2 ^ e : ℕ) / j)) = s * roundQuotient (2 ^ e) j := by
    rw [roundQuotient_eq_nearestEven _ (by omega)]
    rcases hs with rfl | rfl
    · simp
    · simp [nearestEven_neg]
  have hfinite := (nearest_exactShare_le hk).trans_lt (by decide : 0x3ff0000000000000 < infinite)
  rw [(value_share (by positivity) h hk).2, number_nearest_eq hshare hfinite, hexact, hplace, hunits, nearestEven_add_even, hrounded,
    zpow_neg, zpow_natCast, pow_succ]
  push_cast
  rw [hm]
  field_simp
  ring

/-- the pre-test is then a comparison of whole numbers -/
theorem unbalanced_iff_of_place {k : ℕ} (hj : 3 ≤ j) (h : (4 * j) ^ 2 < 2 ^ 53) (hk : k ≤ (4 * j) ^ 2) (he : e = 52 ∨ e = 53) {s : ℤ}
    (hs : s = 1 ∨ s = -1) (hexact : (k / ((4 * j) ^ 2 : ℕ) : ℚ) = 1 / 2 + s / (2 * j))
    (hplace : place (1 / 2 + s / (2 * j) : ℚ) = -(e + 1 : ℕ)) :
    unbalanced (share k ((4 * j) ^ 2)) ((4 * j) ^ 2) = true ↔ 2 ^ e ≤ j * roundQuotient (2 ^ e) j := by
  obtain ⟨hN, hN'⟩ := roundQuotient_bounds hj (by nlinarith) he
  have hsize : |(s : ℚ)| = 1 := by rcases hs with rfl | rfl <;> norm_num
  rw [unbalanced_iff (by positivity) h hk, value_share_of_place hj h hk (by omega) hs hexact hplace, abs_mul, hsize, one_mul,
    abs_of_nonneg (by positivity), root_of_square (by omega) h]
  exact nearest_threshold_le_iff (by omega) hN hN' (by omega)

/-- **On the threshold, more ones than zeros**: one half and `2 ^ 52 / j` units of `2 ^ -53`. The pre-test fails exactly if that quotient
is not rounded down. -/
theorem unbalanced_above_iff (hj : 3 ≤ j) (h : (4 * j) ^ 2 < 2 ^ 53) :
    unbalanced (share (8 * j * (j + 1)) ((4 * j) ^ 2)) ((4 * j) ^ 2) = true ↔ 2 ^ 52 ≤ j * roundQuotient (2 ^ 52) j := by
  have hpos : (3 : ℚ) ≤ j := by exact_mod_cast hj
  have hsixth : 1 / (2 * j : ℚ) ≤ 1 / 6 := one_div_le_one_div_of_le (by norm_num) (by linarith)
  refine unbalanced_iff_of_place hj h (by nlinarith) (Or.inl rfl) (Or.inl rfl) ?_ ?_
  · push_cast
    field_simp
    norm_num
  · refine place_eq_of_mem (e := -1) (by norm_num) ?_ ?_
    · norm_num
    · norm_num at hsixth ⊢
      linarith

/-- **On the threshold, fewer ones than zeros**: one half less `2 ^ 53 / j` units of `2 ^ -54`, since the last place is another one
there. -/
theorem unbalanced_below_iff (hj : 3 ≤ j) (h : (4 * j) ^ 2 < 2 ^ 53) :
    unbalanced (share (8 * j * (j - 1)) ((4 * j) ^ 2)) ((4 * j) ^ 2) = true ↔ 2 ^ 53 ≤ j * roundQuotient (2 ^ 53) j := by
  have hpos : (3 : ℚ) ≤ j := by exact_mod_cast hj
  have hsixth : 1 / (2 * j : ℚ) ≤ 1 / 6 := one_div_le_one_div_of_le (by norm_num) (by linarith)
  have hpart : 0 < 1 / (2 * j : ℚ) := by positivity
  have hk : 8 * j * (j - 1) ≤ (4 * j) ^ 2 := by
    have hle : 8 * j * (j - 1) ≤ 8 * j * j := Nat.mul_le_mul_left _ (Nat.sub_le j 1)
    nlinarith
  refine unbalanced_iff_of_place hj h hk (Or.inr rfl) (Or.inr rfl) ?_ ?_
  · push_cast [Nat.cast_sub (by omega : 1 ≤ j)]
    field_simp
    ring
  · rw [Int.cast_neg, Int.cast_one, neg_div]
    refine place_eq_of_mem (e := -2) (by norm_num) ?_ ?_
    · norm_num at hsixth ⊢
      linarith
    · norm_num at hpart ⊢
      linarith

end

end Sampling.Battery
