/-
What a uniform draw between two bounds returns.

`lo + u * (hi - lo)` is rounded three times. If the difference of the bounds does not overflow, the result is finite, no less than `lo`
and no more than `hi`, and it grows with the unit number (`uniformOf_mem`, `uniformOf_mono`). The upper bound itself is not kept
out: between two neighbours, every unit number above one half rounds up to it (`uniform_reaches_upper`). Since results grow with the
word, bounds keep the upper one out exactly if the largest word does; bounds from zero up to any number above the least normal
magnitude do. A difference that overflows leaves no finite result at all.

The step that is not monotonicity: a difference that was rounded up is a normal magnitude, and the largest unit number takes such a
magnitude strictly down (`nearest_lt_of_le_mul`), below the exact difference again.
-/
import Sampling.Distribution.Continuous
import Sampling.Source.Replay
import Sampling.Proofs.SignedNumbers
import Sampling.Proofs.WordStream

namespace Sampling

open Binary64
open Float.Model Float.Model.UnpackedFloat

/-- the number between two bounds that a word gives -/
def uniformOf (lo hi : Float) (w : UInt64) : Float := lo + unitOf w * (hi - lo)

namespace Binary64

/-! ## Magnitudes -/

theorem exists_units_value (x : Float) : ∃ z : ℤ, value x = z * 2 ^ (-1074 : ℤ) := by
  obtain ⟨n, hn⟩ := exists_units (ordinal x).natAbs
  refine ⟨(ordinal x).sign * n, ?_⟩
  rw [value, signedNumber, hn, Int.cast_mul, Int.cast_natCast, mul_assoc]

/-- a difference that rounds to no more than the least normal magnitude is exact -/
theorem number_nearest_sub {x y : Float} (h : value x < value y) (hsmall : nearest (value y - value x) ≤ 2 ^ 52) :
    number (nearest (value y - value x)) = value y - value x := by
  obtain ⟨a, ha⟩ := exists_units_value x
  obtain ⟨b, hb⟩ := exists_units_value y
  have hpos : (0 : ℚ) < 2 ^ (-1074 : ℤ) := by positivity
  have hab : a ≤ b := by
    rw [ha, hb, mul_lt_mul_iff_left₀ hpos] at h
    exact_mod_cast h.le
  have hdiff : value y - value x = ((b - a).toNat : ℕ) * 2 ^ (-1074 : ℤ) := by
    have hcast : (((b - a).toNat : ℕ) : ℚ) = b - a := by exact_mod_cast Int.toNat_of_nonneg (sub_nonneg.2 hab)
    rw [hcast, ha, hb, sub_mul]
  rw [hdiff] at hsmall ⊢
  exact number_nearest_of_units hsmall

/-- **A part of the rounded difference is no more than the exact one.** -/
theorem number_nearest_mul_le {x y : Float} (h : value x < value y) (hlt : nearest (value y - value x) < infinite) {u : ℚ}
    (hu : u ≤ 1 - 1 / 2 ^ 53) :
    number (nearest (u * number (nearest (value y - value x)))) ≤ value y - value x := by
  generalize hd : nearest (value y - value x) = d at hlt
  have hpart : u * number d ≤ (1 - 1 / 2 ^ 53) * number d := mul_le_mul_of_nonneg_right hu (number_nonneg d)
  by_cases hup : number d ≤ value y - value x
  · have hle : u * number d ≤ number d := by linarith [number_nonneg d]
    calc number (nearest (u * number d)) ≤ number (nearest (number d)) := number_strictMono.monotone (nearest_mono hle)
      _ = number d := by rw [nearest_number hlt.le]
      _ ≤ value y - value x := hup
  · -- rounded up, hence not exact, hence normal: the part is at most the magnitude before
    have hnormal : 2 ^ 52 < d := by
      by_contra hsmall
      have hexact := number_nearest_sub h (hd.trans_le (not_lt.1 hsmall))
      rw [hd] at hexact
      exact hup hexact.le
    have hbelow : nearest (u * number d) < d := nearest_lt_of_le_mul hnormal hlt hpart
    by_contra hover
    have hbetween : value y - value x ≤ number (nearest (u * number d)) := (not_le.1 hover).le
    have hback := nearest_mono hbetween
    rw [hd, nearest_number (hbelow.trans hlt).le] at hback
    exact hbelow.not_ge hback

end Binary64

/-! ## Bounds -/

def topWord : UInt64 := 0xffffffffffffffff

theorem le_topWord (w : UInt64) : w ≤ topWord := by
  rw [UInt64.le_iff_toNat_le]
  exact Nat.le_of_lt_succ w.toNat_lt

section
variable {lo hi : Float}

/-- the difference of bounds is rounded; it may overflow -/
theorem ordinal_difference (hlo : lo.isFinite = true) (hhi : hi.isFinite = true) (h : lo < hi) :
    ordinal (hi - lo) = nearest (value hi - value lo) := by
  rw [ordinal_sub hhi hlo]
  apply nearestSigned_of_nonneg
  exact sub_nonneg.2 ((lt_iff_value hlo hhi).1 h).le

section
variable (hlo : lo.isFinite = true) (hhi : hi.isFinite = true) (h : lo < hi) (hd : (hi - lo).isFinite = true)
include hlo hhi h hd

theorem nearest_difference_lt : nearest (value hi - value lo) < infinite := by
  rw [isFinite_iff, ordinal_difference hlo hhi h] at hd
  simpa using hd

theorem ordinal_part (w : UInt64) : (unitOf w * (hi - lo)).isFinite = true ∧
    ordinal (unitOf w * (hi - lo)) = nearest (value (unitOf w) * number (nearest (value hi - value lo))) := by
  have hlt := nearest_difference_lt hlo hhi h hd
  have hvalue : value (hi - lo) = number (nearest (value hi - value lo)) := by
    rw [value, ordinal_difference hlo hhi h, signedNumber_natCast]
  have hd0 : 0 ≤ number (nearest (value hi - value lo)) := number_nonneg _
  have hu0 := value_unitOf_nonneg w
  have hu := value_unitOf_le w
  have hordinal := ordinal_mul (value_unitOf w).1 hd
  rw [hvalue, nearestSigned_of_nonneg (mul_nonneg hu0 hd0)] at hordinal
  have hle := nearest_mono (show value (unitOf w) * number (nearest (value hi - value lo)) ≤
    number (nearest (value hi - value lo)) by nlinarith)
  rw [nearest_number hlt.le] at hle
  refine ⟨?_, hordinal⟩
  rw [isFinite_iff, hordinal]
  simpa using hle.trans_lt hlt

theorem value_part_mem (w : UInt64) :
    0 ≤ value (unitOf w * (hi - lo)) ∧ value (unitOf w * (hi - lo)) ≤ value hi - value lo := by
  rw [value, (ordinal_part hlo hhi h hd w).2, signedNumber_natCast]
  refine ⟨number_nonneg _, ?_⟩
  exact number_nearest_mul_le ((lt_iff_value hlo hhi).1 h) (nearest_difference_lt hlo hhi h hd) (value_unitOf_le w)

theorem ordinal_uniformOf (w : UInt64) :
    ordinal (uniformOf lo hi w) = nearestSigned (value lo + value (unitOf w * (hi - lo))) :=
  ordinal_add hlo (ordinal_part hlo hhi h hd w).1

/-- **Results are finite and within the bounds**, the upper one included. -/
theorem uniformOf_mem (w : UInt64) : (uniformOf lo hi w).isFinite = true ∧ lo ≤ uniformOf lo hi w ∧ uniformOf lo hi w ≤ hi := by
  obtain ⟨hpart0, hpart⟩ := value_part_mem hlo hhi h hd w
  have hordinal := ordinal_uniformOf hlo hhi h hd w
  have hlower : ordinal lo ≤ ordinal (uniformOf lo hi w) := by
    rw [hordinal, ← nearestSigned_value hlo]
    exact nearestSigned_mono (le_add_of_nonneg_right hpart0)
  have hupper : ordinal (uniformOf lo hi w) ≤ ordinal hi := by
    rw [hordinal, ← nearestSigned_value hhi]
    apply nearestSigned_mono
    linarith
  have hfinite : (uniformOf lo hi w).isFinite = true := by
    rw [isFinite_iff] at hlo hhi ⊢
    omega
  refine ⟨hfinite, ?_, ?_⟩
  · rwa [le_iff_ordinal (isNaN_of_isFinite hlo) (isNaN_of_isFinite hfinite)]
  · rwa [le_iff_ordinal (isNaN_of_isFinite hfinite) (isNaN_of_isFinite hhi)]

/-- **Results grow with the word.** -/
theorem uniformOf_mono {v w : UInt64} (hvw : v ≤ w) : uniformOf lo hi v ≤ uniformOf lo hi w := by
  have hunits : value (unitOf v) ≤ value (unitOf w) := by
    rw [(value_unitOf v).2, (value_unitOf w).2]
    apply div_le_div_of_nonneg_right _ (by positivity)
    exact_mod_cast toNat_shiftRight_mono hvw
  have hparts : value (unitOf v * (hi - lo)) ≤ value (unitOf w * (hi - lo)) := by
    rw [value, value, (ordinal_part hlo hhi h hd v).2, (ordinal_part hlo hhi h hd w).2]
    apply signedNumber_strictMono.monotone
    exact_mod_cast nearest_mono (mul_le_mul_of_nonneg_right hunits (number_nonneg _))
  rw [le_iff_ordinal (isNaN_of_isFinite (uniformOf_mem hlo hhi h hd v).1) (isNaN_of_isFinite (uniformOf_mem hlo hhi h hd w).1),
    ordinal_uniformOf hlo hhi h hd, ordinal_uniformOf hlo hhi h hd]
  exact nearestSigned_mono (add_le_add_right hparts _)

/-- the upper bound is kept out if the largest word keeps it out -/
theorem uniformOf_lt_iff : (∀ w, uniformOf lo hi w < hi) ↔ uniformOf lo hi topWord < hi := by
  constructor
  · intro hall
    exact hall topWord
  · intro htop w
    have hmono := uniformOf_mono hlo hhi h hd (le_topWord w)
    have hw := (uniformOf_mem hlo hhi h hd w).1
    have htop' := (uniformOf_mem hlo hhi h hd topWord).1
    rw [lt_iff_value htop' hhi] at htop
    rw [le_iff_value hw htop'] at hmono
    rw [lt_iff_value hw hhi]
    exact hmono.trans_lt htop

end

theorem uniformOf_zero_lt (hlo : lo.isFinite = true) (hhi : hi.isFinite = true) (h0 : value lo = 0)
    (hnormal : 2 ^ (-1022 : ℤ) < value hi) (w : UInt64) : uniformOf lo hi w < hi := by
  have hpos : 0 < value hi := lt_trans (by positivity) hnormal
  have h : lo < hi := (lt_iff_value hlo hhi).2 (h0 ▸ hpos)
  obtain ⟨d, hd⟩ : ∃ d : ℕ, ordinal hi = d := by
    apply Int.eq_ofNat_of_zero_le
    rw [value, ← signedNumber_zero] at hpos
    exact (signedNumber_strictMono.lt_iff_lt.1 hpos).le
  have hvalue : value hi = number d := by rw [value, hd, signedNumber_natCast]
  have hdlt : d < infinite := by simpa [isFinite_iff, hd] using hhi
  have hdnormal : 2 ^ 52 < d := by
    rw [hvalue, ← number_least_normal] at hnormal
    exact number_strictMono.lt_iff_lt.1 hnormal
  have hdiff : nearest (value hi - value lo) = d := by rw [h0, sub_zero, hvalue, nearest_number hdlt.le]
  have hfinite : (hi - lo).isFinite = true := by
    rw [isFinite_iff, ordinal_difference hlo hhi h, hdiff]
    simpa using hdlt
  have hpart : nearest (value (unitOf w) * number d) < d :=
    nearest_lt_of_le_mul hdnormal hdlt (mul_le_mul_of_nonneg_right (value_unitOf_le w) (number_nonneg d))
  have hordinal := (ordinal_part hlo hhi h hfinite w).2
  rw [hdiff] at hordinal
  rw [lt_iff_ordinal (isNaN_of_isFinite (uniformOf_mem hlo hhi h hfinite w).1) (isNaN_of_isFinite hhi),
    ordinal_uniformOf hlo hhi h hfinite, h0, zero_add, nearestSigned_value (ordinal_part hlo hhi h hfinite w).1, hordinal, hd]
  exact_mod_cast hpart

/-! ## Differences that overflow -/

theorem eq_infinity_of_ordinal {x : Float} (h : ordinal x = infinite) : x = Arith.infinity := by
  have hword : x.toBits.toNat = infinite := toNat_of_ordinal (by decide) h
  exact eq_of_toNat hword

theorem eq_infinity_of_overflow (hlo : lo.isFinite = true) (hhi : hi.isFinite = true) (h : lo < hi)
    (hd : (hi - lo).isFinite = false) : hi - lo = Arith.infinity := by
  have hdiff := ordinal_difference hlo hhi h
  have hle := nearest_le_infinite (value hi - value lo)
  apply eq_infinity_of_ordinal
  rw [← Bool.not_eq_true, isFinite_iff, hdiff] at hd
  omega

theorem unit_mul_infinity (w : UInt64) :
    (unitOf w * Arith.infinity : Float) = if w < 2048 then Arith.nan else Arith.infinity := by
  have hpacked : (unitOf w * Arith.infinity : Float).toBits.toNat = (UnpackedFloat.pack Format.binary64
      (UnpackedFloat.mul Format.binary64 (unitOf w : Float).toModel.unpack (.infinity .positive))).toNat := rfl
  obtain ⟨hfinite, hvalue⟩ := value_unitOf w
  rw [toNat_shiftRight] at hvalue
  have hzero : w < 2048 ↔ value (unitOf w) = 0 := by
    rw [hvalue, div_eq_zero_iff, or_iff_left (by norm_num), UInt64.lt_iff_toNat_lt, Nat.cast_eq_zero]
    exact (Nat.div_eq_zero_iff_lt (by decide)).symm
  rcases finite_cases hfinite with ⟨h0, s, hu⟩ | ⟨s, v, h0, -, hv, hu⟩ <;> rw [hu] at hpacked
  · rw [if_pos (hzero.2 (value_of_ordinal_zero h0))]
    exact eq_of_toNat hpacked
  · have hpos := value_unitOf_nonneg w
    have hnumber := number_pos h0
    rw [value_apply hv] at hpos hzero
    cases s with
    | negative =>
      rw [Sign.apply, Int.cast_neg, Int.cast_one, neg_one_mul, neg_nonneg] at hpos
      exact absurd hpos hnumber.not_ge
    | positive =>
      have hnonzero : ¬ w < 2048 := by
        rw [hzero]
        simpa [Sign.apply] using hnumber.ne'
      rw [if_neg hnonzero]
      exact eq_of_toNat hpacked

theorem add_infinity (hlo : lo.isFinite = true) : lo + Arith.infinity = Arith.infinity := by
  have hpacked : (lo + Arith.infinity).toBits.toNat = (UnpackedFloat.pack Format.binary64
      (UnpackedFloat.add Format.binary64 lo.toModel.unpack (.infinity .positive))).toNat := rfl
  rcases finite_cases hlo with ⟨-, s, hu⟩ | ⟨s, v, h0, -, -, hu⟩ <;> rw [hu] at hpacked
  · exact eq_of_toNat hpacked
  · exact eq_of_toNat hpacked

theorem add_nan (x : Float) : x + Arith.nan = Arith.nan := by
  have hpacked : (x + Arith.nan).toBits.toNat = (UnpackedFloat.pack Format.binary64
      (UnpackedFloat.add Format.binary64 x.toModel.unpack .notANumber)).toNat := rfl
  apply eq_of_toNat
  rw [hpacked]
  cases x.toModel.unpack <;> rfl

theorem uniformOf_of_overflow (hlo : lo.isFinite = true) (hhi : hi.isFinite = true) (h : lo < hi) (hd : (hi - lo).isFinite = false)
    (w : UInt64) : uniformOf lo hi w = if w < 2048 then Arith.nan else Arith.infinity := by
  rw [uniformOf, eq_infinity_of_overflow hlo hhi h hd, unit_mul_infinity]
  split_ifs
  · exact add_nan lo
  · exact add_infinity hlo

end

/-! ## Draws -/

section
variable {σ : Type} [Entropy σ] {lo hi : Float}

theorem run_uniform (hlo : lo.isFinite = true) (hhi : hi.isFinite = true) (h : lo < hi) {m : Machine Float σ} {w : UInt64} {x : σ}
    {log : List LogLine} (hfill : Entropy.fill m.source 8 = ⟨.ok (Bytes.ofWord w), x, log⟩) :
    ∃ m', (Draw.uniform lo hi).run m = (.value (uniformOf lo hi w), m') ∧ m'.source = x ∧ m.Uses m' 8 log [] := by
  have hvalid : (Arith.isFinite lo && Arith.isFinite hi && !decide (hi ≤ lo)) = true := by
    have hle : ¬ hi ≤ lo := by
      rw [le_iff_value hhi hlo, not_le, ← lt_iff_value hlo hhi]
      exact h
    have hlo : Arith.isFinite lo = true := hlo
    have hhi : Arith.isFinite hi = true := hhi
    simp [hlo, hhi, hle]
  obtain ⟨m', hrun, hsource, huses⟩ := Draw.run_unit hfill fun u => Draw.done (lo + u * (hi - lo))
  refine ⟨m', ?_, hsource, huses⟩
  rw [Draw.uniform, Draw.require, if_pos hvalid]
  exact hrun

/-- **Uniform draws stay within their bounds, the upper one included.** Let the bounds be finite and in order.
- A draw reads eight bytes and returns the number `lo + u * (hi - lo)` of their word, each operation rounded.
- If the difference of the bounds does not overflow, every word's number is finite, no less than the lower bound and no more than the
  upper one, and a larger word's number is no smaller. So the upper bound is kept out, for all words, exactly if the largest word
  keeps it out.
- From zero, the upper bound is kept out if it is above the least normal magnitude.
- If the difference overflows, no word has a finite number: words below 2048, whose unit number is zero, give none at all, and the
  others give infinity. -/
theorem uniform_within_closed (hlo : lo.isFinite = true) (hhi : hi.isFinite = true) (h : lo < hi) :
    (∀ (m : Machine Float σ) (w : UInt64) (x : σ) (log : List LogLine),
      Entropy.fill m.source 8 = ⟨.ok (Bytes.ofWord w), x, log⟩ →
      ∃ m', (Draw.uniform lo hi).run m = (.value (uniformOf lo hi w), m') ∧ m'.source = x ∧ m.Uses m' 8 log []) ∧
    ((hi - lo).isFinite = true →
      (∀ w, (uniformOf lo hi w).isFinite = true ∧ lo ≤ uniformOf lo hi w ∧ uniformOf lo hi w ≤ hi) ∧
      (∀ v w, v ≤ w → uniformOf lo hi v ≤ uniformOf lo hi w) ∧
      ((∀ w, uniformOf lo hi w < hi) ↔ uniformOf lo hi topWord < hi)) ∧
    (value lo = 0 → 2 ^ (-1022 : ℤ) < value hi → ∀ w, uniformOf lo hi w < hi) ∧
    ((hi - lo).isFinite = false → ∀ w, uniformOf lo hi w = if w < 2048 then Arith.nan else Arith.infinity) := by
  refine ⟨fun m w x log hfill => run_uniform hlo hhi h hfill, fun hd => ⟨?_, ?_, ?_⟩, ?_, ?_⟩
  · exact uniformOf_mem hlo hhi h hd
  · intro v w hvw
    exact uniformOf_mono hlo hhi h hd hvw
  · exact uniformOf_lt_iff hlo hhi h hd
  · exact uniformOf_zero_lt hlo hhi
  · exact uniformOf_of_overflow hlo hhi h

end

/-- from minus one to two and from zero to one the upper bound is kept out; between the ends of the finite numbers nothing is drawn -/
theorem uniform_within_closed_three_pairs :
    ((∀ w, (-1.0 : Float) ≤ uniformOf (-1.0) 2.0 w ∧ uniformOf (-1.0) 2.0 w < 2.0) ∧
      ∃ m', (Draw.uniform (-1.0) 2.0).run
        ({ source := Replay.ofWords [0xc000000000000000], keepsSpare := true } : Machine Float Replay) = (.value 1.25, m') ∧
        m'.consumed = 8) ∧
    (∀ w, uniformOf 0.0 1.0 w < 1.0) ∧
    ∀ w, uniformOf (-1.7976931348623157e308) 1.7976931348623157e308 w = if w < 2048 then Arith.nan else Arith.infinity := by
  refine ⟨?_, ?_, ?_⟩
  · obtain ⟨hrun, hwithin, -, -⟩ := @uniform_within_closed Replay _ (-1.0) 2.0 (by decide) (by decide) (by decide)
    obtain ⟨hmem, -, hlt⟩ := hwithin (by decide)
    refine ⟨fun w => ⟨(hmem w).2.1, hlt.2 (by decide +kernel) w⟩, ?_⟩
    obtain ⟨m', hvalue, -, huses⟩ := hrun { source := Replay.ofWords [0xc000000000000000], keepsSpare := true }
      0xc000000000000000 _ [] rfl
    have hnumber : uniformOf (-1.0) 2.0 0xc000000000000000 = 1.25 := by decide +kernel
    rw [hnumber] at hvalue
    exact ⟨m', hvalue, huses.consumed⟩
  · obtain ⟨-, -, hzero, -⟩ := @uniform_within_closed Replay _ 0.0 1.0 (by decide) (by decide) (by decide)
    apply hzero (value_of_ordinal_zero (by decide))
    rw [value_one]
    exact zpow_lt_one_of_neg₀ (by norm_num) (by norm_num)
  · obtain ⟨-, -, -, hoverflow⟩ := @uniform_within_closed Replay _ (-1.7976931348623157e308)
      1.7976931348623157e308 (by decide +kernel) (by decide +kernel) (by decide +kernel)
    exact hoverflow (by decide +kernel)

/-- **The upper bound is not kept out.** Between one and its neighbour, the only number below the upper bound is one, but the largest
word gives the upper bound; and between the two ends of the finite numbers it gives infinity. -/
theorem uniform_reaches_upper :
    ((1.0 : Float) < 1.0000000000000002 ∧
      ((Draw.uniform 1.0 1.0000000000000002).run
        ({ source := Replay.ofWords [topWord], keepsSpare := true } : Machine Float Replay)).1 = .value 1.0000000000000002) ∧
    ((-1.7976931348623157e308 : Float) < 1.7976931348623157e308 ∧
      ((Draw.uniform (-1.7976931348623157e308) 1.7976931348623157e308).run
        ({ source := Replay.ofWords [topWord], keepsSpare := true } : Machine Float Replay)).1 = .value Arith.infinity) := by
  decide +kernel

end Sampling
