/-
Binary64 arithmetic computes nearest magnitudes.

Products, quotients, sums and differences of magnitudes are rounded to the nearest magnitude, and so are whole numbers; below
`2 ^ 53` whole numbers and their sums are exact. Magnitudes are compared by their words, so what is known of nearest magnitudes,
above all that they grow with the number, decides comparisons of computed numbers.
-/
import Sampling.Proofs.Packing
import Sampling.Rounding

namespace Sampling.Binary64

open Float.Model Float.Model.UnpackedFloat

/-! ## Operations -/

section
variable {x y : Float} {v w : ℕ} {s : Sign}

theorem unpack_word (hx : x.toBits.toNat = v) (h0 : v ≠ 0) (h : v < infinite) :
    x.toModel.unpack = .finite .positive (mantissa v) (exponent v) (mantissa_pos h0) :=
  unpack_finite (s := .positive) (hx.trans (Nat.zero_add v).symm) h0 h

theorem unpack_word_infinite (hx : x.toBits.toNat = infinite) : x.toModel.unpack = .infinity .positive :=
  unpack_infinite (s := .positive) (hx.trans (Nat.zero_add _).symm)

theorem eq_of_toNat (h : x.toBits.toNat = y.toBits.toNat) : x = y := by
  obtain ⟨⟨a, ha⟩⟩ := x
  obtain ⟨⟨b, hb⟩⟩ := y
  obtain rfl : a = b := UInt64.toNat_inj.1 h
  rfl

theorem exists_signWord (x : Float) : ∃ s v, x.toModel.toBits.toBitVec.toNat = signWord s + v ∧ v < 2 ^ 63 := by
  have hlt : x.toModel.toBits.toBitVec.toNat < 2 ^ 64 := x.toModel.toBits.toBitVec.isLt
  rcases Nat.lt_or_ge x.toModel.toBits.toBitVec.toNat (2 ^ 63) with h | h
  · exact ⟨.positive, _, (Nat.zero_add _).symm, h⟩
  · obtain ⟨v, hv⟩ := Nat.le.dest h
    exact ⟨.negative, v, hv.symm, by omega⟩

theorem roomy_mul (v w : ℕ) (hv0 : v ≠ 0) (hw0 : w ≠ 0) : Roomy (mantissa v * mantissa w) (exponent v + exponent w) := by
  have hv := mantissa_pos hv0
  have hw := mantissa_pos hw0
  have hfull : 2 ^ 52 ≤ mantissa v * mantissa w → Roomy (mantissa v * mantissa w) (exponent v + exponent w) := fun h =>
    Or.inl ((Nat.le_log2 (Nat.mul_pos hv hw).ne').2 h)
  rcases (canonical_word v).full with hm | he
  · exact hfull (hm.trans (Nat.le_mul_of_pos_right _ hw))
  · rcases (canonical_word w).full with hm | he'
    · exact hfull (hm.trans (Nat.le_mul_of_pos_left _ hv))
    · exact Or.inr (by omega)

theorem toNat_pack_mul (s : Sign) (hv0 : v ≠ 0) (hw0 : w ≠ 0) :
    (UnpackedFloat.pack Format.binary64 (roundWithAccuracy Format.binary64 s (mantissa v * mantissa w) (exponent v + exponent w)
      .exact)).toNat = signWord s + nearest (number v * number w) := by
  have hpos : (0 : ℚ) < (mantissa v * mantissa w : ℕ) := by
    exact_mod_cast Nat.mul_pos (mantissa_pos hv0) (mantissa_pos hw0)
  have hvalue : ((mantissa v * mantissa w : ℕ) : ℚ) * 2 ^ (exponent v + exponent w) = number v * number w := by
    rw [number, number, zpow_add₀ (by norm_num), Nat.cast_mul]
    ring
  rw [toNat_pack_roundWithAccuracy _ (liesAt_exact _) hpos (roomy_mul v w hv0 hw0), hvalue]

theorem toNat_mul (hx : x.toBits.toNat = v) (hv0 : v ≠ 0) (hv : v < infinite) (hy : y.toBits.toNat = w) (hw0 : w ≠ 0)
    (hw : w < infinite) : (x * y).toBits.toNat = nearest (number v * number w) := by
  have hunpacked : (x * y).toBits.toNat =
      (UnpackedFloat.pack Format.binary64 (UnpackedFloat.mul Format.binary64 x.toModel.unpack y.toModel.unpack)).toNat := rfl
  rw [hunpacked, unpack_word hx hv0 hv, unpack_word hy hw0 hw]
  unfold UnpackedFloat.mul
  exact (toNat_pack_mul .positive hv0 hw0).trans (Nat.zero_add _)

theorem roomy_div {m n : ℕ} (hm : m ≠ 0) (hn : n ≠ 0) {k : ℕ} {e t : ℤ} (ht : t ≤ max (m.log2 - n.log2 + e - 53) (-1074))
    (hk : e - t = k) : Roomy ((m <<< k) / n) t := by
  by_cases hmin : t ≤ -1074
  · exact Or.inr hmin
  · have hlow : m <<< k ≠ 0 := by
      rw [Nat.shiftLeft_eq]
      positivity
    have hbits : n.log2 + 1 + 52 ≤ (m <<< k).log2 := by
      rw [log2_shiftLeft hm]
      omega
    have hquotient : 2 ^ 52 ≤ (m <<< k) / n := by
      rw [Nat.le_div_iff_mul_le (Nat.pos_of_ne_zero hn)]
      calc 2 ^ 52 * n ≤ 2 ^ 52 * 2 ^ (n.log2 + 1) := Nat.mul_le_mul_left _ Nat.lt_log2_self.le
        _ = 2 ^ (n.log2 + 1 + 52) := by rw [Nat.mul_comm, ← Nat.pow_add]
        _ ≤ m <<< k := (Nat.le_log2 hlow).1 hbits
    exact Or.inl ((Nat.le_log2 (by omega)).2 hquotient)

/-- a whole quotient and its remainder make the exact quotient -/
theorem div_add_mod_div (m : ℕ) {n : ℕ} (hn : 0 < n) : ((m / n : ℕ) : ℚ) + (m % n : ℕ) / n = m / n := by
  have hsplit : ((m % n : ℕ) : ℚ) + n * (m / n : ℕ) = m := by exact_mod_cast Nat.mod_add_div m n
  rw [eq_div_iff (by positivity), ← hsplit, add_mul, div_mul_cancel₀ _ (by positivity)]
  ring

theorem roundQuotient_eq_nearestEven (num : ℕ) {den : ℕ} (h : 0 < den) :
    (roundQuotient num den : ℤ) = nearestEven (num / den) := by
  have hden : (0 : ℚ) < den := by exact_mod_cast h
  have hfloor : ⌊(num / den : ℚ)⌋ = (num / den : ℕ) := Rat.floor_natCast_div_natCast num den
  have hrest : (num / den : ℚ) - (num / den : ℕ) = (num % den : ℕ) / den := by rw [← div_add_mod_div num h, add_sub_cancel_left]
  have hbelow : ((num % den : ℕ) / den : ℚ) < 1 / 2 ↔ 2 * (num % den) < den := by
    rw [div_lt_div_iff₀ hden two_pos, one_mul, mul_comm]
    exact_mod_cast Iff.rfl
  have habove : (1 / 2 : ℚ) < (num % den : ℕ) / den ↔ den < 2 * (num % den) := by
    rw [div_lt_div_iff₀ two_pos hden, one_mul, mul_comm _ (2 : ℚ)]
    exact_mod_cast Iff.rfl
  unfold roundQuotient nearestEven
  rw [hfloor]
  simp only [Int.cast_natCast, hrest, hbelow, habove]
  split_ifs with hlt hgt heven
  · rfl
  · push_cast
    rfl
  · omega
  · omega

theorem toNat_pack_div (s : Sign) (hv0 : v ≠ 0) (hw0 : w ≠ 0) {m : ℕ} {e : ℤ} {a : Accuracy}
    (h : divCore Format.binary64 (mantissa v) (exponent v) (mantissa w) (exponent w) = (m, e, a)) :
    (UnpackedFloat.pack Format.binary64 (roundWithAccuracy Format.binary64 s m e a)).toNat =
      signWord s + nearest (number v / number w) := by
  have hm := mantissa_pos hv0
  have hn := mantissa_pos hw0
  unfold divCore at h
  dsimp only at h
  rw [targetExponent_eq, totalExponent, totalExponent] at h
  generalize ht : min (exponent v - exponent w) (max (_ - 53) (-1074)) = t at h
  obtain ⟨k, hk⟩ := Int.le.dest (show t ≤ exponent v - exponent w from ht ▸ min_le_left _ _)
  have hnat : (exponent v - exponent w - t).toNat = k := by omega
  rw [hnat, Prod.mk.injEq, Prod.mk.injEq] at h
  obtain ⟨rfl, rfl, rfl⟩ := h
  have hroom : Roomy ((mantissa v <<< k) / mantissa w) t :=
    roomy_div (e := exponent v - exponent w) hm.ne' hn.ne' (by omega) (by omega)
  have hlies := liesAt_fraction ((mantissa v <<< k) / mantissa w) (Nat.mod_lt (mantissa v <<< k) hn)
  rw [div_add_mod_div _ hn, Nat.shiftLeft_eq, Nat.cast_mul, Nat.cast_pow, Nat.cast_ofNat] at hlies
  have hvalue : (mantissa v : ℚ) * 2 ^ k / mantissa w * 2 ^ t = number v / number w := by
    rw [number, number, mul_div_mul_comm, ← zpow_sub₀ (by norm_num), ← hk, zpow_add₀ (by norm_num), zpow_natCast]
    ring
  rw [Nat.shiftLeft_eq] at hroom ⊢
  rw [toNat_pack_roundWithAccuracy _ hlies (by positivity) hroom, hvalue]

theorem toNat_div (hx : x.toBits.toNat = v) (hv0 : v ≠ 0) (hv : v < infinite) (hy : y.toBits.toNat = w) (hw0 : w ≠ 0)
    (hw : w < infinite) : (x / y).toBits.toNat = nearest (number v / number w) := by
  have hunpacked : (x / y).toBits.toNat =
      (UnpackedFloat.pack Format.binary64 (UnpackedFloat.div Format.binary64 x.toModel.unpack y.toModel.unpack)).toNat := rfl
  rw [hunpacked, unpack_word hx hv0 hv, unpack_word hy hw0 hw]
  unfold UnpackedFloat.div
  exact (toNat_pack_div .positive hv0 hw0 rfl).trans (Nat.zero_add _)

theorem toNat_infinite_div (hx : x.toBits.toNat = infinite) (hy : y.toBits.toNat = w) (hw0 : w ≠ 0) (hw : w < infinite) :
    (x / y).toBits.toNat = infinite := by
  have hunpacked : (x / y).toBits.toNat =
      (UnpackedFloat.pack Format.binary64 (UnpackedFloat.div Format.binary64 x.toModel.unpack y.toModel.unpack)).toNat := rfl
  rw [hunpacked, unpack_word_infinite hx, unpack_word hy hw0 hw]
  rfl

/-- mantissas are brought to the smaller exponent before they are added -/
theorem decreaseExponent_value (w : ℕ) {t : ℤ} (h : t ≤ exponent w) :
    ((decreaseExponent (mantissa w) (exponent w) t).1 : ℚ) * 2 ^ t = number w := by
  obtain ⟨k, hk⟩ := Int.le.dest h
  have hnat : (exponent w - t).toNat = k := by omega
  rw [decreaseExponent, hnat, Nat.shiftLeft_eq, number, ← hk, zpow_add₀ (by norm_num), zpow_natCast]
  push_cast
  ring

theorem toNat_add (hx : x.toBits.toNat = v) (hv0 : v ≠ 0) (hv : v < infinite) (hy : y.toBits.toNat = w) (hw0 : w ≠ 0)
    (hw : w < infinite) : (x + y).toBits.toNat = nearest (number v + number w) := by
  have hunpacked : (x + y).toBits.toNat =
      (UnpackedFloat.pack Format.binary64 (UnpackedFloat.add Format.binary64 x.toModel.unpack y.toModel.unpack)).toNat := rfl
  rw [hunpacked, unpack_word hx hv0 hv, unpack_word hy hw0 hw]
  unfold UnpackedFloat.add
  dsimp only [Sign.apply]
  refine toNat_pack_normalize (add_pos (number_pos hv0) (number_pos hw0)) ?_
  push_cast
  rw [add_mul, decreaseExponent_value v (min_le_left _ _), decreaseExponent_value w (min_le_right _ _)]

theorem toNat_sub (hx : x.toBits.toNat = v) (hv : v < infinite) (hy : y.toBits.toNat = w) (hw0 : w ≠ 0) (hlt : w < v) :
    (x - y).toBits.toNat = nearest (number v - number w) := by
  have hunpacked : (x - y).toBits.toNat =
      (UnpackedFloat.pack Format.binary64 (UnpackedFloat.sub Format.binary64 x.toModel.unpack y.toModel.unpack)).toNat := rfl
  rw [hunpacked, unpack_word hx (by omega) hv, unpack_word hy hw0 (hlt.trans hv)]
  unfold UnpackedFloat.sub
  dsimp only [Sign.apply]
  refine toNat_pack_normalize (sub_pos.2 (number_strictMono hlt)) ?_
  push_cast
  rw [sub_mul, decreaseExponent_value v (min_le_left _ _), decreaseExponent_value w (min_le_right _ _)]

theorem toNat_infinite_sub (hx : x.toBits.toNat = infinite) (hy : y.toBits.toNat = w) (hw0 : w ≠ 0) (hw : w < infinite) :
    (x - y).toBits.toNat = infinite := by
  have hunpacked : (x - y).toBits.toNat =
      (UnpackedFloat.pack Format.binary64 (UnpackedFloat.sub Format.binary64 x.toModel.unpack y.toModel.unpack)).toNat := rfl
  rw [hunpacked, unpack_word_infinite hx, unpack_word hy hw0 hw]
  rfl

theorem zero_add_word (hx : x.toModel.unpack = .zero s) (hy : y.toBits.toNat = w) (hw0 : w ≠ 0) (hw : w < infinite) :
    x + y = y := by
  have hunpacked : (x + y).toBits.toNat =
      (UnpackedFloat.pack Format.binary64 (UnpackedFloat.add Format.binary64 x.toModel.unpack y.toModel.unpack)).toNat := rfl
  refine eq_of_toNat ?_
  rw [hunpacked, hx, unpack_word hy hw0 hw, hy]
  exact toNat_pack_word hw0 hw

theorem add_zero_word (hx : x.toModel.unpack = .zero s) (hy : y.toBits.toNat = w) (hw0 : w ≠ 0) (hw : w < infinite) :
    y + x = y := by
  have hunpacked : (y + x).toBits.toNat =
      (UnpackedFloat.pack Format.binary64 (UnpackedFloat.add Format.binary64 y.toModel.unpack x.toModel.unpack)).toNat := rfl
  refine eq_of_toNat ?_
  rw [hunpacked, hx, unpack_word hy hw0 hw, hy]
  exact toNat_pack_word hw0 hw

end

/-! ## Whole numbers -/

theorem number_one : number 0x3ff0000000000000 = 1 := by
  rw [number, mantissa, exponent, if_neg (by norm_num), if_neg (by norm_num)]
  norm_num

theorem nearest_zero : nearest 0 = 0 := if_pos le_rfl

theorem nearest_natCast_pos {n : ℕ} (hn : 0 < n) : nearest (n : ℚ) ≠ 0 := by
  have hone : (1 : ℚ) ≤ n := by exact_mod_cast hn
  have hmono := nearest_mono hone
  rw [← number_one, nearest_number (by decide)] at hmono
  omega

/-- a short whole number is its integer times one -/
theorem toNat_ofNat_of_lt {n : ℕ} (hn : 0 < n) (h : n < 2 ^ 53) : (Float.ofNat n).toBits.toNat = nearest n := by
  have hscientific : Float.ofNat n = n.toUInt64.toFloat * Float.ofBits 0x3ff0000000000000 := dif_pos ⟨h, by decide⟩
  have hfactor : (n.toUInt64.toFloat).toBits.toNat = nearest n := by
    have hnat : n.toUInt64.toNat = n := UInt64.toNat_ofNat_of_lt' (h.trans (by decide))
    have hpacked : (n.toUInt64.toFloat).toBits.toNat = (UnpackedFloat.pack Format.binary64
        (UnpackedFloat.normalize Format.binary64 (n.toUInt64.toNat : ℤ) 0 .positive)).toNat := rfl
    rw [hpacked, hnat]
    exact toNat_pack_normalize (by exact_mod_cast hn) (by rw [zpow_zero, mul_one, Int.cast_natCast])
  obtain ⟨hnumber, hfinite⟩ := number_nearest_natCast h
  have hone : number (Float.ofBits 0x3ff0000000000000).toBits.toNat = 1 := number_one
  rw [hscientific, toNat_mul hfactor (nearest_natCast_pos hn) hfinite rfl (by decide) (by decide), hnumber, hone, mul_one]

/-- a long one is given spare bits and rounded -/
theorem toNat_ofNat_of_ge {n : ℕ} (h : 2 ^ 53 ≤ n) : (Float.ofNat n).toBits.toNat = nearest n := by
  have hn : n ≠ 0 := by omega
  have hscientific : (Float.ofNat n).toBits.toNat =
      (UnpackedFloat.pack Format.binary64 (UnpackedFloat.ofScientific Format.binary64 n 0)).toNat :=
    congrArg (fun x : Float => x.toBits.toNat) (dif_neg fun hlt => not_lt.2 h hlt.1)
  have hroom : Roomy (n <<< 53 * 1) (-53 + 0) := by
    left
    rw [Nat.mul_one, log2_shiftLeft hn]
    omega
  have hpos : (0 : ℚ) < (n <<< 53 * 1 : ℕ) := by
    rw [Nat.shiftLeft_eq]
    positivity
  have hvalue : ((n <<< 53 * 1 : ℕ) : ℚ) * 2 ^ (-53 + 0 : ℤ) = n := by
    rw [Nat.shiftLeft_eq]
    push_cast
    norm_num
    ring
  have hbelow : ¬ (0 : ℤ) < -((2 : ℤ) ^ Format.binary64.exponentBits + n.log2) := by
    rw [show (2 : ℤ) ^ Format.binary64.exponentBits = 2048 from rfl]
    omega
  rw [hscientific, UnpackedFloat.ofScientific, dif_neg hn, if_neg (by decide), if_neg hbelow, if_pos le_rfl]
  unfold UnpackedFloat.mul
  exact (toNat_pack_roundWithAccuracy .positive (liesAt_exact _) hpos hroom).trans (by rw [hvalue]; exact Nat.zero_add _)

/-- **Whole numbers** are rounded. -/
theorem toNat_ofNat (n : ℕ) : (Float.ofNat n).toBits.toNat = nearest n := by
  rcases Nat.eq_zero_or_pos n with rfl | hn
  · rw [Nat.cast_zero, nearest_zero]
    rfl
  · rcases Nat.lt_or_ge n (2 ^ 53) with h | h
    · exact toNat_ofNat_of_lt hn h
    · exact toNat_ofNat_of_ge h

/-- sums of whole numbers below `2 ^ 53` are exact -/
theorem ofNat_add_ofNat {m n : ℕ} (h : m + n < 2 ^ 53) : Float.ofNat m + Float.ofNat n = Float.ofNat (m + n) := by
  have hzero : (Float.ofNat 0).toModel.unpack = .zero .positive := unpack_zero (s := .positive) rfl
  obtain ⟨hnumber, hfinite⟩ := number_nearest_natCast (show m < 2 ^ 53 by omega)
  obtain ⟨hnumber', hfinite'⟩ := number_nearest_natCast (show n < 2 ^ 53 by omega)
  rcases Nat.eq_zero_or_pos m with rfl | hm
  · rcases Nat.eq_zero_or_pos n with rfl | hn
    · rfl
    · rw [Nat.zero_add]
      exact zero_add_word hzero (toNat_ofNat n) (nearest_natCast_pos hn) hfinite'
  · rcases Nat.eq_zero_or_pos n with rfl | hn
    · exact add_zero_word hzero (toNat_ofNat m) (nearest_natCast_pos hm) hfinite
    · refine eq_of_toNat ?_
      rw [toNat_add (toNat_ofNat m) (nearest_natCast_pos hm) hfinite (toNat_ofNat n) (nearest_natCast_pos hn) hfinite', hnumber,
        hnumber', toNat_ofNat, Nat.cast_add]

/-! ## Order -/

/-- words are ordered by exponents first, then by mantissas -/
theorem lex_of_lt {v w : ℕ} (h : v < w) : exponent v < exponent w ∨ exponent v = exponent w ∧ mantissa v < mantissa w := by
  have hv := word_mantissa_exponent v
  have hw := word_mantissa_exponent w
  obtain ⟨hlt, hmin, hfull⟩ := canonical_word v
  obtain ⟨hlt', hmin', hfull'⟩ := canonical_word w
  unfold word at hv hw
  omega

theorem compare_lex (v w : ℕ) :
    (compare (exponent v) (exponent w)).then (compare (mantissa v) (mantissa w)) = compare v w := by
  rcases Nat.lt_trichotomy v w with h | rfl | h
  · rw [Nat.compare_eq_lt.2 h]
    rcases lex_of_lt h with he | ⟨he, hm⟩
    · rw [Int.compare_eq_lt.2 he]
      rfl
    · rw [he, Int.compare_eq_eq.2 rfl, Nat.compare_eq_lt.2 hm]
      rfl
  · rw [Int.compare_eq_eq.2 rfl, Nat.compare_eq_eq.2 rfl, Nat.compare_eq_eq.2 rfl]
    rfl
  · rw [Nat.compare_eq_gt.2 h]
    rcases lex_of_lt h with he | ⟨he, hm⟩
    · rw [Int.compare_eq_gt.2 he]
      rfl
    · rw [← he, Int.compare_eq_eq.2 rfl, Nat.compare_eq_gt.2 hm]
      rfl

section
variable {x y : Float} {v w : ℕ}

theorem compare_word (hx : x.toBits.toNat = v) (hv : v ≤ infinite) (hy : y.toBits.toNat = w) (hw : w ≤ infinite) :
    x.toModel.unpack.compare y.toModel.unpack = some (compare v w) := by
  have hx : x.toModel.toBits.toBitVec.toNat = signWord .positive + v := hx.trans (Nat.zero_add v).symm
  have hy : y.toModel.toBits.toBitVec.toNat = signWord .positive + w := hy.trans (Nat.zero_add w).symm
  unfold Float.Model.unpack
  rcases unpack_cases hx hv with ⟨rfl, hx'⟩ | ⟨hv0, hv', hx'⟩ | ⟨rfl, hx'⟩ <;>
    rcases unpack_cases hy hw with ⟨rfl, hy'⟩ | ⟨hw0, hw', hy'⟩ | ⟨rfl, hy'⟩ <;>
    rw [hx', hy']
  · rfl
  · rw [Nat.compare_eq_lt.2 (Nat.pos_of_ne_zero hw0)]
    rfl
  · rfl
  · rw [Nat.compare_eq_gt.2 (Nat.pos_of_ne_zero hv0)]
    rfl
  · rw [← compare_lex]
    rfl
  · rw [Nat.compare_eq_lt.2 hv']
    rfl
  · rfl
  · rw [Nat.compare_eq_gt.2 hw']
    rfl
  · rfl

theorem le_iff_compare (x y : Float) : x ≤ y ↔ (x.toModel.unpack.compare y.toModel.unpack).any (·.isLE) = true :=
  decide_eq_true_iff

theorem lt_iff_compare (x y : Float) : x < y ↔ (x.toModel.unpack.compare y.toModel.unpack == some .lt) = true :=
  decide_eq_true_iff

theorem le_iff_word_le (hx : x.toBits.toNat = v) (hv : v ≤ infinite) (hy : y.toBits.toNat = w) (hw : w ≤ infinite) :
    x ≤ y ↔ v ≤ w := by
  rw [le_iff_compare, compare_word hx hv hy hw, Option.any_some, Nat.isLE_compare]

theorem lt_iff_word_lt (hx : x.toBits.toNat = v) (hv : v ≤ infinite) (hy : y.toBits.toNat = w) (hw : w ≤ infinite) :
    x < y ↔ v < w := by
  rw [lt_iff_compare, compare_word hx hv hy hw, beq_iff_eq, Option.some.injEq, Nat.compare_eq_lt]

/-- what is at least a positive magnitude is a magnitude: no negative number and no missing one is -/
theorem word_le_of_le (hx : x.toBits.toNat = v) (h0 : v ≠ 0) (hv : v < infinite) (h : x ≤ y) : y.toBits.toNat ≤ infinite := by
  rw [le_iff_compare, unpack_word hx h0 hv] at h
  by_contra hgt
  have hlt : y.toModel.toBits.toBitVec.toNat < 2 ^ 64 := y.toModel.toBits.toBitVec.isLt
  have hgt : infinite < y.toModel.toBits.toBitVec.toNat := not_le.1 hgt
  unfold Float.Model.unpack at h
  by_cases hsign : y.toModel.toBits.toBitVec.toNat < 2 ^ 63
  · rw [unpack_nan (s := .positive) (Nat.zero_add _).symm hgt hsign] at h
    cases h
  · obtain ⟨w, hw⟩ := Nat.le.dest (not_lt.1 hsign)
    have hword : y.toModel.toBits.toBitVec.toNat = signWord .negative + w := hw.symm
    rcases Nat.lt_or_ge infinite w with hnan | hle
    · rw [unpack_nan hword hnan (by omega)] at h
      cases h
    · rcases unpack_cases hword hle with ⟨-, hy⟩ | ⟨_, -, hy⟩ | ⟨-, hy⟩ <;> rw [hy] at h <;> cases h

end

end Sampling.Binary64
