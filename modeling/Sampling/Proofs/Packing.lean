/-
Rounding and packing binary64 numbers.

The arithmetic a program runs on shifts mantissas and keeps two bits for what it shifts out. They tell where in the unit above the
mantissa the exact number lies (`LiesAt`), which is all that rounding to the nearest even mantissa needs; so rounding an exact
number and packing it gives the word of the nearest magnitude (`toNat_pack_roundWithAccuracy`). Unpacking a word gives back its
mantissa and exponent (`unpack_cases`).
-/
import Sampling.Proofs.Nearest

namespace Sampling.Binary64

open Float.Model Float.Model.UnpackedFloat

/-! ## What is shifted out -/

/-- an accuracy's reading: the number is the mantissa, or lies below, in or above the middle of the unit from there -/
def LiesAt (m : ℕ) : Accuracy → ℚ → Prop
  | .exact, x => x = m
  | .inexact .lt, x => m < x ∧ x < m + 1 / 2
  | .inexact .eq, x => x = m + 1 / 2
  | .inexact .gt, x => m + 1 / 2 < x ∧ x < m + 1

theorem liesAt_exact (m : ℕ) : LiesAt m .exact m := rfl

theorem LiesAt.floor_eq {m : ℕ} {a : Accuracy} {x : ℚ} (h : LiesAt m a x) : ⌊x⌋ = m := by
  rw [Int.floor_eq_iff, Int.cast_natCast]
  rcases a with _ | _ | _ | _ <;> simp only [LiesAt] at h <;> constructor <;> linarith

theorem LiesAt.round_eq {m : ℕ} {a : Accuracy} {x : ℚ} (h : LiesAt m a x) : (a.roundToNearestEven m : ℤ) = nearestEven x := by
  have hfloor := h.floor_eq
  unfold nearestEven
  rw [hfloor, Int.cast_natCast]
  rcases a with _ | _ | _ | _ <;> simp only [LiesAt] at h
  · rw [if_pos (by linarith)]
    rfl
  · rw [if_pos (by linarith)]
    rfl
  · rw [if_neg (by linarith), if_neg (by linarith)]
    exact Int.natCast_add _ _
  · rw [if_neg (by linarith), if_pos (by linarith)]
    exact Int.natCast_add _ _

theorem mantissa_ofMantissaAndAccuracy (m : ℕ) (a : Accuracy) : (ExtendedMantissa.ofMantissaAndAccuracy m a).mantissa = m := by
  rcases a with _ | _ | _ | _ <;> rfl

theorem accuracy_ofMantissaAndAccuracy (m : ℕ) (a : Accuracy) : (ExtendedMantissa.ofMantissaAndAccuracy m a).accuracy = a := by
  rcases a with _ | _ | _ | _ <;> rfl

theorem liesAt_shiftRightOne {em : ExtendedMantissa} {x : ℚ} (h : LiesAt em.mantissa em.accuracy x) :
    LiesAt em.shiftRightOne.mantissa em.shiftRightOne.accuracy (x / 2) := by
  obtain ⟨m, r, s⟩ := em
  have hsplit := Nat.mod_add_div m 2
  have hcast : ((m % 2 : ℕ) : ℚ) + 2 * ((m / 2 : ℕ) : ℚ) = m := by exact_mod_cast hsplit
  rcases Nat.mod_two_eq_zero_or_one m with hpar | hpar
  · rw [hpar, Nat.cast_zero] at hcast
    cases r <;> cases s <;>
      simp only [ExtendedMantissa.shiftRightOne, ExtendedMantissa.accuracy, LiesAt, hpar, bne_self_eq_false, Bool.or_self,
        Bool.or_true, Bool.or_false] at h ⊢
    · linarith
    all_goals constructor <;> linarith
  · rw [hpar, Nat.cast_one] at hcast
    have hbit : ((1 : ℕ) != 0) = true := rfl
    cases r <;> cases s <;>
      simp only [ExtendedMantissa.shiftRightOne, ExtendedMantissa.accuracy, LiesAt, hpar, hbit, Bool.or_self,
        Bool.or_true, Bool.or_false] at h ⊢
    · linarith
    all_goals constructor <;> linarith

theorem liesAt_shiftRight {em : ExtendedMantissa} {x : ℚ} (h : LiesAt em.mantissa em.accuracy x) (k : ℕ) :
    LiesAt (em >>> k).mantissa (em >>> k).accuracy (x / 2 ^ k) := by
  induction k with
  | zero =>
    rw [pow_zero, div_one]
    exact h
  | succ k ih =>
    have hnext := liesAt_shiftRightOne ih
    rw [div_div, ← pow_succ] at hnext
    exact hnext

/-- a remainder tells where a quotient lies -/
theorem liesAt_fraction (m : ℕ) {num den : ℕ} (h : num < den) : LiesAt m (accuracyOfFraction num den) (m + num / den) := by
  have hden : (0 : ℚ) < den := by exact_mod_cast (Nat.zero_le num).trans_lt h
  have hlt : (num : ℚ) / den < 1 := (div_lt_one hden).2 (by exact_mod_cast h)
  unfold accuracyOfFraction
  by_cases h0 : num = 0
  · rw [if_pos h0, h0, Nat.cast_zero, zero_div, add_zero]
    rfl
  · have hpos : (0 : ℚ) < num / den := div_pos (by exact_mod_cast Nat.pos_of_ne_zero h0) hden
    have htwice : (2 * num : ℕ) = 2 * ((num : ℚ) / den) * den := by
      push_cast
      field_simp
    rw [if_neg h0]
    rcases hcmp : compare (2 * num) den with _ | _ | _
    · have hhalf : ((2 * num : ℕ) : ℚ) < den := by exact_mod_cast Nat.compare_eq_lt.1 hcmp
      rw [htwice] at hhalf
      constructor <;> nlinarith
    · have hhalf : ((2 * num : ℕ) : ℚ) = den := by exact_mod_cast Nat.compare_eq_eq.1 hcmp
      have heq : (num : ℚ) / den = 1 / 2 := by
        rw [← hhalf, Nat.cast_mul, Nat.cast_ofNat]
        field_simp
      simp only [LiesAt, heq]
    · have hhalf : (den : ℚ) < ((2 * num : ℕ) : ℚ) := by exact_mod_cast Nat.compare_eq_gt.1 hcmp
      rw [htwice] at hhalf
      constructor <;> nlinarith

/-! ## Rounding -/

/-- enough bits are there before anything is shifted out -/
def Roomy (m : ℕ) (e : ℤ) : Prop := 52 ≤ m.log2 ∨ e ≤ -1074

theorem targetExponent_eq (n : ℤ) : Format.binary64.targetExponent n = max (n - 53) (-1074) := by
  rfl

/-- mantissas are shifted to the last place of the exact number -/
theorem targetExponent_eq_place {m : ℕ} {e : ℤ} {a : Accuracy} {x : ℚ} (h : LiesAt m a x) (hx : 0 < x) (hroom : Roomy m e) :
    Format.binary64.targetExponent (totalExponent m e) = place (x * 2 ^ e) := by
  have hpos : (0 : ℚ) < x * 2 ^ e := by positivity
  obtain ⟨hlo, hhi⟩ := Int.floor_eq_iff.1 h.floor_eq
  rw [Int.cast_natCast] at hlo hhi
  have hsucc : x < 2 ^ (m.log2 + 1) := hhi.trans_le (by exact_mod_cast Nat.lt_log2_self)
  have hupper : Int.log 2 (x * 2 ^ e) < m.log2 + 1 + e := by
    refine (Int.lt_zpow_iff_log_lt (by norm_num) hpos).1 ?_
    rw [Nat.cast_ofNat, zpow_add₀ (by norm_num)]
    exact mul_lt_mul_of_pos_right (by exact_mod_cast hsucc) (by positivity)
  rw [targetExponent_eq, totalExponent, place]
  by_cases hbits : 52 ≤ m.log2
  · have hm : m ≠ 0 := by
      rintro rfl
      simp at hbits
    have hself : (2 : ℚ) ^ m.log2 ≤ x := le_trans (by exact_mod_cast Nat.log2_self_le hm) hlo
    have hlower : m.log2 + e ≤ Int.log 2 (x * 2 ^ e) := by
      refine (Int.zpow_le_iff_le_log (by norm_num) hpos).1 ?_
      rw [Nat.cast_ofNat, zpow_add₀ (by norm_num)]
      exact mul_le_mul_of_nonneg_right (by exact_mod_cast hself) (by positivity)
    omega
  · have hmin := hroom.resolve_left hbits
    omega

/-! ## Packing -/

def signWord : Sign → ℕ
  | .negative => 2 ^ 63
  | .positive => 0

theorem toNat_packComponents (s : Sign) (e : BitVec 11) (m : BitVec 52) :
    (packComponents Format.binary64 s e m).toNat = signWord s + e.toNat * 2 ^ 52 + m.toNat := by
  have hm := m.isLt
  have he := e.isLt
  rw [packComponents, BitVec.toNat_append, ← Nat.shiftLeft_add_eq_or_of_lt hm, BitVec.toNat_append,
    ← Nat.shiftLeft_add_eq_or_of_lt he, Nat.shiftLeft_eq, Nat.shiftLeft_eq]
  cases s <;> simp only [Sign.toBitVec, signWord, BitVec.toNat_ofNat] <;> omega

theorem toNat_packedInfinity (s : Sign) : (packedInfinity Format.binary64 s).toNat = signWord s + infinite := by
  cases s <;> rfl

theorem toNat_packedZero (s : Sign) : (packedZero Format.binary64 s).toNat = signWord s := by
  cases s <;> rfl

/-- packing a canonical number: its sign, and its place among the magnitudes, at most infinity's -/
theorem toNat_pack_finite (s : Sign) {m : ℕ} {e : ℤ} (hm : 0 < m) (h : Canonical m e) :
    (UnpackedFloat.pack Format.binary64 (.finite s m e hm)).toNat = signWord s + min (word m e) infinite := by
  obtain ⟨hlt, hmin, hfull⟩ := h
  have hbiased : (e + Format.binary64.exponentBias + Format.binary64.mantissaBitsWithoutImplicit).toNat = (e + 1075).toNat := by
    rw [show (Format.binary64.exponentBias : ℤ) = 1023 from rfl,
      show (Format.binary64.mantissaBitsWithoutImplicit : ℤ) = 52 from rfl, Int.add_assoc]
    rfl
  unfold UnpackedFloat.pack
  dsimp only
  rw [hbiased]
  unfold word infinite
  split_ifs with hover hbits
  · rw [toNat_packedInfinity, infinite]
    omega
  · have hlog : m.log2 = 52 := by
      rw [show Format.binary64.mantissaBits = 53 from rfl] at hbits
      omega
    have hlo : 2 ^ 52 ≤ m := (Nat.le_log2 hm.ne').1 hlog.ge
    rw [toNat_packComponents, BitVec.toNat_ofNat, BitVec.toNat_ofNat]
    omega
  · have hlog : m.log2 < 52 := by
      have hle := (Nat.log2_lt hm.ne').2 hlt
      rw [show Format.binary64.mantissaBits = 53 from rfl] at hbits
      omega
    have hhi : m < 2 ^ 52 := (Nat.log2_lt hm.ne').1 hlog
    rw [toNat_packComponents, BitVec.toNat_ofNat, BitVec.toNat_ofNat]
    omega

/-! ## Unpacking -/

theorem toNat_unpackMantissa (b : BitVec 64) : (@unpackMantissa Format.binary64 b).toNat = b.toNat % 2 ^ 52 := by
  rw [unpackMantissa, BitVec.toNat_cast, BitVec.extractLsb_toNat]
  rfl

theorem toNat_unpackExponent (b : BitVec 64) :
    (@unpackExponent Format.binary64 b).toNat = b.toNat / 2 ^ 52 % 2 ^ 11 := by
  rw [unpackExponent, BitVec.toNat_cast, BitVec.extractLsb_toNat, Nat.shiftRight_eq_div_pow]
  rfl

theorem toNat_unpackSign (b : BitVec 64) : (@unpackSign Format.binary64 b).toNat = b.toNat / 2 ^ 63 := by
  have hlt := b.isLt
  unfold unpackSign
  rw [BitVec.toNat_cast, BitVec.extractLsb_toNat, Nat.shiftRight_eq_div_pow]
  show b.toNat / 2 ^ 63 % 2 ^ 1 = b.toNat / 2 ^ 63
  omega

theorem signWord_cases (s : Sign) : signWord s = 0 ∨ signWord s = 2 ^ 63 := by
  cases s
  · exact Or.inr rfl
  · exact Or.inl rfl

theorem sign_of_word {b : BitVec 64} {s : Sign} {w : ℕ} (hb : b.toNat = signWord s + w) (h : w ≤ infinite) :
    Sign.ofBitVec (@unpackSign Format.binary64 b) = s := by
  have hsign : (@unpackSign Format.binary64 b).toNat = signWord s / 2 ^ 63 := by
    unfold infinite at h
    rw [toNat_unpackSign, hb]
    rcases signWord_cases s with hs | hs <;> omega
  have hvec : @unpackSign Format.binary64 b = s.toBitVec := by
    refine BitVec.eq_of_toNat_eq ?_
    rw [hsign]
    cases s <;> rfl
  rw [hvec]
  cases s <;> rfl

theorem finite_congr {s s' : Sign} {m m' : ℕ} {e e' : ℤ} (hs : s = s') (hm : m = m') (he : e = e') (h : 0 < m) (h' : 0 < m') :
    UnpackedFloat.finite s m e h = .finite s' m' e' h' := by
  subst hs hm he
  rfl

theorem toNat_fields {b : BitVec 64} {s : Sign} {w : ℕ} (hb : b.toNat = signWord s + w) (h : w < 2 ^ 63) :
    (@unpackExponent Format.binary64 b).toNat = w / 2 ^ 52 ∧ (@unpackMantissa Format.binary64 b).toNat = w % 2 ^ 52 := by
  rw [toNat_unpackExponent, toNat_unpackMantissa, hb]
  rcases signWord_cases s with hs | hs <;> omega

/-- a word below infinity's, other than zero's, is unpacked into its mantissa and exponent -/
theorem unpack_finite {b : BitVec 64} {s : Sign} {w : ℕ} (hb : b.toNat = signWord s + w) (h0 : w ≠ 0) (h : w < infinite) :
    unpack Format.binary64 b = .finite s (mantissa w) (exponent w) (mantissa_pos h0) := by
  have hsign := sign_of_word hb h.le
  have hlt : w < 2047 * 2 ^ 52 := h
  obtain ⟨hexp, hman⟩ := toNat_fields hb (by omega)
  have hnot : @unpackExponent Format.binary64 b ≠ -1#_ := by
    intro heq
    rw [heq, show (-1#_ : BitVec Format.binary64.exponentBits).toNat = 2047 from rfl] at hexp
    omega
  unfold UnpackedFloat.unpack
  dsimp only
  rw [if_neg hnot]
  by_cases hsmall : w < 2 ^ 52
  · have hzero : @unpackExponent Format.binary64 b = 0#_ := by
      refine BitVec.eq_of_toNat_eq ?_
      rw [hexp]
      exact Nat.div_eq_of_lt hsmall
    have hmne : @unpackMantissa Format.binary64 b ≠ 0#_ := by
      intro heq
      rw [heq, show (0#_ : BitVec Format.binary64.mantissaBitsWithoutImplicit).toNat = 0 from rfl] at hman
      omega
    rw [if_pos hzero, dif_neg hmne]
    refine finite_congr hsign ?_ ?_ _ _
    · rw [hman, mantissa, if_pos hsmall]
      omega
    · rw [hexp, exponent, if_pos hsmall, Nat.div_eq_of_lt hsmall]
      rfl
  · have hne : @unpackExponent Format.binary64 b ≠ 0#_ := by
      intro heq
      rw [heq, show (0#_ : BitVec Format.binary64.exponentBits).toNat = 0 from rfl] at hexp
      omega
    rw [if_neg hne]
    refine finite_congr hsign ?_ ?_ _ _
    · have hlow : (@unpackMantissa Format.binary64 b).toNat < 2 ^ 52 := BitVec.isLt _
      rw [BitVec.toNat_append, ← Nat.shiftLeft_add_eq_or_of_lt hlow, hman, mantissa, if_neg hsmall, Nat.add_comm]
      rfl
    · rw [hexp, exponent, if_neg hsmall]
      rfl

theorem unpack_zero {b : BitVec 64} {s : Sign} (hb : b.toNat = signWord s) : unpack Format.binary64 b = .zero s := by
  have hpacked : b = packedZero Format.binary64 s := BitVec.eq_of_toNat_eq (hb.trans (toNat_packedZero s).symm)
  rw [hpacked]
  cases s <;> rfl

theorem unpack_infinite {b : BitVec 64} {s : Sign} (hb : b.toNat = signWord s + infinite) :
    unpack Format.binary64 b = .infinity s := by
  have hpacked : b = packedInfinity Format.binary64 s := BitVec.eq_of_toNat_eq (hb.trans (toNat_packedInfinity s).symm)
  rw [hpacked]
  cases s <;> rfl

theorem unpack_nan {b : BitVec 64} {s : Sign} {w : ℕ} (hb : b.toNat = signWord s + w) (h : infinite < w) (hw : w < 2 ^ 63) :
    unpack Format.binary64 b = .notANumber := by
  have hlt : 2047 * 2 ^ 52 < w := h
  obtain ⟨hexp, hman⟩ := toNat_fields hb hw
  have hall : @unpackExponent Format.binary64 b = -1#_ := by
    refine BitVec.eq_of_toNat_eq ?_
    rw [hexp, show (-1#_ : BitVec Format.binary64.exponentBits).toNat = 2047 from rfl]
    omega
  have hne : @unpackMantissa Format.binary64 b ≠ 0#_ := by
    intro heq
    rw [heq, show (0#_ : BitVec Format.binary64.mantissaBitsWithoutImplicit).toNat = 0 from rfl] at hman
    omega
  unfold UnpackedFloat.unpack
  dsimp only
  rw [if_pos hall, if_neg hne]

theorem toNat_pack_word {w : ℕ} (h0 : w ≠ 0) (h : w < infinite) :
    (UnpackedFloat.pack Format.binary64 (.finite .positive (mantissa w) (exponent w) (mantissa_pos h0))).toNat = w := by
  rw [toNat_pack_finite .positive (mantissa_pos h0) (canonical_word w), word_mantissa_exponent, min_eq_left h.le]
  exact Nat.zero_add w

theorem unpack_cases {b : BitVec 64} {s : Sign} {w : ℕ} (hb : b.toNat = signWord s + w) (h : w ≤ infinite) :
    (w = 0 ∧ unpack Format.binary64 b = .zero s) ∨
    (∃ h0 : w ≠ 0, w < infinite ∧ unpack Format.binary64 b = .finite s (mantissa w) (exponent w) (mantissa_pos h0)) ∨
    (w = infinite ∧ unpack Format.binary64 b = .infinity s) := by
  rcases Nat.eq_zero_or_pos w with rfl | h0
  · exact Or.inl ⟨rfl, unpack_zero hb⟩
  · rcases h.lt_or_eq with hlt | rfl
    · exact Or.inr (Or.inl ⟨h0.ne', hlt, unpack_finite hb h0.ne' hlt⟩)
    · exact Or.inr (Or.inr ⟨rfl, unpack_infinite hb⟩)

/-! ## Rounding and packing -/

theorem shiftToTargetExponent_of_lt {r : ℕ} {t : ℤ} (hr : r < 2 ^ 53) (ht : -1074 ≤ t) :
    (shiftToTargetExponent Format.binary64 r t .exact).1.mantissa = r ∧
      (shiftToTargetExponent Format.binary64 r t .exact).2 = t := by
  have hlog : r.log2 ≤ 52 := by
    by_cases h0 : r = 0
    · simp [h0]
    · have := (Nat.log2_lt h0).2 hr
      omega
  have htarget : (Format.binary64.targetExponent (totalExponent r t) - t).toNat = 0 := by
    rw [targetExponent_eq, totalExponent]
    omega
  rw [shiftToTargetExponent, shiftToExponent, htarget]
  exact ⟨rfl, Int.add_zero t⟩

theorem shiftToTargetExponent_carry {t : ℤ} (ht : -1074 ≤ t) :
    (shiftToTargetExponent Format.binary64 (2 ^ 53) t .exact).1.mantissa = 2 ^ 52 ∧
      (shiftToTargetExponent Format.binary64 (2 ^ 53) t .exact).2 = t + 1 := by
  have htarget : (Format.binary64.targetExponent (totalExponent (2 ^ 53) t) - t).toNat = 1 := by
    rw [targetExponent_eq, totalExponent, Nat.log2_two_pow]
    omega
  rw [shiftToTargetExponent, shiftToExponent, htarget]
  exact ⟨rfl, rfl⟩

/-- the first shift goes to the last place, and the mantissa rounded there is the nearest integer -/
theorem shiftToTargetExponent_place {m : ℕ} {e : ℤ} {a : Accuracy} {x : ℚ} (h : LiesAt m a x) (hx : 0 < x) (hroom : Roomy m e) :
    (shiftToTargetExponent Format.binary64 m e a).2 = place (x * 2 ^ e) ∧
      ((shiftToTargetExponent Format.binary64 m e a).1.roundedMantissa : ℤ) =
        nearestEven (x * 2 ^ e / 2 ^ place (x * 2 ^ e)) := by
  have htarget := targetExponent_eq_place h hx hroom
  have hle : e ≤ place (x * 2 ^ e) := by
    rw [← htarget, targetExponent_eq, totalExponent]
    rcases hroom with hroom | hroom <;> omega
  rw [shiftToTargetExponent, shiftToExponent, htarget]
  dsimp only
  obtain ⟨k, hk⟩ := Int.le.dest hle
  have hnat : (place (x * 2 ^ e) - e).toNat = k := by omega
  rw [hnat]
  refine ⟨hk, ?_⟩
  have hstart : LiesAt (ExtendedMantissa.ofMantissaAndAccuracy m a).mantissa
      (ExtendedMantissa.ofMantissaAndAccuracy m a).accuracy x := by
    rw [mantissa_ofMantissaAndAccuracy, accuracy_ofMantissaAndAccuracy]
    exact h
  have hunits : x * 2 ^ e / 2 ^ place (x * 2 ^ e) = x / 2 ^ k := by
    rw [← hk, zpow_add₀ (by norm_num), zpow_natCast, mul_div_mul_comm]
    field_simp
  rw [hunits]
  exact (liesAt_shiftRight hstart k).round_eq

/-- packing what is left after a shift, a zero or a canonical number -/
theorem toNat_pack_shifted (s : Sign) {m m' : ℕ} {e e' : ℤ} (h : Canonical m e) (hm : m' = m) (he : e' = e)
    (hzero : m = 0 → e = -1074) :
    (UnpackedFloat.pack Format.binary64 (if hm : m' = 0 then .zero s else .finite s m' e' (Nat.pos_of_ne_zero hm))).toNat =
      signWord s + min (word m e) infinite := by
  subst hm he
  by_cases h0 : m' = 0
  · have hword : word m' e' = 0 := by
      rw [h0, hzero h0]
      rfl
    rw [dif_pos h0, hword, Nat.zero_min]
    exact toNat_packedZero s
  · rw [dif_neg h0]
    exact toNat_pack_finite s (Nat.pos_of_ne_zero h0) h

/-- **Rounding.** The exact number `x * 2 ^ e`, given by a mantissa and what is known of the rest, is packed as the word of the
nearest magnitude. -/
theorem toNat_pack_roundWithAccuracy (s : Sign) {m : ℕ} {e : ℤ} {a : Accuracy} {x : ℚ} (h : LiesAt m a x) (hx : 0 < x)
    (hroom : Roomy m e) :
    (UnpackedFloat.pack Format.binary64 (roundWithAccuracy Format.binary64 s m e a)).toNat = signWord s + nearest (x * 2 ^ e) := by
  obtain ⟨hplace, hround⟩ := shiftToTargetExponent_place h hx hroom
  have hpos : (0 : ℚ) < x * 2 ^ e := by positivity
  rw [nearest, if_neg (not_le.2 hpos), ← hround, Int.toNat_natCast, roundWithAccuracy]
  dsimp only
  rw [hplace]
  have hmin := neg_le_place (x * 2 ^ e)
  have hupper : nearestEven (x * 2 ^ e / 2 ^ place (x * 2 ^ e)) ≤ 2 ^ 53 :=
    nearestEven_le (by exact_mod_cast div_place_lt.le)
  have hlower : place (x * 2 ^ e) ≠ -1074 → 2 ^ 52 ≤ nearestEven (x * 2 ^ e / 2 ^ place (x * 2 ^ e)) := fun hne =>
    le_nearestEven (by exact_mod_cast le_div_place hpos hne)
  rw [← hround] at hupper hlower
  generalize (shiftToTargetExponent Format.binary64 m e a).1.roundedMantissa = r at *
  generalize place (x * 2 ^ e) = t at *
  by_cases hcarry : r = 2 ^ 53
  · -- the rounded mantissa is one bit too long
    subst hcarry
    obtain ⟨hm, he⟩ := shiftToTargetExponent_carry hmin
    have hcanonical : Canonical (2 ^ 52) (t + 1) := ⟨by decide, by omega, Or.inl le_rfl⟩
    rw [word_carry hmin]
    exact toNat_pack_shifted s hcanonical hm he (by norm_num)
  · have hlt : r < 2 ^ 53 := by omega
    obtain ⟨hm, he⟩ := shiftToTargetExponent_of_lt hlt hmin
    have hcanonical : Canonical r t := ⟨hlt, hmin, by omega⟩
    exact toNat_pack_shifted s hcanonical hm he (by omega)

theorem log2_shiftLeft {m : ℕ} (hm : m ≠ 0) (k : ℕ) : (m <<< k).log2 = m.log2 + k := by
  induction k with
  | zero => rfl
  | succ k ih =>
    have hne : m <<< k ≠ 0 := by
      rw [Nat.shiftLeft_eq]
      positivity
    rw [Nat.shiftLeft_succ, Nat.log2_two_mul hne, ih, Nat.add_assoc]

/-- a whole mantissa is given bits until there are enough -/
theorem toNat_pack_round (s : Sign) {m : ℕ} (hm : 0 < m) (e : ℤ) :
    (UnpackedFloat.pack Format.binary64 (UnpackedFloat.round Format.binary64 s m e)).toNat =
      signWord s + nearest (m * 2 ^ e) := by
  unfold UnpackedFloat.round decreaseExponent
  dsimp only
  generalize hk : (e - Format.binary64.targetExponent (totalExponent m e)).toNat = k
  have hlog := log2_shiftLeft hm.ne' k
  have hroom : Roomy (m <<< k) (e - k) := by
    rw [targetExponent_eq, totalExponent] at hk
    unfold Roomy
    rw [hlog]
    omega
  have hpos : (0 : ℚ) < (m <<< k : ℕ) := by
    rw [Nat.shiftLeft_eq]
    positivity
  have hvalue : ((m <<< k : ℕ) : ℚ) * 2 ^ (e - k) = m * 2 ^ e := by
    rw [Nat.shiftLeft_eq, Nat.cast_mul, Nat.cast_pow, Nat.cast_ofNat, zpow_sub₀ (by norm_num), zpow_natCast]
    field_simp
  rw [toNat_pack_roundWithAccuracy s (liesAt_exact _) hpos hroom, hvalue]

/-- an integer in units of `2 ^ e` is packed as the word of the magnitude nearest to its value -/
theorem toNat_pack_normalize {m e : ℤ} {x : ℚ} (hx : 0 < x) (hvalue : m * 2 ^ e = x) :
    (UnpackedFloat.pack Format.binary64 (UnpackedFloat.normalize Format.binary64 m e .positive)).toNat = nearest x := by
  subst hvalue
  have hm : 0 < m := by exact_mod_cast pos_of_mul_pos_left hx (by positivity)
  have hcast : ((m.toNat : ℕ) : ℚ) = m := by exact_mod_cast Int.toNat_of_nonneg hm.le
  rw [UnpackedFloat.normalize, Int.compare_eq_gt.2 hm]
  dsimp only
  rw [toNat_pack_round .positive (by omega) e, hcast, signWord, Nat.zero_add]

end Sampling.Binary64
