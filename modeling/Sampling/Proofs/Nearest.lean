/-
The magnitudes of binary64, and the one nearest to a number.

A magnitude is counted by its word: `word m e` is the place of `m * 2 ^ e` among all magnitudes, and `number` reads a word back.
Numbers grow with their words (`number_strictMono`). `nearest x` is the word of the magnitude nearest to `x`: the integer nearest
to `x` in units of its last place, ties to even, or the word of infinity beyond the largest magnitude. It grows with `x`
(`nearest_mono`, where the units do not change the rounding itself is monotone, and where they do a power of two lies between),
and magnitudes are nearest to themselves (`nearest_number`).
-/
import Mathlib.Algebra.Order.Field.Power
import Mathlib.Data.Int.Log
import Mathlib.Data.Rat.Floor
import Mathlib.Tactic.Linarith
import Mathlib.Tactic.Positivity
import Mathlib.Tactic.FieldSimp
import Mathlib.Tactic.Ring

namespace Sampling.Binary64

/-! ## The nearest integer -/

/-- the integer nearest to `x`, a half to the even neighbour -/
def nearestEven (x : ℚ) : ℤ :=
  if x - ⌊x⌋ < 1 / 2 then ⌊x⌋ else if 1 / 2 < x - ⌊x⌋ then ⌊x⌋ + 1 else ⌊x⌋ + ⌊x⌋ % 2

theorem nearestEven_near (x : ℚ) : (nearestEven x : ℚ) ≤ x + 1 / 2 ∧ x ≤ nearestEven x + 1 / 2 := by
  have hlo := Int.floor_le x
  have hhi := Int.lt_floor_add_one x
  unfold nearestEven
  split_ifs with hbelow habove
  · constructor <;> linarith
  · push_cast
    constructor <;> linarith
  · have hhalf : x - ⌊x⌋ = 1 / 2 := le_antisymm (not_lt.1 habove) (not_lt.1 hbelow)
    rcases Int.emod_two_eq_zero_or_one ⌊x⌋ with hpar | hpar <;> rw [hpar] <;> push_cast <;> constructor <;> linarith

theorem nearestEven_intCast (n : ℤ) : nearestEven n = n := by
  simp [nearestEven]

theorem nearestEven_add_even (x : ℚ) (m : ℤ) : nearestEven (x + 2 * m) = nearestEven x + 2 * m := by
  have hfloor : ⌊x + 2 * m⌋ = ⌊x⌋ + 2 * m := by exact_mod_cast Int.floor_add_intCast x (2 * m)
  unfold nearestEven
  rw [hfloor]
  push_cast
  rw [add_sub_add_right_eq_sub]
  split_ifs
  · rfl
  · omega
  · omega

theorem nearestEven_neg (x : ℚ) : nearestEven (-x) = -nearestEven x := by
  by_cases hwhole : (⌊x⌋ : ℚ) = x
  · rw [← hwhole, nearestEven_intCast, ← Int.cast_neg, nearestEven_intCast]
  · have hlo := lt_of_le_of_ne (Int.floor_le x) hwhole
    have hhi := Int.lt_floor_add_one x
    have hfloor : ⌊-x⌋ = -⌊x⌋ - 1 := by
      rw [Int.floor_eq_iff]
      push_cast
      constructor <;> linarith
    unfold nearestEven
    rw [hfloor]
    push_cast
    split_ifs <;> first | omega | (exfalso; linarith)

theorem nearestEven_mono {x y : ℚ} (hxy : x ≤ y) : nearestEven x ≤ nearestEven y := by
  by_contra h
  have hsucc : (nearestEven y : ℚ) + 1 ≤ nearestEven x := by exact_mod_cast Int.lt_iff_add_one_le.1 (not_le.1 h)
  have hx := (nearestEven_near x).1
  have hy := (nearestEven_near y).2
  -- two results from numbers half a unit away on either side: then the numbers are one
  have heq : x = y := by linarith
  exact h (heq ▸ le_rfl)

/-! ## Magnitudes -/

/-- mantissas have at most 53 bits, and 53 unless the exponent is the least one -/
structure Canonical (m : ℕ) (e : ℤ) : Prop where
  lt : m < 2 ^ 53
  min_le : -1074 ≤ e
  full : 2 ^ 52 ≤ m ∨ e = -1074

/-- the place of `m * 2 ^ e` among the magnitudes; a mantissa of `2 ^ 53` carries over -/
def word (m : ℕ) (e : ℤ) : ℕ := m + (e + 1074).toNat * 2 ^ 52

def infinite : ℕ := 2047 * 2 ^ 52

def mantissa (w : ℕ) : ℕ := if w < 2 ^ 52 then w else w % 2 ^ 52 + 2 ^ 52

def exponent (w : ℕ) : ℤ := if w < 2 ^ 52 then -1074 else (w / 2 ^ 52 : ℕ) - 1075

/-- the magnitude of a word -/
def number (w : ℕ) : ℚ := mantissa w * 2 ^ exponent w

theorem canonical_word (w : ℕ) : Canonical (mantissa w) (exponent w) := by
  unfold mantissa exponent
  split_ifs with hw
  · exact ⟨by omega, by omega, Or.inr rfl⟩
  · exact ⟨by omega, by omega, Or.inl (by omega)⟩

/-- a mantissa that is one bit too long is half of it, one exponent further -/
theorem word_carry {e : ℤ} (h : -1074 ≤ e) : word (2 ^ 53) e = word (2 ^ 52) (e + 1) := by
  unfold word
  omega

theorem word_mantissa_exponent (w : ℕ) : word (mantissa w) (exponent w) = w := by
  by_cases hw : w < 2 ^ 52
  · rw [mantissa, exponent, if_pos hw, if_pos hw, word]
    omega
  · rw [mantissa, exponent, if_neg hw, if_neg hw, word]
    omega

theorem Canonical.mantissa_word {m : ℕ} {e : ℤ} (h : Canonical m e) : mantissa (word m e) = m := by
  obtain ⟨hlt, hmin, hfull⟩ := h
  unfold mantissa word
  split_ifs with hw <;> omega

theorem Canonical.exponent_word {m : ℕ} {e : ℤ} (h : Canonical m e) : exponent (word m e) = e := by
  obtain ⟨hlt, hmin, hfull⟩ := h
  unfold exponent word
  split_ifs with hw <;> omega

theorem Canonical.number_word {m : ℕ} {e : ℤ} (h : Canonical m e) : number (word m e) = m * 2 ^ e := by
  rw [number, h.mantissa_word, h.exponent_word]

theorem number_zero : number 0 = 0 := by
  have hmantissa : mantissa 0 = 0 := if_pos (by norm_num)
  rw [number, hmantissa, Nat.cast_zero, zero_mul]

theorem number_succ (w : ℕ) : number (w + 1) = number w + 2 ^ exponent w := by
  have hcanonical := canonical_word w
  by_cases hcarry : mantissa w + 1 < 2 ^ 53
  · have hnext : Canonical (mantissa w + 1) (exponent w) := ⟨hcarry, hcanonical.min_le, hcanonical.full.imp_left (by omega)⟩
    have hword : word (mantissa w + 1) (exponent w) = w + 1 := by
      have hw := word_mantissa_exponent w
      unfold word at hw ⊢
      omega
    rw [← hword, hnext.number_word, number]
    push_cast
    ring
  · -- the mantissa is full: half of the next one, one exponent further
    have hfull : mantissa w = 2 ^ 53 - 1 := by
      have := hcanonical.lt
      omega
    have hnext : Canonical (2 ^ 52) (exponent w + 1) := ⟨by decide, by have := hcanonical.min_le; omega, Or.inl le_rfl⟩
    have hword : word (2 ^ 52) (exponent w + 1) = w + 1 := by
      have hw := word_mantissa_exponent w
      have hmin := hcanonical.min_le
      rw [hfull] at hw
      unfold word at hw ⊢
      omega
    rw [← hword, hnext.number_word, number, hfull, zpow_add₀ (by norm_num)]
    norm_num
    ring

theorem number_strictMono : StrictMono number := by
  refine strictMono_nat_of_lt_succ fun w => ?_
  rw [number_succ]
  exact lt_add_of_pos_right _ (by positivity)

theorem mantissa_pos {w : ℕ} (h : w ≠ 0) : 0 < mantissa w := by
  unfold mantissa
  split_ifs <;> omega

theorem number_pos {w : ℕ} (h : w ≠ 0) : 0 < number w := by
  rw [← number_zero]
  exact number_strictMono (Nat.pos_of_ne_zero h)

theorem number_nonneg (w : ℕ) : 0 ≤ number w := by
  rw [← number_zero]
  exact number_strictMono.monotone (Nat.zero_le w)

/-! ## The nearest magnitude -/

/-- the exponent of the last place of a number -/
def place (x : ℚ) : ℤ := max (Int.log 2 x - 52) (-1074)

/-- the word of the magnitude nearest to `x`, ties to the even one -/
def nearest (x : ℚ) : ℕ :=
  if x ≤ 0 then 0 else min (word (nearestEven (x / 2 ^ place x)).toNat (place x)) infinite

theorem place_mono {x y : ℚ} (hx : 0 < x) (h : x ≤ y) : place x ≤ place y :=
  max_le_max_right _ (Int.sub_le_sub_right (Int.log_mono_right hx h) 52)

theorem neg_le_place (x : ℚ) : -1074 ≤ place x := le_max_right _ _

/-- the last place of a number between two powers of two -/
theorem place_eq_of_mem {x : ℚ} {e : ℤ} (he : -1022 ≤ e) (h : 2 ^ e ≤ x) (h' : x < 2 ^ (e + 1)) : place x = e - 52 := by
  have hx : 0 < x := lt_of_lt_of_le (by positivity) h
  have hlower := (Int.zpow_le_iff_le_log (b := 2) (by norm_num) hx).1 (by exact_mod_cast h)
  have hupper := (Int.lt_zpow_iff_log_lt (b := 2) (by norm_num) hx).1 (by exact_mod_cast h')
  unfold place
  omega

/-- in units of its last place a number has at most 53 bits -/
theorem div_place_lt {x : ℚ} : x / 2 ^ place x < 2 ^ 53 := by
  have hlog : x < 2 ^ (Int.log 2 x + 1) := by exact_mod_cast Int.lt_zpow_succ_log_self (b := 2) (by norm_num) x
  have hplace : Int.log 2 x + 1 ≤ 53 + place x := by
    have := le_max_left (Int.log 2 x - 52) (-1074)
    unfold place
    omega
  rw [div_lt_iff₀ (by positivity)]
  calc x < 2 ^ (Int.log 2 x + 1) := hlog
    _ ≤ (2 : ℚ) ^ (53 + place x) := zpow_le_zpow_right₀ (by norm_num) hplace
    _ = 2 ^ 53 * 2 ^ place x := by rw [zpow_add₀ (by norm_num)]; norm_num

/-- and 53 bits unless the last place is the least one -/
theorem le_div_place {x : ℚ} (hx : 0 < x) (h : place x ≠ -1074) : 2 ^ 52 ≤ x / 2 ^ place x := by
  have hplace : place x = Int.log 2 x - 52 := by
    unfold place at h ⊢
    omega
  have hlog : (2 : ℚ) ^ Int.log 2 x ≤ x := by exact_mod_cast Int.zpow_log_le_self (b := 2) (by norm_num) hx
  rw [le_div_iff₀ (by positivity)]
  calc (2 : ℚ) ^ 52 * 2 ^ place x = 2 ^ (52 + place x) := by rw [zpow_add₀ (by norm_num)]; norm_num
    _ = 2 ^ Int.log 2 x := by rw [hplace]; congr 1; ring
    _ ≤ x := hlog

theorem nearestEven_le {x : ℚ} {n : ℤ} (h : x ≤ n) : nearestEven x ≤ n :=
  (nearestEven_mono h).trans_eq (nearestEven_intCast n)

theorem le_nearestEven {x : ℚ} {n : ℤ} (h : (n : ℚ) ≤ x) : n ≤ nearestEven x :=
  (nearestEven_intCast n).symm.trans_le (nearestEven_mono h)

/-- the word before it is cut off at infinity grows with the number -/
theorem word_nearestEven_mono {x y : ℚ} (hx : 0 < x) (h : x ≤ y) :
    word (nearestEven (x / 2 ^ place x)).toNat (place x) ≤ word (nearestEven (y / 2 ^ place y)).toNat (place y) := by
  rcases (place_mono hx h).eq_or_lt with heq | hlt
  · have hdiv : x / 2 ^ place x ≤ y / 2 ^ place y := by
      rw [heq]
      exact div_le_div_of_nonneg_right h (by positivity)
    have hmono := Int.toNat_le_toNat (nearestEven_mono hdiv)
    rw [heq] at hmono ⊢
    unfold word
    omega
  · -- a power of two lies between: `x` is at most the first magnitude in `y`'s units, and `y` at least
    have hmin := neg_le_place x
    have hlo : nearestEven (x / 2 ^ place x) ≤ 2 ^ 53 := nearestEven_le (by exact_mod_cast div_place_lt.le)
    have hhi : 2 ^ 52 ≤ nearestEven (y / 2 ^ place y) :=
      le_nearestEven (by exact_mod_cast le_div_place (hx.trans_le h) (by omega))
    unfold word
    omega

theorem nearest_mono : Monotone nearest := by
  intro x y h
  unfold nearest
  split_ifs with hx hy hy
  · exact le_rfl
  · exact Nat.zero_le _
  · exact absurd (h.trans hy) hx
  · exact min_le_min_right _ (word_nearestEven_mono (not_le.1 hx) h)

theorem nearest_le_infinite (x : ℚ) : nearest x ≤ infinite := by
  unfold nearest
  split_ifs
  · exact Nat.zero_le _
  · exact min_le_right _ _

theorem Canonical.place_eq {m : ℕ} {e : ℤ} (h : Canonical m e) (hm : 0 < m) : place (m * 2 ^ e) = e := by
  obtain ⟨hlt, hmin, hfull⟩ := h
  have hpos : (0 : ℚ) < m * 2 ^ e := by positivity
  have hupper : Int.log 2 ((m : ℚ) * 2 ^ e) < 53 + e := by
    refine (Int.lt_zpow_iff_log_lt (by norm_num) hpos).1 ?_
    rw [Nat.cast_ofNat, zpow_add₀ (by norm_num)]
    exact mul_lt_mul_of_pos_right (by exact_mod_cast hlt) (by positivity)
  unfold place
  rcases hfull with hfull | rfl
  · have hlower : 52 + e ≤ Int.log 2 ((m : ℚ) * 2 ^ e) := by
      refine (Int.zpow_le_iff_le_log (by norm_num) hpos).1 ?_
      rw [Nat.cast_ofNat, zpow_add₀ (by norm_num)]
      exact mul_le_mul_of_nonneg_right (by exact_mod_cast hfull) (by positivity)
    omega
  · omega

/-- **Magnitudes are nearest to themselves.** -/
theorem nearest_number {w : ℕ} (h : w ≤ infinite) : nearest (number w) = w := by
  rcases Nat.eq_zero_or_pos w with rfl | hw
  · rw [number_zero, nearest, if_pos le_rfl]
  · have hcanonical := canonical_word w
    have hpos := number_pos hw.ne'
    have hplace : place (number w) = exponent w := hcanonical.place_eq (mantissa_pos hw.ne')
    have hunits : number w / 2 ^ exponent w = ((mantissa w : ℤ) : ℚ) := by
      rw [number, mul_div_assoc, div_self (by positivity), mul_one]
      norm_cast
    rw [nearest, if_neg (not_le.2 hpos), hplace, hunits, nearestEven_intCast, Int.toNat_natCast, word_mantissa_exponent]
    exact min_eq_left h

theorem number_nearest {w : ℕ} (h : w ≤ infinite) {x : ℚ} (hx : number w = x) : number (nearest x) = x := by
  rw [← hx, nearest_number h]

/-- nothing up to a magnitude rounds beyond it -/
theorem nearest_lt {x : ℚ} {v w : ℕ} (hv : v ≤ infinite) (hx : x ≤ number v) (h : number v < number w) : nearest x < w :=
  calc nearest x ≤ nearest (number v) := nearest_mono hx
    _ = v := nearest_number hv
    _ < w := number_strictMono.lt_iff_lt.1 h

/-- a mantissa of 53 bits, or one that carries over, is read back from its word -/
theorem number_word {m : ℕ} {e : ℤ} (hm : m ≤ 2 ^ 53) (hmin : -1074 ≤ e) (hfull : 2 ^ 52 ≤ m ∨ e = -1074) :
    number (word m e) = m * 2 ^ e := by
  rcases hm.lt_or_eq with hlt | rfl
  · exact Canonical.number_word ⟨hlt, hmin, hfull⟩
  · have hcarry : Canonical (2 ^ 52) (e + 1) := ⟨by decide, by omega, Or.inl le_rfl⟩
    rw [word_carry hmin, hcarry.number_word, zpow_add₀ (by norm_num)]
    norm_num
    ring

theorem number_least_normal : number (2 ^ 52) = 2 ^ (-1022 : ℤ) := by
  rw [number, mantissa, exponent, if_neg (by norm_num), if_neg (by norm_num)]
  have hmantissa : ((2 ^ 52 % 2 ^ 52 + 2 ^ 52 : ℕ) : ℚ) = 2 ^ (52 : ℤ) := by norm_num
  have hexponent : ((2 ^ 52 / 2 ^ 52 : ℕ) : ℤ) - 1075 = -1074 := by norm_num
  rw [hmantissa, hexponent, ← zpow_add₀ (by norm_num)]
  congr 1

theorem number_nearest_eq {x : ℚ} (hx : 0 < x) (h : nearest x < infinite) :
    number (nearest x) = nearestEven (x / 2 ^ place x) * 2 ^ place x := by
  have hpos : (0 : ℚ) < 2 ^ place x := by positivity
  have hupper : nearestEven (x / 2 ^ place x) ≤ 2 ^ 53 := nearestEven_le (by exact_mod_cast div_place_lt.le)
  have hlower : 0 ≤ nearestEven (x / 2 ^ place x) := le_nearestEven (by simpa using (div_pos hx hpos).le)
  have hfull : 2 ^ 52 ≤ (nearestEven (x / 2 ^ place x)).toNat ∨ place x = -1074 := by
    by_cases hplace : place x = -1074
    · exact Or.inr hplace
    · have hbits : 2 ^ 52 ≤ nearestEven (x / 2 ^ place x) := le_nearestEven (by exact_mod_cast le_div_place hx hplace)
      exact Or.inl (by omega)
  have hcast : (((nearestEven (x / 2 ^ place x)).toNat : ℕ) : ℚ) = nearestEven (x / 2 ^ place x) := by
    exact_mod_cast Int.toNat_of_nonneg hlower
  have hnearest : nearest x = word (nearestEven (x / 2 ^ place x)).toNat (place x) := by
    rw [nearest, if_neg (not_le.2 hx)] at h ⊢
    exact min_eq_left (by omega)
  rw [hnearest, number_word (by omega) (neg_le_place x) hfull, hcast]

/-- **Half a unit.** The nearest magnitude is at most half a unit of the last place away. -/
theorem number_nearest_near {x : ℚ} (hx : 0 < x) (h : nearest x < infinite) :
    number (nearest x) ≤ x + 2 ^ place x / 2 ∧ x ≤ number (nearest x) + 2 ^ place x / 2 := by
  have hpos : (0 : ℚ) < 2 ^ place x := by positivity
  obtain ⟨hlo, hhi⟩ := nearestEven_near (x / 2 ^ place x)
  have hself : x / 2 ^ place x * 2 ^ place x = x := div_mul_cancel₀ x hpos.ne'
  rw [number_nearest_eq hx h]
  constructor <;> nlinarith

/-- a normal magnitude is not reached from below by a factor of `1 - 2 ^ -53`, rounding included -/
theorem nearest_lt_of_le_mul {x : ℚ} {w : ℕ} (hw : 2 ^ 52 < w) (hlt : w < infinite) (hx : x ≤ (1 - 1 / 2 ^ 53) * number w) :
    nearest x < w := by
  have hnumber : 0 < number w := number_pos (by omega)
  have hbelow : x < number w := by linarith
  by_contra hnot
  have heq : nearest x = w := le_antisymm ((nearest_mono hbelow.le).trans_eq (nearest_number hlt.le)) (not_lt.1 hnot)
  have hpos : 0 < x := by
    by_contra hneg
    rw [nearest, if_pos (not_lt.1 hneg)] at heq
    omega
  -- the gap is at most half a unit, so in units of its last place `x` has too few bits
  have hnear := (number_nearest_near hpos (heq ▸ hlt)).1
  rw [heq] at hnear
  have hgap : number w ≤ 2 ^ 52 * 2 ^ place x := by linarith
  by_cases hplace : place x = -1074
  · have hleast : (2 : ℚ) ^ 52 * 2 ^ (-1074 : ℤ) = number (2 ^ 52) := by
      rw [number_least_normal, ← zpow_natCast, ← zpow_add₀ (by norm_num)]
      congr 1
    rw [hplace, hleast] at hgap
    exact hgap.not_gt (number_strictMono hw)
  · have hbits := le_div_place hpos hplace
    rw [le_div_iff₀ (by positivity)] at hbits
    linarith

/-- and not from above by more than a factor of `1 + 2 ^ -53` -/
theorem lt_nearest_of_mul_lt {x : ℚ} {w : ℕ} (hw : 2 ^ 52 ≤ w) (hlt : w < infinite) (hx : (1 + 1 / 2 ^ 53) * number w < x) :
    w < nearest x := by
  have hnumber : 0 < number w := number_pos (by omega)
  have habove : number w < x := by linarith
  have hpos : 0 < x := hnumber.trans habove
  rcases lt_or_ge x (number (w + 1)) with hnext | hnext
  · by_contra hnot
    have hnear := (number_nearest_near hpos ((not_lt.1 hnot).trans_lt hlt)).2
    have hmono := number_strictMono.monotone (not_lt.1 hnot)
    -- the unit of the last place of `x` is a magnitude below the next one, and so at most `w`'s share
    have hunit : 2 ^ 52 * 2 ^ place x ≤ number w := by
      by_cases hplace : place x = -1074
      · have hleast : (2 : ℚ) ^ 52 * 2 ^ (-1074 : ℤ) = number (2 ^ 52) := by
          rw [number_least_normal, ← zpow_natCast, ← zpow_add₀ (by norm_num)]
          congr 1
        rw [hplace, hleast]
        exact number_strictMono.monotone hw
      · have hpower : Canonical (2 ^ 52) (place x) := ⟨by decide, neg_le_place x, Or.inl le_rfl⟩
        have hbits := le_div_place hpos hplace
        rw [le_div_iff₀ (by positivity)] at hbits
        have hword : number (word (2 ^ 52) (place x)) = 2 ^ 52 * 2 ^ place x := by
          rw [hpower.number_word]
          norm_num
        rw [← hword] at hbits ⊢
        exact number_strictMono.monotone (Nat.lt_succ_iff.1 (number_strictMono.lt_iff_lt.1 (hbits.trans_lt hnext)))
    linarith
  · calc w < w + 1 := Nat.lt_succ_self w
      _ = nearest (number (w + 1)) := (nearest_number hlt).symm
      _ ≤ nearest x := nearest_mono hnext

/-- **The relative error.** A number and the normal magnitude nearest to it are apart by at most a factor of `1 ± 2 ^ -53`. -/
theorem nearest_relative {x : ℚ} (hw : 2 ^ 52 < nearest x) (hlt : nearest x < infinite) :
    (1 - 1 / 2 ^ 53) * number (nearest x) < x ∧ x ≤ (1 + 1 / 2 ^ 53) * number (nearest x) := by
  constructor
  · by_contra h
    exact (nearest_lt_of_le_mul hw hlt (not_lt.1 h)).ne rfl
  · by_contra h
    exact (lt_nearest_of_mul_lt hw.le hlt (not_le.1 h)).ne rfl

/-- **Rounding hides little**: what rounds to no more than another number is at most a factor close to one above it. -/
theorem mul_lt_of_nearest_le {x y : ℚ} (hx : 2 ^ 52 < nearest x) (hy : nearest y < infinite) (h : nearest x ≤ nearest y) :
    (1 - 1 / 2 ^ 53) * x < (1 + 1 / 2 ^ 53) * y := by
  have hupper := (nearest_relative hx (h.trans_lt hy)).2
  have hlower := (nearest_relative (hx.trans_le h) hy).1
  have hnumbers := number_strictMono.monotone h
  calc (1 - 1 / 2 ^ 53) * x ≤ (1 - 1 / 2 ^ 53) * ((1 + 1 / 2 ^ 53) * number (nearest x)) :=
        mul_le_mul_of_nonneg_left hupper (by norm_num)
    _ ≤ (1 - 1 / 2 ^ 53) * ((1 + 1 / 2 ^ 53) * number (nearest y)) :=
        mul_le_mul_of_nonneg_left (mul_le_mul_of_nonneg_left hnumbers (by norm_num)) (by norm_num)
    _ = (1 + 1 / 2 ^ 53) * ((1 - 1 / 2 ^ 53) * number (nearest y)) := by ring
    _ < (1 + 1 / 2 ^ 53) * y := mul_lt_mul_of_pos_left hlower (by norm_num)

theorem exists_number {m : ℕ} {e : ℤ} (hm : m < 2 ^ 53) (hmin : -1074 ≤ e) (hmax : e ≤ 971) :
    ∃ w < infinite, number w = m * 2 ^ e := by
  -- double the mantissa until it is full or the exponent is the least one
  induction k : (e + 1074).toNat generalizing m e with
  | zero =>
    have he : e = -1074 := by omega
    refine ⟨word m e, ?_, Canonical.number_word ⟨hm, hmin, Or.inr he⟩⟩
    unfold word infinite
    omega
  | succ k ih =>
    by_cases hfull : 2 ^ 52 ≤ m
    · refine ⟨word m e, ?_, Canonical.number_word ⟨hm, hmin, Or.inl hfull⟩⟩
      unfold word infinite
      omega
    · obtain ⟨w, hw, hnumber⟩ := ih (m := 2 * m) (e := e - 1) (by omega) (by omega) (by omega) (by omega)
      refine ⟨w, hw, ?_⟩
      rw [hnumber, zpow_sub₀ (by norm_num)]
      push_cast
      ring

/-- every magnitude is whole in units of the least place -/
theorem exists_units (w : ℕ) : ∃ n : ℕ, number w = n * 2 ^ (-1074 : ℤ) := by
  obtain ⟨k, hk⟩ := Int.le.dest (canonical_word w).min_le
  refine ⟨mantissa w * 2 ^ k, ?_⟩
  rw [number, ← hk, zpow_add₀ (by norm_num), zpow_natCast, Nat.cast_mul, Nat.cast_pow, Nat.cast_ofNat, mul_assoc,
    mul_comm ((2 : ℚ) ^ k)]

/-- **Small differences are exact.** What is whole in units of the least place and rounds to no more than the least normal magnitude
is not rounded. -/
theorem number_nearest_of_units {n : ℕ} (h : nearest (n * 2 ^ (-1074 : ℤ)) ≤ 2 ^ 52) :
    number (nearest (n * 2 ^ (-1074 : ℤ))) = n * 2 ^ (-1074 : ℤ) := by
  have hn : n < 2 ^ 53 := by
    by_contra hge
    have hword : number (word (2 ^ 53) (-1074)) = 2 ^ 53 * 2 ^ (-1074 : ℤ) := by
      rw [number_word le_rfl le_rfl (Or.inr rfl)]
      norm_num
    have hle : number (word (2 ^ 53) (-1074)) ≤ n * 2 ^ (-1074 : ℤ) := by
      rw [hword]
      exact mul_le_mul_of_nonneg_right (by exact_mod_cast not_lt.1 hge) (by positivity)
    have hmono := nearest_mono hle
    rw [nearest_number (by decide)] at hmono
    have hplace : word (2 ^ 53) (-1074) = 2 ^ 53 := by decide
    omega
  obtain ⟨w, hw, hnumber⟩ := exists_number hn le_rfl (by norm_num)
  exact number_nearest hw.le hnumber

theorem number_nearest_natCast {n : ℕ} (h : n < 2 ^ 53) : number (nearest n) = n ∧ nearest (n : ℚ) < infinite := by
  obtain ⟨w, hw, hnumber⟩ := exists_number h (e := 0) (by norm_num) (by norm_num)
  rw [zpow_zero, mul_one] at hnumber
  refine ⟨number_nearest hw.le hnumber, ?_⟩
  rw [← hnumber, nearest_number hw.le]
  exact hw

/-- rounding keeps a whole number from going below a smaller one that is a magnitude -/
theorem natCast_le_number {m n : ℕ} (hm : m < 2 ^ 53) (h : m ≤ n) : (m : ℚ) ≤ number (nearest n) :=
  (number_nearest_natCast hm).1.symm.trans_le (number_strictMono.monotone (nearest_mono (by exact_mod_cast h)))

theorem nearest_natCast_lt {m n : ℕ} (hm : m + 1 < 2 ^ 53) (h : m < n) : nearest (m : ℚ) < nearest (n : ℚ) := by
  rw [← number_strictMono.lt_iff_lt, (number_nearest_natCast (by omega)).1]
  exact (by exact_mod_cast m.lt_succ_self : (m : ℚ) < (m + 1 : ℕ)).trans_le (natCast_le_number hm h)

end Sampling.Binary64
