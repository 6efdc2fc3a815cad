/-
Arithmetics in which sums grow.

Choosing an index by running sums asks little of an arithmetic, and nothing of it is exactness. `Growing`: the numbers from zero up are
totally ordered, and a sum is no smaller than what was added to. `Scaling`: a sum of weights times a unit number grows with the unit
number. `Sharing`: shares of a total grow with the part, and all of it has share one.

Binary64 is such an arithmetic, whatever its power function is (`Binary64.growing`, `Binary64.scaling`, `Binary64.sharing`). Numbers
from zero up are there the zeros of both signs, the positive magnitudes and infinity: those at places from 0 to infinity's
(`Binary64.zero_le_iff`), and rounding to the nearest place keeps their order.
-/
import Sampling.Proofs.Weighing

namespace Sampling

/-! ## What is asked of an arithmetic -/

section
variable {F : Type} [Arith F]

/-- finite and above zero: what an accepted sum of weights is -/
def IsTotal (a : F) : Prop := Arith.isFinite a = true ∧ ¬ a ≤ 0.0

/-- numbers from zero up are totally ordered, and sums of them grow -/
structure Growing (F : Type) [Arith F] : Prop where
  zero_le_zero : (0.0 : F) ≤ 0.0
  total : ∀ a b : F, 0.0 ≤ a → 0.0 ≤ b → a ≤ b ∨ b ≤ a
  trans : ∀ a b c : F, 0.0 ≤ a → a ≤ b → b ≤ c → a ≤ c
  lt_iff : ∀ a b : F, 0.0 ≤ a → 0.0 ≤ b → (a < b ↔ ¬ b ≤ a)
  /-- weights are from zero up -/
  zero_le : ∀ w : F, IsWeight w → 0.0 ≤ w
  /-- what is added makes a sum no smaller -/
  le_add : ∀ a w : F, 0.0 ≤ a → 0.0 ≤ w → a ≤ a + w

/-- multiples of a sum grow -/
structure Scaling (F : Type) [Arith F] : Prop where
  zero_mul : ∀ sum : F, IsTotal sum → 0.0 * sum = 0.0
  mul_le_mul : ∀ u v sum : F, 0.0 ≤ u → u ≤ v → IsWeight v → IsTotal sum → u * sum ≤ v * sum

/-- shares of a total grow, from nothing to one, and unit numbers are below one -/
structure Sharing (F : Type) [Arith F] : Prop where
  zero_div : ∀ total : F, IsTotal total → 0.0 / total = 0.0
  div_self : ∀ total : F, IsTotal total → total / total = 1.0
  div_le_div : ∀ a b total : F, 0.0 ≤ a → a ≤ b → b ≤ total → IsTotal total → a / total ≤ b / total
  unit : ∀ w : UInt64, (0.0 : F) ≤ unitOf w ∧ (unitOf w : F) < 1.0

namespace Growing

variable (hG : Growing F) {a b c : F}
include hG

theorem not_lt_iff (ha : 0.0 ≤ a) (hb : 0.0 ≤ b) : ¬ a < b ↔ b ≤ a := by
  rw [hG.lt_iff a b ha hb, not_not]

theorem le_of_lt (ha : 0.0 ≤ a) (hb : 0.0 ≤ b) (h : a < b) : a ≤ b := by
  rcases hG.total a b ha hb with hle | hle
  · exact hle
  · exact absurd hle ((hG.lt_iff a b ha hb).1 h)

theorem le_refl (ha : 0.0 ≤ a) : a ≤ a := by
  rcases hG.total a a ha ha with hle | hle
  · exact hle
  · exact hle

theorem lt_of_le_of_lt (ha : 0.0 ≤ a) (hc : 0.0 ≤ c) (hab : a ≤ b) (hbc : b < c) : a < c := by
  have hb : 0.0 ≤ b := hG.trans _ _ _ hG.zero_le_zero ha hab
  rw [hG.lt_iff b c hb hc] at hbc
  rw [hG.lt_iff a c ha hc]
  intro hca
  exact hbc (hG.trans c a b hc hca hab)

/-- **Running sums grow.** -/
theorem le_foldl {ws : List F} (h : ∀ w ∈ ws, 0.0 ≤ w) (ha : 0.0 ≤ a) : a ≤ ws.foldl (· + ·) a := by
  induction ws generalizing a with
  | nil => exact hG.le_refl ha
  | cons w ws ih =>
    have hstep : a ≤ a + w := hG.le_add a w ha (h w List.mem_cons_self)
    have hnext : 0.0 ≤ a + w := hG.trans _ _ _ hG.zero_le_zero ha hstep
    exact hG.trans a (a + w) _ ha hstep (ih (fun w hw => h w (List.mem_cons_of_mem _ hw)) hnext)

theorem zero_le_foldl {ws : List F} (h : ∀ w ∈ ws, 0.0 ≤ w) : (0.0 : F) ≤ ws.foldl (· + ·) 0.0 :=
  hG.le_foldl h hG.zero_le_zero

end Growing

end

/-! ## Binary64 -/

namespace Binary64

open Float.Model Float.Model.UnpackedFloat

section
variable {x y z : Float}

theorem zero_le_of_isFinite (h : x.isFinite = true) (h0 : 0 ≤ value x) : 0.0 ≤ x := by
  rw [zero_le_iff]
  exact ⟨isNaN_of_isFinite h, value_nonneg_iff.1 h0⟩

theorem value_nonneg (h : 0.0 ≤ x) : 0 ≤ value x := value_nonneg_iff.2 (zero_le_iff.1 h).2

theorem isFinite_of_le (hx : 0.0 ≤ x) (hxy : x ≤ y) (hy : y.isFinite = true) : x.isFinite = true := by
  obtain ⟨hnumber, h0⟩ := zero_le_iff.1 hx
  rw [le_iff_ordinal hnumber (isNaN_of_isFinite hy)] at hxy
  rw [isFinite_iff] at hy ⊢
  omega

theorem nonneg_cases (h : 0.0 ≤ x) : x.isFinite = true ∨ x.toModel.unpack = .infinity .positive := by
  obtain ⟨hnumber, h0⟩ := zero_le_iff.1 h
  obtain ⟨s, v, hordinal, hle, hu⟩ := number_cases hnumber
  rcases hle.lt_or_eq with hlt | rfl
  · refine Or.inl ?_
    rwa [isFinite_iff, hordinal, natAbs_apply]
  · have hpos : 0 < infinite := by decide
    rcases hu with ⟨hzero, -⟩ | ⟨-, hlt, -⟩ | ⟨-, hu⟩
    · exact absurd hzero hpos.ne'
    · exact absurd hlt (lt_irrefl _)
    · cases s with
      | negative =>
        rw [hordinal] at h0
        simp only [Sign.apply] at h0
        omega
      | positive => exact Or.inr hu

theorem isTotal_iff : IsTotal x ↔ x.isFinite = true ∧ 0 < value x := by
  have hzero : (0.0 : Float).isFinite = true := by decide
  constructor
  · rintro ⟨hfinite, h⟩
    have hfinite : x.isFinite = true := hfinite
    rw [le_iff_value hfinite hzero, value_of_ordinal_zero ordinal_zero, not_le] at h
    exact ⟨hfinite, h⟩
  · rintro ⟨hfinite, h⟩
    refine ⟨hfinite, ?_⟩
    rwa [le_iff_value hfinite hzero, value_of_ordinal_zero ordinal_zero, not_le]

theorem exists_unpack_total (h : IsTotal x) : ∃ m e hm, x.toModel.unpack = .finite .positive m e hm := by
  obtain ⟨hfinite, hpos⟩ := isTotal_iff.1 h
  rcases finite_cases hfinite with ⟨hzero, -⟩ | ⟨s, v, h0, -, hordinal, hu⟩
  · rw [value_of_ordinal_zero hzero] at hpos
    exact absurd hpos (lt_irrefl _)
  · cases s with
    | negative =>
      rw [value_apply hordinal] at hpos
      simp only [Sign.apply, Int.cast_neg, Int.cast_one] at hpos
      have := number_pos h0
      linarith
    | positive => exact ⟨_, _, _, hu⟩

/-- numbers at nearest places are ordered as what they are nearest to -/
theorem le_of_ordinal_nearest {p q : ℚ} (hx : ordinal x = nearestSigned p) (hy : ordinal y = nearestSigned q) (h : p ≤ q) : x ≤ y := by
  rw [le_iff_ordinal (isNaN_of_ordinal_nearest hx) (isNaN_of_ordinal_nearest hy), hx, hy]
  exact nearestSigned_mono h

/-- what is added to infinity, or infinity added, makes infinity -/
theorem le_of_toNat_infinite (hx : x.isNaN = false) (hy : y.toBits.toNat = (packedInfinity Format.binary64 .positive).toNat) : x ≤ y := by
  rw [toNat_packedInfinity] at hy
  have hordinal : ordinal y = infinite := ordinal_of_magnitude (hy.trans (Nat.zero_add _)) le_rfl
  have hnumber : y.isNaN = false := by
    rw [← Bool.not_eq_true, isNaN_iff, hordinal]
    simp
  have hle : ¬ infinite < (ordinal x).natAbs := by
    rw [← isNaN_iff, hx]
    exact Bool.false_ne_true
  rw [le_iff_ordinal hx hnumber, hordinal]
  omega

/-- **What is added makes a sum no smaller.** -/
theorem le_add (hx : 0.0 ≤ x) (hy : 0.0 ≤ y) : x ≤ x + y := by
  have hpacked : (x + y).toBits.toNat =
      (UnpackedFloat.pack Format.binary64 (UnpackedFloat.add Format.binary64 x.toModel.unpack y.toModel.unpack)).toNat := rfl
  have hnumber := (zero_le_iff.1 hx).1
  rcases nonneg_cases hx with hfx | hux
  · rcases nonneg_cases hy with hfy | huy
    · exact le_of_ordinal_nearest (nearestSigned_value hfx).symm (ordinal_add hfx hfy) (le_add_of_nonneg_right (value_nonneg hy))
    · rw [huy] at hpacked
      rcases finite_cases hfx with ⟨-, s, hux⟩ | ⟨s, v, h0, -, -, hux⟩ <;>
        rw [hux] at hpacked <;> exact le_of_toNat_infinite hnumber hpacked
  · rw [hux] at hpacked
    rcases nonneg_cases hy with hfy | huy
    · rcases finite_cases hfy with ⟨-, s, huy⟩ | ⟨s, v, h0, -, -, huy⟩ <;>
        rw [huy] at hpacked <;> exact le_of_toNat_infinite hnumber hpacked
    · rw [huy] at hpacked
      exact le_of_toNat_infinite hnumber hpacked

/-! ### Multiples and shares -/

theorem zero_mul_total (h : IsTotal x) : 0.0 * x = 0.0 := by
  have hpacked : (0.0 * x).toBits.toNat = (UnpackedFloat.pack Format.binary64
      (UnpackedFloat.mul Format.binary64 (0.0 : Float).toModel.unpack x.toModel.unpack)).toNat := rfl
  obtain ⟨m, e, hm, hu⟩ := exists_unpack_total h
  rw [unpack_zeroLiteral, hu] at hpacked
  exact eq_of_toNat hpacked

theorem zero_div_total (h : IsTotal x) : 0.0 / x = 0.0 := by
  have hpacked : (0.0 / x).toBits.toNat = (UnpackedFloat.pack Format.binary64
      (UnpackedFloat.div Format.binary64 (0.0 : Float).toModel.unpack x.toModel.unpack)).toNat := rfl
  obtain ⟨m, e, hm, hu⟩ := exists_unpack_total h
  rw [unpack_zeroLiteral, hu] at hpacked
  exact eq_of_toNat hpacked

theorem total_div_self (h : IsTotal x) : x / x = 1.0 := by
  obtain ⟨hfinite, hpos⟩ := isTotal_iff.1 h
  have hordinal := ordinal_div hfinite hfinite hpos.ne'
  rw [div_self hpos.ne', ← value_one, nearestSigned_value (by decide), ordinal_one] at hordinal
  exact eq_of_toNat (toNat_of_ordinal (by decide) hordinal)

theorem mul_le_mul_total (h0 : 0.0 ≤ x) (hxy : x ≤ y) (hy : IsWeight y) (hz : IsTotal z) : x * z ≤ y * z := by
  have hy : y.isFinite = true := hy.1
  have hx := isFinite_of_le h0 hxy hy
  obtain ⟨hfinite, hpos⟩ := isTotal_iff.1 hz
  rw [le_iff_value hx hy] at hxy
  exact le_of_ordinal_nearest (ordinal_mul hx hfinite) (ordinal_mul hy hfinite) (mul_le_mul_of_nonneg_right hxy hpos.le)

theorem div_le_div_total (hx : 0.0 ≤ x) (hxy : x ≤ y) (hyz : y ≤ z) (hz : IsTotal z) : x / z ≤ y / z := by
  obtain ⟨hfinite, hpos⟩ := isTotal_iff.1 hz
  obtain ⟨hnx, hx0⟩ := zero_le_iff.1 hx
  obtain ⟨-, hny⟩ := isNaN_of_le hxy
  have hy : 0.0 ≤ y := by
    rw [zero_le_iff]
    rw [le_iff_ordinal hnx hny] at hxy
    exact ⟨hny, hx0.trans hxy⟩
  have hfy := isFinite_of_le hy hyz hfinite
  have hfx := isFinite_of_le hx hxy hfy
  rw [le_iff_value hfx hfy] at hxy
  exact le_of_ordinal_nearest (ordinal_div hfx hfinite hpos.ne') (ordinal_div hfy hfinite hpos.ne')
    (div_le_div_of_nonneg_right hxy hpos.le)

theorem unitOf_mem (w : UInt64) : (0.0 : Float) ≤ unitOf w ∧ (unitOf w : Float) < 1.0 := by
  obtain ⟨hfinite, -⟩ := value_unitOf w
  have hle := value_unitOf_le w
  refine ⟨zero_le_of_isFinite hfinite (value_unitOf_nonneg w), ?_⟩
  rw [lt_iff_value hfinite (by decide), value_one]
  have hgap : (0 : ℚ) < 1 / 2 ^ 53 := by positivity
  linarith

end

/-! ### With any power function -/

abbrev withPow (pow : Float → Float → Float) : Arith Float := { (inferInstance : Arith Float) with pow := pow }

/-- **Binary64 sums grow.** -/
theorem growing (pow : Float → Float → Float) : @Growing Float (withPow pow) := by
  have hzero : (0.0 : Float) ≤ 0.0 := by decide
  refine @Growing.mk Float (withPow pow) hzero ?_ ?_ ?_ ?_ fun a w ha hw => le_add ha hw
  · intro a b ha hb
    show a ≤ b ∨ b ≤ a
    rw [le_iff_ordinal (zero_le_iff.1 ha).1 (zero_le_iff.1 hb).1, le_iff_ordinal (zero_le_iff.1 hb).1 (zero_le_iff.1 ha).1]
    exact le_total _ _
  · intro a b c _ (hab : a ≤ b) (hbc : b ≤ c)
    show a ≤ c
    obtain ⟨ha, hb⟩ := isNaN_of_le hab
    obtain ⟨-, hc⟩ := isNaN_of_le hbc
    rw [le_iff_ordinal ha hb] at hab
    rw [le_iff_ordinal hb hc] at hbc
    rw [le_iff_ordinal ha hc]
    exact hab.trans hbc
  · intro a b ha hb
    show a < b ↔ ¬ b ≤ a
    rw [lt_iff_ordinal (zero_le_iff.1 ha).1 (zero_le_iff.1 hb).1, le_iff_ordinal (zero_le_iff.1 hb).1 (zero_le_iff.1 ha).1, not_le]
  · intro w hw
    exact zero_le_of_isWeight hw

/-- **Binary64 multiples of a sum grow.** -/
theorem scaling (pow : Float → Float → Float) : @Scaling Float (withPow pow) :=
  @Scaling.mk Float (withPow pow) (fun _ h => zero_mul_total h) fun _ _ _ h0 huv hv h => mul_le_mul_total h0 huv hv h

/-- **Binary64 shares grow**, and unit numbers are below one. -/
theorem sharing (pow : Float → Float → Float) : @Sharing Float (withPow pow) :=
  @Sharing.mk Float (withPow pow) (fun _ h => zero_div_total h) (fun _ h => total_div_self h)
    (fun _ _ _ ha hab hb h => div_le_div_total ha hab hb h) unitOf_mem

end Binary64

end Sampling
