/-
Missing numbers in the checks of mean and variance.

A missing number goes through every operation, and no comparison holds of it (`Propagating`; binary64 is such an arithmetic,
`Binary64.propagating`). So one missing sample makes mean and variance missing, and with them a distance or a relative error, and
what is missing is within no band and no tolerance: the variance check never passes.

The mean check asks first whether there is a standard error, by comparing it with zero. A missing error is not above zero and is
taken for none at all, as if the variance were zero: then only whether the mean is met counts, and the distance is zero or infinity,
neither of them missing. With a missing variance the check can so pass, in grade A (`missing_variance_passes`).

`missing_passes_only_without_error`: exactly when.
-/
import Sampling.Battery.Moments
import Sampling.Proofs.SignedNumbers

namespace Sampling

/-! ## What is asked of an arithmetic -/

section
variable {F : Type} [Arith F]

/-- a number that is none -/
def IsMissing (x : F) : Prop := Arith.isNaN x = true

def HasMissing (xs : List F) : Prop := ∃ x ∈ xs, IsMissing x

/-- missing numbers go through every operation, and no comparison holds of them -/
structure Propagating (F : Type) [Arith F] : Prop where
  add : ∀ x y : F, IsMissing x ∨ IsMissing y → IsMissing (x + y)
  sub : ∀ x y : F, IsMissing x ∨ IsMissing y → IsMissing (x - y)
  mul : ∀ x y : F, IsMissing x ∨ IsMissing y → IsMissing (x * y)
  div : ∀ x y : F, IsMissing x ∨ IsMissing y → IsMissing (x / y)
  abs : ∀ x : F, IsMissing x → IsMissing (Arith.abs x)
  sqrt : ∀ x : F, IsMissing x → IsMissing (Arith.sqrt x)
  not_lt : ∀ x y : F, IsMissing x ∨ IsMissing y → ¬ x < y
  not_le : ∀ x y : F, IsMissing x ∨ IsMissing y → ¬ x ≤ y
  beq : ∀ x y : F, IsMissing x ∨ IsMissing y → (x == y) = false

theorem hasMissing_append {xs ys : List F} : HasMissing (xs ++ ys) ↔ HasMissing xs ∨ HasMissing ys := by
  simp only [HasMissing, List.mem_append, or_and_right, exists_or]

theorem hasMissing_cons {x : F} {xs : List F} : HasMissing (x :: xs) ↔ IsMissing x ∨ HasMissing xs := by
  simp only [HasMissing, List.mem_cons, or_and_right, exists_or, exists_eq_left]

theorem not_hasMissing_nil : ¬ HasMissing ([] : List F) := by
  rintro ⟨x, hx, -⟩
  exact List.not_mem_nil hx

/-- a running sum is missing from the first missing number on -/
theorem Propagating.foldl_add (hF : Propagating F) {xs : List F} {s : F} (h : IsMissing s ∨ HasMissing xs) :
    IsMissing (xs.foldl (· + ·) s) := by
  induction xs generalizing s with
  | nil => exact h.resolve_right not_hasMissing_nil
  | cons x xs ih =>
    rw [hasMissing_cons, ← or_assoc] at h
    exact ih (h.imp_left (hF.add s x))

theorem Propagating.sum (hF : Propagating F) {xs : List F} (h : HasMissing xs) : IsMissing (Arith.sum xs) :=
  hF.foldl_add (Or.inr h)

end

/-! ## Binary64 -/

namespace Binary64

open Float.Model Float.Model.UnpackedFloat

section
variable {x y z : Float}

theorem isMissing_iff (x : Float) : IsMissing x ↔ x.toModel.unpack = .notANumber := by
  have hstatus : IsMissing x ↔ x.toModel.unpack.isNaN = true := Iff.rfl
  rw [hstatus]
  cases x.toModel.unpack with
  | notANumber => exact iff_of_true rfl rfl
  | _ => exact iff_of_false Bool.false_ne_true nofun

theorem isMissing_of_pack {u : UnpackedFloat} (hu : u = .notANumber)
    (hz : z.toModel.unpack = unpack Format.binary64 (UnpackedFloat.pack Format.binary64 u)) : IsMissing z := by
  rw [isMissing_iff, hz, hu]
  rfl

theorem isMissing_of_operation (op : UnpackedFloat → UnpackedFloat → UnpackedFloat)
    (hleft : ∀ u, op .notANumber u = .notANumber) (hright : ∀ u, op u .notANumber = .notANumber)
    (hz : z.toModel.unpack = unpack Format.binary64 (UnpackedFloat.pack Format.binary64 (op x.toModel.unpack y.toModel.unpack)))
    (h : IsMissing x ∨ IsMissing y) : IsMissing z := by
  refine isMissing_of_pack ?_ hz
  rcases h with h | h <;> rw [(isMissing_iff _).1 h]
  · exact hleft _
  · exact hright _

theorem compare_of_isMissing (h : IsMissing x ∨ IsMissing y) : x.toModel.unpack.compare y.toModel.unpack = none := by
  rcases h with h | h <;> rw [(isMissing_iff _).1 h]
  · rfl
  · cases x.toModel.unpack <;> rfl

end

/-- **Binary64 lets no missing number get lost.** -/
theorem propagating : Propagating Float where
  add _ _ := isMissing_of_operation (UnpackedFloat.add Format.binary64) (fun _ => rfl) (fun u => by cases u <;> rfl) rfl
  sub _ _ := isMissing_of_operation (UnpackedFloat.sub Format.binary64) (fun _ => rfl) (fun u => by cases u <;> rfl) rfl
  mul _ _ := isMissing_of_operation (UnpackedFloat.mul Format.binary64) (fun _ => rfl) (fun u => by cases u <;> rfl) rfl
  div _ _ := isMissing_of_operation (UnpackedFloat.div Format.binary64) (fun _ => rfl) (fun u => by cases u <;> rfl) rfl
  abs x h := isMissing_of_pack (congrArg UnpackedFloat.abs ((isMissing_iff x).1 h)) rfl
  sqrt x h := isMissing_of_pack (congrArg (UnpackedFloat.sqrt Format.binary64) ((isMissing_iff x).1 h)) rfl
  not_lt x y h := by
    rw [lt_iff_compare, compare_of_isMissing h]
    exact Bool.false_ne_true
  not_le x y h := by
    rw [le_iff_compare, compare_of_isMissing h]
    exact Bool.false_ne_true
  beq x y h := by
    have hcompare : (x == y) = (x.toModel.unpack.compare y.toModel.unpack == some .eq) := rfl
    rw [hcompare, compare_of_isMissing h]
    rfl

end Binary64

namespace Battery

section
variable {F : Type} [Arith F] {xs : List F} {observed mean variance error band tolerance : F}

/-! ## Moments -/

theorem isMissing_mean (hF : Propagating F) (h : HasMissing xs) : IsMissing (Moments.of xs).mean := by
  have hne : xs.length ≠ 0 := by
    obtain ⟨x, hx, -⟩ := h
    exact (List.length_pos_of_mem hx).ne'
  unfold Moments.of
  rw [if_neg hne]
  exact hF.div _ _ (Or.inl (hF.sum h))

theorem variance_eq (hn : 2 ≤ xs.length) : (Moments.of xs).variance =
    Arith.sum (xs.map fun x => (x - (Moments.of xs).mean) * (x - (Moments.of xs).mean)) / (Arith.ofNat xs.length - 1.0) := by
  unfold Moments.of
  rw [if_neg (by omega)]
  exact if_neg (by omega)

theorem isMissing_variance (hF : Propagating F) (hn : 2 ≤ xs.length) (h : HasMissing xs) : IsMissing (Moments.of xs).variance := by
  have hmean := isMissing_mean hF h
  obtain ⟨x, hx, -⟩ := h
  have hsquares : HasMissing (xs.map fun x => (x - (Moments.of xs).mean) * (x - (Moments.of xs).mean)) :=
    ⟨_, List.mem_map_of_mem hx, hF.mul _ _ (Or.inl (hF.sub _ _ (Or.inr hmean)))⟩
  rw [variance_eq hn]
  exact hF.div _ _ (Or.inl (hF.sum hsquares))

/-! ## Distances and errors -/

theorem isMissing_zScore (hF : Propagating F) (herror : 0.0 < error) (h : IsMissing observed ∨ IsMissing mean) :
    IsMissing (zScore observed mean error) := by
  rw [zScore, if_pos herror]
  exact hF.div _ _ (Or.inl (hF.abs _ (hF.sub _ _ h)))

/-- without an error above zero, the distance is zero or infinity, as the mean is met or missed -/
theorem zScore_le_iff (herror : ¬ 0.0 < error) : zScore observed mean error ≤ band ↔
    (observed == mean) = true ∧ 0.0 ≤ band ∨ (observed == mean) = false ∧ Arith.infinity ≤ band := by
  rw [zScore, if_neg herror]
  cases observed == mean <;> simp

/-- a zero variance is no way out: the other branch of a relative error is missing too -/
theorem isMissing_relativeError (hF : Propagating F) (h : IsMissing observed ∨ IsMissing variance) :
    IsMissing (relativeError observed variance) := by
  unfold relativeError
  by_cases hzero : (variance == 0.0) = true
  · rw [if_pos hzero]
    rcases h with h | h
    · exact hF.abs _ h
    · rw [hF.beq _ _ (Or.inl h)] at hzero
      cases hzero
  · rw [if_neg hzero]
    exact hF.div _ _ (Or.inl (hF.abs _ (hF.sub _ _ h)))

/-! ## Checks -/

def standardError (xs : List F) (variance : F) : F := Arith.sqrt (variance / Arith.ofNat xs.length)

theorem isMissing_standardError (hF : Propagating F) (h : IsMissing variance) : IsMissing (standardError xs variance) :=
  hF.sqrt _ (hF.div _ _ (Or.inl h))

theorem varianceCheck_passed_iff : (varianceCheck xs variance tolerance).passed = true ↔
    2 ≤ xs.length ∧ relativeError (Moments.of xs).variance variance ≤ tolerance := by
  unfold varianceCheck
  by_cases hn : xs.length < 2
  · rw [if_pos hn]
    exact iff_of_false Bool.false_ne_true fun h => absurd h.1 (by omega)
  · rw [if_neg hn]
    exact decide_eq_true_iff.trans (iff_and_self.2 fun _ => by omega)

theorem meanCheck_passed_iff {t : Tails F} (ht : ∀ x, ∃ p, t.erfc x = some p) (xs : List F) (mean variance band : F) :
    ∃ v, meanCheck t xs mean variance band = some v ∧
      (v.passed = true ↔ 2 ≤ xs.length ∧ zScore (Moments.of xs).mean mean (standardError xs variance) ≤ band) := by
  unfold meanCheck
  by_cases hn : xs.length < 2
  · rw [if_pos hn]
    exact ⟨_, rfl, iff_of_false Bool.false_ne_true fun h => absurd h.1 (by omega)⟩
  · obtain ⟨p, hp⟩ := ht (Arith.abs (zScore (Moments.of xs).mean mean (standardError xs variance)) / Arith.sqrtTwo)
    rw [if_neg hn]
    refine ⟨_, congrArg (Option.map _) hp, ?_⟩
    exact decide_eq_true_iff.trans (iff_and_self.2 fun _ => by omega)

/-- **The variance check never passes with a missing number.** -/
theorem varianceCheck_of_hasMissing (hF : Propagating F) (h : HasMissing (xs ++ [variance, tolerance])) :
    (varianceCheck xs variance tolerance).passed = false := by
  rw [← Bool.not_eq_true, varianceCheck_passed_iff]
  rintro ⟨hn, hle⟩
  simp only [hasMissing_append, hasMissing_cons, not_hasMissing_nil, or_false] at h
  refine hF.not_le _ _ ?_ hle
  rcases h with h | h | h
  · exact Or.inl (isMissing_relativeError hF (Or.inl (isMissing_variance hF hn h)))
  · exact Or.inl (isMissing_relativeError hF (Or.inr h))
  · exact Or.inr h

/-- a missing number within the band: there is no error, and the mean is met under a missing variance, or the band is infinite -/
theorem zScore_le_iff_of_hasMissing (hF : Propagating F) (h : HasMissing (xs ++ [mean, variance, band])) :
    zScore (Moments.of xs).mean mean (standardError xs variance) ≤ band ↔
      ¬ 0.0 < standardError xs variance ∧ (IsMissing variance ∧ ((Moments.of xs).mean == mean) = true ∧ 0.0 ≤ band ∨
        ((Moments.of xs).mean == mean) = false ∧ Arith.infinity ≤ band) := by
  simp only [hasMissing_append, hasMissing_cons, not_hasMissing_nil, or_false] at h
  by_cases herror : 0.0 < standardError xs variance
  · have hvariance : ¬ IsMissing variance := fun hmissing =>
      hF.not_lt _ _ (Or.inr (isMissing_standardError hF hmissing)) herror
    refine iff_of_false (hF.not_le _ _ ?_) fun h => h.1 herror
    rcases h with h | h | h | h
    · exact Or.inl (isMissing_zScore hF herror (Or.inl (isMissing_mean hF h)))
    · exact Or.inl (isMissing_zScore hF herror (Or.inr h))
    · exact absurd h hvariance
    · exact Or.inr h
  · rw [zScore_le_iff herror, and_iff_right herror]
    refine or_congr_left (iff_and_self.2 ?_)
    rintro ⟨hmet, hband⟩
    -- a mean that is met is not missing, nor are its samples; a band from zero on is not missing either
    rcases h with h | h | h | h
    · rw [hF.beq _ _ (Or.inl (isMissing_mean hF h))] at hmet
      cases hmet
    · rw [hF.beq _ _ (Or.inr h)] at hmet
      cases hmet
    · exact h
    · exact absurd hband (hF.not_le _ _ (Or.inr h))

end

/-- **A missing number passes only where there is no standard error.** In an arithmetic through which missing numbers go, and whatever
the tail functions answer:
- with a missing number among samples, variance and tolerance the variance check does not pass;
- with one among samples, mean, variance and band the mean check does not pass if the standard error is above zero, or if the
  variance is not missing and the band not infinite;
- and it does pass, with such a number, exactly if there are two samples, the standard error is not above zero, and either the variance
  is missing and the mean is met and the band not below zero, or the mean is not met and the band is infinite. -/
theorem missing_passes_only_without_error {F : Type} [Arith F] (hF : Propagating F) {t : Tails F} (ht : ∀ x, ∃ p, t.erfc x = some p)
    (xs : List F) (mean variance band tolerance : F) :
    (HasMissing (xs ++ [variance, tolerance]) → (varianceCheck xs variance tolerance).passed = false) ∧
    (HasMissing (xs ++ [mean, variance, band]) → ∃ v, meanCheck t xs mean variance band = some v ∧
      (0.0 < standardError xs variance ∨ ¬ IsMissing variance ∧ ¬ Arith.infinity ≤ band → v.passed = false) ∧
      (v.passed = true ↔ 2 ≤ xs.length ∧ ¬ 0.0 < standardError xs variance ∧
        (IsMissing variance ∧ ((Moments.of xs).mean == mean) = true ∧ 0.0 ≤ band ∨
          ((Moments.of xs).mean == mean) = false ∧ Arith.infinity ≤ band))) := by
  refine ⟨varianceCheck_of_hasMissing hF, fun h => ?_⟩
  obtain ⟨v, hv, hpassed⟩ := meanCheck_passed_iff ht xs mean variance band
  rw [zScore_le_iff_of_hasMissing hF h] at hpassed
  refine ⟨v, hv, fun hfails => ?_, hpassed⟩
  rw [← Bool.not_eq_true, hpassed]
  rintro ⟨-, herror, hpasses⟩
  rcases hfails with hpositive | ⟨hvariance, hband⟩
  · exact herror hpositive
  · rcases hpasses with ⟨hmissing, -⟩ | ⟨-, hinfinite⟩
    · exact hvariance hmissing
    · exact hband hinfinite

/-- a missing sample fails both checks where the variance is one -/
theorem missing_passes_only_without_error_of_sample : Propagating Float ∧ (∀ x, ∃ p, (Tails.special : Tails Float).erfc x = some p) ∧
    HasMissing ([1.0, Arith.nan, 3.0] : List Float) ∧
    (∃ v, meanCheck Tails.special [1.0, Arith.nan, 3.0] (2.0 : Float) 1.0 5.0 = some v ∧ v.passed = false) ∧
    (varianceCheck [1.0, Arith.nan, 3.0] (1.0 : Float) 0.5).passed = false := by
  have herfc : ∀ x, ∃ p, (Tails.special : Tails Float).erfc x = some p := fun _ => ⟨_, rfl⟩
  have hsample : HasMissing ([1.0, Arith.nan, 3.0] : List Float) := ⟨Arith.nan, by simp, rfl⟩
  have hpositive : (0.0 : Float) < standardError [1.0, Arith.nan, 3.0] 1.0 := by decide +kernel
  obtain ⟨hvariance, hmean⟩ :=
    missing_passes_only_without_error Binary64.propagating herfc [1.0, Arith.nan, 3.0] 2.0 1.0 5.0 0.5
  obtain ⟨v, hv, hfails, -⟩ := hmean (hasMissing_append.2 (Or.inl hsample))
  exact ⟨Binary64.propagating, herfc, hsample, ⟨v, hv, hfails (Or.inl hpositive)⟩, hvariance (hasMissing_append.2 (Or.inl hsample))⟩

/-- **A missing variance passes**: the mean of three twos is two, and that is enough for grade A. -/
theorem missing_variance_passes : IsMissing (Arith.nan : Float) ∧
    ∃ v, meanCheck Tails.special [2.0, 2.0, 2.0] (2.0 : Float) Arith.nan 1.0 = some v ∧ v.passed = true ∧ v.grade = .a :=
  ⟨rfl, _, rfl, by decide +kernel, by decide +kernel⟩

end Battery

end Sampling
