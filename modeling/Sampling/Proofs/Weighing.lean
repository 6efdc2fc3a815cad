/-
Weights, zeros and keys.

A weight list may hold zeros of either sign. `Weighing` says what is asked of an arithmetic so that they can be told apart and
change nothing: a weight that is no zero is above zero, and a running sum of weights stays what it is when a zero is added. So the
sum of an accepted list is that of the list without its zeros (`Weighing.total?_filter`). `KeysOrdered` says that keys can be
compared.

Binary64 is such an arithmetic (`Binary64.weighing`), though a zero added to a negative zero would not leave it as it is: running
sums start from the positive one and never fall below it. Its keys are in order for every logarithm that is below zero and
finite between zero and one (`Binary64.keysOrdered`).
-/
import Sampling.Proofs.SignedNumbers
import Sampling.Weighted

namespace Sampling

variable {F : Type} [Arith F]

/-! ## What is asked of an arithmetic -/

/-- finite and not below zero: what a weight is on its own -/
def IsWeight (w : F) : Prop := Arith.isFinite w = true ∧ ¬ w < 0.0

/-- a weight other than zero; zeros have either sign -/
def isNonzero (w : F) : Bool := !(w == 0.0)

/-- zeros can be told apart among weights and unit numbers, and change no running sum -/
structure Weighing (F : Type) [Arith F] : Prop where
  /-- a weight that is no zero is above zero -/
  isNonzero_eq : ∀ w : F, IsWeight w → isNonzero w = decide (0.0 < w)
  /-- a zero changes no running sum of weights -/
  add_zero : ∀ (ws : List F) (z : F), (∀ w ∈ ws, IsWeight w) → isNonzero z = false →
    ws.foldl (· + ·) 0.0 + z = ws.foldl (· + ·) 0.0
  /-- unit numbers could be weights -/
  unit : ∀ v : UInt64, IsWeight (unitOf v : F)

/-- keys that a sample can come upon: of unit numbers above zero, for weights above zero -/
def IsKey (x : F) : Prop :=
  ∃ (v : UInt64) (w : F), (0.0 : F) < unitOf v ∧ IsWeight w ∧ 0.0 < w ∧ x = Draw.key (unitOf v) w

/-- keys are totally ordered: none is missing -/
structure KeysOrdered (F : Type) [Arith F] : Prop where
  /-- of two keys, one at most is the smaller -/
  asymm : ∀ a b : F, IsKey a → IsKey b → a < b → ¬ b < a
  /-- a key no larger than one that is no larger is no larger -/
  trans : ∀ a b c : F, IsKey a → IsKey b → IsKey c → ¬ b < a → ¬ c < b → ¬ c < a

/-! ## Accepted lists -/

theorem total?_eq_ok_iff {weights : List F} {sum : F} :
    Weights.total? weights = .ok sum ↔
      weights ≠ [] ∧ (∀ w ∈ weights, IsWeight w) ∧ weights.foldl (· + ·) 0.0 = sum ∧ Arith.isFinite sum = true ∧ ¬ sum ≤ 0.0 := by
  have hsound : (weights.any fun w => !Arith.isFinite w || decide (w < 0.0)) = true ↔ ¬ ∀ w ∈ weights, IsWeight w := by
    simp only [List.any_eq_true, Bool.or_eq_true, Bool.not_eq_true', decide_eq_true_iff, not_forall, IsWeight, not_and_or,
      Bool.not_eq_true, not_not, exists_prop]
  unfold Weights.total?
  by_cases hempty : weights.isEmpty = true
  · rw [if_pos hempty]
    exact ⟨fun h => (by cases h), fun h => absurd (List.isEmpty_iff.1 hempty) h.1⟩
  · rw [if_neg hempty]
    by_cases hweights : ∀ w ∈ weights, IsWeight w
    · rw [if_neg fun hbad => hsound.1 hbad hweights]
      dsimp only
      by_cases hsum : (!Arith.isFinite (weights.foldl (· + ·) 0.0) || decide (weights.foldl (· + ·) (0.0 : F) ≤ 0.0)) = true
      · rw [if_pos hsum]
        refine ⟨fun h => (by cases h), ?_⟩
        rintro ⟨-, -, rfl, hfinite, hpos⟩
        rw [hfinite, decide_eq_false hpos] at hsum
        cases hsum
      · rw [if_neg hsum]
        rw [Bool.or_eq_true, not_or, Bool.not_eq_true', Bool.not_eq_false, decide_eq_true_iff] at hsum
        constructor
        · intro h
          cases h
          exact ⟨fun hnil => hempty (List.isEmpty_iff.2 hnil), hweights, rfl, hsum⟩
        · rintro ⟨-, -, rfl, -⟩
          rfl
    · rw [if_pos (hsound.2 hweights)]
      exact ⟨fun h => (by cases h), fun h => absurd h.2.1 hweights⟩

/-- the sum of weights is that of the weights other than zero -/
theorem Weighing.foldl_filter (hF : Weighing F) {ws : List F} (h : ∀ w ∈ ws, IsWeight w) :
    (ws.filter isNonzero).foldl (· + ·) 0.0 = ws.foldl (· + ·) 0.0 := by
  induction ws using List.reverseRecOn with
  | nil => rfl
  | append_singleton ws w ih =>
    have hfront : ∀ w ∈ ws, IsWeight w := fun w hw => h w (List.mem_append_left _ hw)
    rw [List.filter_append, List.foldl_append, List.foldl_append, ih hfront]
    by_cases hw : isNonzero w = true
    · rw [List.filter_cons_of_pos hw, List.filter_nil]
    · rw [List.filter_cons_of_neg hw, List.filter_nil]
      exact (hF.add_zero ws w hfront (Bool.eq_false_of_not_eq_true hw)).symm

/-- **Zeros make no difference to the sum**: an accepted list has the same sum without its zeros, unless nothing is left. -/
theorem Weighing.total?_filter (hF : Weighing F) {weights : List F} {sum : F} (h : Weights.total? weights = .ok sum)
    (hsome : weights.filter isNonzero ≠ []) : Weights.total? (weights.filter isNonzero) = .ok sum := by
  obtain ⟨-, hweights, hsum, hfinite, hpos⟩ := total?_eq_ok_iff.1 h
  refine total?_eq_ok_iff.2 ⟨hsome, fun w hw => hweights w (List.mem_of_mem_filter hw), ?_, hfinite, hpos⟩
  rw [hF.foldl_filter hweights, hsum]

/-! ## Binary64 -/

namespace Binary64

open Float.Model Float.Model.UnpackedFloat

section
variable {x w : Float}

theorem unpack_zeroLiteral : (0.0 : Float).toModel.unpack = .zero .positive := unpack_zero (s := .positive) rfl

theorem word_cases (hx : x.toBits.toNat ≤ infinite) :
    (x.toBits.toNat = 0 ∧ x.toModel.unpack = .zero .positive) ∨ (x.toBits.toNat ≠ 0 ∧ x.toBits.toNat < infinite) ∨
      (x.toBits.toNat = infinite ∧ x.toModel.unpack = .infinity .positive) := by
  have hword : x.toModel.toBits.toBitVec.toNat = signWord .positive + x.toBits.toNat := (Nat.zero_add _).symm
  rcases unpack_cases hword hx with hzero | ⟨h0, hlt, -⟩ | hinfinite
  · exact Or.inl hzero
  · exact Or.inr (Or.inl ⟨h0, hlt⟩)
  · exact Or.inr (Or.inr hinfinite)

theorem zero_le_of_isWeight (h : IsWeight w) : 0.0 ≤ w := zero_le_of_not_lt h.1 h.2

theorem weight_cases (h : IsWeight w) :
    (∃ s, w.toModel.unpack = .zero s) ∨ (w.toBits.toNat ≠ 0 ∧ w.toBits.toNat < infinite) := by
  have hplace := (zero_le_iff.1 (zero_le_of_isWeight h)).2
  rcases finite_cases h.1 with ⟨-, hzero⟩ | ⟨s, v, hv0, hlt, hordinal, -⟩
  · exact Or.inl hzero
  · -- a place above zero is the word itself
    have hpositive : ordinal w = v := by
      rw [hordinal] at hplace ⊢
      cases s with
      | negative =>
        simp only [Sign.apply] at hplace
        omega
      | positive => rfl
    have hword : w.toBits.toNat = v := toNat_of_ordinal (Nat.pos_of_ne_zero hv0) hpositive
    exact Or.inr ⟨hword ▸ hv0, hword ▸ hlt⟩

/-- whether a number is a zero is told by comparing it to the positive zero -/
theorem isNonzero_of_unpack {u : UnpackedFloat} (h : w.toModel.unpack = u) :
    isNonzero w = !(u.compare (.zero .positive) == some .eq) := by
  rw [← h, ← unpack_zeroLiteral]
  rfl

theorem zero_lt_iff_of_unpack {u : UnpackedFloat} (h : w.toModel.unpack = u) :
    0.0 < w ↔ (UnpackedFloat.compare (.zero .positive) u == some .lt) = true := by
  rw [← h, ← unpack_zeroLiteral]
  exact lt_iff_compare 0.0 w

theorem isNonzero_weight (h : IsWeight w) : isNonzero w = decide (0.0 < w) := by
  rcases weight_cases h with ⟨s, hzero⟩ | ⟨h0, hlt⟩
  · rw [isNonzero_of_unpack hzero]
    refine (decide_eq_false fun hpos => ?_).symm
    have hlt := (zero_lt_iff_of_unpack hzero).1 hpos
    cases hlt
  · have hunpack := unpack_word rfl h0 hlt
    rw [isNonzero_of_unpack hunpack]
    exact (decide_eq_true ((zero_lt_iff_of_unpack hunpack).2 rfl)).symm

/-! ### Running sums -/

theorem toNat_add_unpacked (x w : Float) : (x + w).toBits.toNat =
    (UnpackedFloat.pack Format.binary64 (UnpackedFloat.add Format.binary64 x.toModel.unpack w.toModel.unpack)).toNat := rfl

theorem add_zero_of_word_le (hx : x.toBits.toNat ≤ infinite) {s : Sign} (hw : w.toModel.unpack = .zero s) : x + w = x := by
  rcases word_cases hx with ⟨h0, hzero⟩ | ⟨h0, hlt⟩ | ⟨h0, hinfinite⟩
  · apply eq_of_toNat
    rw [toNat_add_unpacked, hzero, hw, h0]
    cases s <;> rfl
  · exact add_zero_word hw rfl h0 hlt
  · apply eq_of_toNat
    rw [toNat_add_unpacked, hinfinite, hw, h0]
    rfl

/-- a weight added to what is no less than the positive zero -/
theorem word_add_weight_le (hx : x.toBits.toNat ≤ infinite) (hw : IsWeight w) : (x + w).toBits.toNat ≤ infinite := by
  rcases weight_cases hw with ⟨s, hzero⟩ | ⟨h0, hlt⟩
  · rw [add_zero_of_word_le hx hzero]
    exact hx
  · rcases word_cases hx with ⟨-, hzero⟩ | ⟨hx0, hxlt⟩ | ⟨-, hinfinite⟩
    · rw [zero_add_word hzero rfl h0 hlt]
      exact hlt.le
    · rw [toNat_add rfl hx0 hxlt rfl h0 hlt]
      exact nearest_le_infinite _
    · rw [toNat_add_unpacked, hinfinite, unpack_word rfl h0 hlt]
      exact (toNat_packedInfinity .positive).le

/-- running sums of weights start from the positive zero and never fall below it -/
theorem word_foldl_le {ws : List Float} (h : ∀ w ∈ ws, IsWeight w) {x : Float} (hx : x.toBits.toNat ≤ infinite) :
    (ws.foldl (· + ·) x).toBits.toNat ≤ infinite := by
  induction ws generalizing x with
  | nil => exact hx
  | cons w ws ih =>
    have hrest : ∀ w ∈ ws, IsWeight w := fun w hw => h w (List.mem_cons_of_mem _ hw)
    exact ih hrest (word_add_weight_le hx (h w List.mem_cons_self))

theorem unpack_of_not_isNonzero (h : isNonzero w = false) : ∃ s, w.toModel.unpack = .zero s := by
  have hcompare := isNonzero_of_unpack (w := w) rfl
  rw [h] at hcompare
  cases hunpack : w.toModel.unpack with
  | zero s => exact ⟨s, rfl⟩
  | notANumber =>
    rw [hunpack] at hcompare
    cases hcompare
  | infinity s =>
    rw [hunpack] at hcompare
    cases s <;> cases hcompare
  | finite s m e hm =>
    rw [hunpack] at hcompare
    cases s <;> cases hcompare

/-! ### Unit numbers -/

theorem isWeight_of_word (hlt : x.toBits.toNat < infinite) : IsWeight x := by
  have hneg : ¬ x < 0.0 := by
    rw [lt_iff_word_lt (x := x) (y := 0.0) (v := x.toBits.toNat) (w := 0) rfl hlt.le rfl (by decide)]
    exact Nat.not_lt_zero _
  rcases word_cases hlt.le with ⟨-, hzero⟩ | ⟨h0, -⟩ | ⟨hinfinite, -⟩
  · have hfinite : x.toModel.unpack.isFinite = true := by rw [hzero]; rfl
    exact ⟨hfinite, hneg⟩
  · have hfinite : x.toModel.unpack.isFinite = true := by rw [unpack_word rfl h0 hlt]; rfl
    exact ⟨hfinite, hneg⟩
  · exact absurd hinfinite hlt.ne

theorem word_unitOf_lt (v : UInt64) : (unitOf v : Float).toBits.toNat < infinite := by
  have hn := toNat_shiftRight_lt v
  have hunit : (unitOf v : Float) = Float.ofNat (v >>> 11).toNat / Float.ofNat (2 ^ 53) := rfl
  have hscale : (Float.ofNat (2 ^ 53)).toBits.toNat = 0x4340000000000000 := rfl
  rw [hunit]
  generalize (v >>> 11).toNat = n at hn
  rcases Nat.eq_zero_or_pos n with rfl | hpos
  · decide
  · obtain ⟨hnumber, hfinite⟩ := number_nearest_natCast hn
    rw [toNat_div (toNat_ofNat n) (nearest_natCast_pos hpos) hfinite hscale (by decide) (by decide), hnumber, number_scale]
    have hle : (n : ℚ) / 2 ^ 53 ≤ number 0x3ff0000000000000 := by
      rw [number_one, div_le_one (by norm_num)]
      exact_mod_cast hn.le
    exact nearest_lt (by decide) hle (number_strictMono (by decide))

end

/-! ### With any logarithm -/

abbrev withLn (ln : Float → Float) : Arith Float := { (inferInstance : Arith Float) with ln := ln }

/-- **Binary64 tells zeros apart and adds them without change.** -/
theorem weighing (ln : Float → Float) : @Weighing Float (withLn ln) := by
  refine @Weighing.mk Float (withLn ln) (fun w hw => isNonzero_weight hw) ?_ fun v => isWeight_of_word (word_unitOf_lt v)
  intro ws z hws hz
  obtain ⟨s, hzero⟩ := unpack_of_not_isNonzero hz
  have hstart : (0.0 : Float).toBits.toNat ≤ infinite := by decide
  exact add_zero_of_word_le (word_foldl_le hws hstart) hzero

/-- a logarithm that is below zero and finite at all unit numbers above zero -/
def BelowZero (ln : Float → Float) : Prop :=
  ∀ v : UInt64, (0.0 : Float) < unitOf v → (-(ln (unitOf v))).toBits.toNat ≠ 0 ∧ (-(ln (unitOf v))).toBits.toNat < infinite

/-- the logarithm at one quarter and at three quarters -/
def lnOfQuarter (u : Float) : Float := if u == 0.75 then -0.2876820724517809 else -1.3862943611198906

theorem belowZero_lnOfQuarter : BelowZero lnOfQuarter := by
  intro v _
  unfold lnOfQuarter
  split
  · decide
  · decide

/-- keys are no less than zero; the largest may be infinite -/
theorem word_key_le {ln : Float → Float} (hln : BelowZero ln) {x : Float} (h : @IsKey Float (withLn ln) x) :
    x.toBits.toNat ≤ infinite := by
  obtain ⟨v, w, hv, hw, hpos, rfl⟩ := h
  obtain ⟨h0, hlt⟩ := hln v hv
  rcases weight_cases hw with ⟨s, hzero⟩ | ⟨hw0, hwlt⟩
  · have hless := (zero_lt_iff_of_unpack hzero).1 hpos
    cases hless
  · have hquotient := toNat_div rfl h0 hlt rfl hw0 hwlt
    exact hquotient.trans_le (nearest_le_infinite _)

/-- **Binary64 keys are in order.** -/
theorem keysOrdered {ln : Float → Float} (hln : BelowZero ln) : @KeysOrdered Float (withLn ln) := by
  refine @KeysOrdered.mk Float (withLn ln) ?_ ?_
  · intro a b ha hb (hab : a < b)
    show ¬ b < a
    rw [lt_iff_word_lt rfl (word_key_le hln ha) rfl (word_key_le hln hb)] at hab
    rw [lt_iff_word_lt rfl (word_key_le hln hb) rfl (word_key_le hln ha)]
    exact hab.not_gt
  · intro a b c ha hb hc (hba : ¬ b < a) (hcb : ¬ c < b)
    show ¬ c < a
    rw [lt_iff_word_lt rfl (word_key_le hln hb) rfl (word_key_le hln ha), not_lt] at hba
    rw [lt_iff_word_lt rfl (word_key_le hln hc) rfl (word_key_le hln hb), not_lt] at hcb
    rw [lt_iff_word_lt rfl (word_key_le hln hc) rfl (word_key_le hln ha), not_lt]
    exact hba.trans hcb

end Binary64

end Sampling
