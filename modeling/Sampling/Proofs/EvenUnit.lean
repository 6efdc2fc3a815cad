/-
Unit numbers are even, and coins count them.

The words with one unit number are the `2 ^ 11` that agree in their upper 53 bits (`ncard_unit`), so every multiple of `2 ^ -53` below
one is as likely as any other. A coin of probability `p` shows true on the unit numbers below `p`, which are whole cells of words:
as many as `p` has whole multiples of `2 ^ -53` in it, and one more for a remainder (`ncard_heads`). So its chance is `p` rounded up
to a multiple of `2 ^ -53`.

`unit_even_coin_rounded_up`: both, with what the draws read and return.
-/
import Mathlib.Algebra.Order.Floor.Semifield
import Sampling.Distribution.Discrete
import Sampling.Proofs.SignedNumbers
import Sampling.Proofs.Unbiased

namespace Sampling

open Binary64

/-! ## Cells -/

/-- the words whose upper 53 bits are `k` stand in a row -/
theorem upper_bits_eq_iff (w : UInt64) (k : ℕ) : (w >>> 11).toNat = k ↔ 2 ^ 11 * k ≤ w.toNat ∧ w.toNat < 2 ^ 11 * (k + 1) := by
  rw [toNat_shiftRight]
  omega

theorem upper_bits_lt_iff (w : UInt64) (k : ℕ) : (w >>> 11).toNat < k ↔ w.toNat < 2 ^ 11 * k := by
  rw [toNat_shiftRight]
  omega

theorem value_unitOf_eq_iff (w : UInt64) (k : ℕ) : value (unitOf w) = k / 2 ^ 53 ↔ (w >>> 11).toNat = k := by
  rw [(value_unitOf w).2, div_left_inj' (by norm_num), Nat.cast_inj]

/-- **Unit numbers are even.** Each multiple of `2 ^ -53` below one is the unit number of `2 ^ 11` words. -/
theorem ncard_unit {k : ℕ} (hk : k < 2 ^ 53) : Set.ncard {w : UInt64 | value (unitOf w) = k / 2 ^ 53} = 2 ^ 11 := by
  have hcell : {w : UInt64 | value (unitOf w) = k / 2 ^ 53} =
      {w : UInt64 | 2 ^ 11 * k ≤ w.toNat ∧ w.toNat < 2 ^ 11 * (k + 1)} := by
    ext w
    rw [Set.mem_ofPred_eq, Set.mem_ofPred_eq, value_unitOf_eq_iff, upper_bits_eq_iff]
  calc Set.ncard {w : UInt64 | value (unitOf w) = k / 2 ^ 53}
      = 2 ^ 11 * (k + 1) - 2 ^ 11 * k := by rw [hcell, ncard_words_between (by omega)]
    _ = 2 ^ 11 := by omega

/-! ## Probabilities -/

theorem value_of_probability {p : Float} (h0 : 0.0 ≤ p) (h1 : p ≤ 1.0) : p.isFinite = true ∧ 0 ≤ value p ∧ value p ≤ 1 := by
  obtain ⟨hp, hone⟩ := isNaN_of_le h1
  have hnonneg : 0 ≤ ordinal p := (zero_le_iff.1 h0).2
  have hle : ordinal p ≤ ordinal 1.0 := (le_iff_ordinal hp hone).1 h1
  have hlt : (0x3ff0000000000000 : ℕ) < infinite := by decide
  have hfinite : p.isFinite = true := by
    rw [ordinal_one] at hle
    rw [isFinite_iff]
    omega
  refine ⟨hfinite, value_nonneg_iff.2 hnonneg, ?_⟩
  rw [← value_one]
  exact (le_iff_value hfinite (by decide)).1 h1

theorem zero_le_of_le {p q : Float} (h0 : 0.0 ≤ p) (hpq : p ≤ q) : 0.0 ≤ q := by
  obtain ⟨hp, hq⟩ := isNaN_of_le hpq
  have hle := (le_iff_ordinal hp hq).1 hpq
  rw [zero_le_iff] at h0 ⊢
  exact ⟨hq, h0.2.trans hle⟩

/-- the words on which a coin of probability `p` shows true -/
def heads (p : Float) : Set UInt64 := {w | (unitOf w : Float) < p}

/-- how likely a coin of probability `p` shows true, all words being equally likely -/
noncomputable def chance (p : Float) : ℚ := (heads p).ncard / 2 ^ 64

section
variable {p q : Float} (h0 : 0.0 ≤ p) (h1 : p ≤ 1.0)
include h0 h1

theorem unitOf_lt_iff (w : UInt64) : (unitOf w : Float) < p ↔ value (unitOf w) < value p :=
  lt_iff_value (value_unitOf w).1 (value_of_probability h0 h1).1

/-- the unit numbers below `p` are those of the first `p * 2 ^ 53` cells, rounded up -/
theorem mem_heads_iff (w : UInt64) : w ∈ heads p ↔ w.toNat < 2 ^ 11 * ⌈value p * 2 ^ 53⌉₊ := by
  rw [heads, Set.mem_ofPred_eq, unitOf_lt_iff h0 h1, (value_unitOf w).2, div_lt_iff₀ (by norm_num), ← upper_bits_lt_iff,
    Nat.lt_ceil]

theorem ceil_cells_le : ⌈value p * 2 ^ 53⌉₊ ≤ 2 ^ 53 := by
  have hle := (value_of_probability h0 h1).2.2
  rw [Nat.ceil_le]
  push_cast
  linarith

/-- **A coin counts cells.** -/
theorem ncard_heads : (heads p).ncard = 2 ^ 11 * ⌈value p * 2 ^ 53⌉₊ := by
  have hwords : heads p = {w : UInt64 | 0 ≤ w.toNat ∧ w.toNat < 2 ^ 11 * ⌈value p * 2 ^ 53⌉₊} := by
    ext w
    rw [mem_heads_iff h0 h1, Set.mem_ofPred_eq, and_iff_right (Nat.zero_le _)]
  have hcells := ceil_cells_le h0 h1
  rw [hwords, ncard_words_between (by omega), Nat.sub_zero]

theorem chance_eq : chance p = ⌈value p * 2 ^ 53⌉₊ / 2 ^ 53 := by
  rw [chance, ncard_heads h0 h1]
  push_cast
  ring

/-- **The chance is the probability** where the probability is a multiple of `2 ^ -53`. -/
theorem chance_eq_iff : chance p = value p ↔ ∃ k : ℕ, value p = k / 2 ^ 53 := by
  rw [chance_eq h0 h1, div_eq_iff (by norm_num)]
  constructor
  · intro hceil
    refine ⟨⌈value p * 2 ^ 53⌉₊, ?_⟩
    rw [hceil, mul_div_assoc, div_self (by norm_num), mul_one]
  · rintro ⟨k, hk⟩
    have hcells : value p * 2 ^ 53 = k := by rw [hk, div_mul_cancel₀ _ (by norm_num)]
    rw [hcells, Nat.ceil_natCast]

theorem chance_bounds (hbetween : ¬ ∃ k : ℕ, value p = k / 2 ^ 53) :
    value p < chance p ∧ chance p < value p + 1 / 2 ^ 53 := by
  have hnonneg : 0 ≤ value p * 2 ^ 53 := mul_nonneg (value_of_probability h0 h1).2.1 (by norm_num)
  have hupper : (⌈value p * 2 ^ 53⌉₊ : ℚ) < value p * 2 ^ 53 + 1 := Nat.ceil_lt_add_one hnonneg
  have hne := (chance_eq_iff h0 h1).not.2 hbetween
  have hlower : value p ≤ chance p := by
    rw [chance_eq h0 h1, le_div_iff₀ (by norm_num)]
    exact Nat.le_ceil _
  refine ⟨lt_of_le_of_ne hlower (Ne.symm hne), ?_⟩
  calc chance p = ⌈value p * 2 ^ 53⌉₊ / 2 ^ 53 := chance_eq h0 h1
    _ < (value p * 2 ^ 53 + 1) / 2 ^ 53 := div_lt_div_of_pos_right hupper (by norm_num)
    _ = value p + 1 / 2 ^ 53 := by ring

theorem heads_of_zero (hp : value p = 0) : heads p = ∅ := by
  ext w
  simp [mem_heads_iff h0 h1, hp]

theorem heads_of_one (hp : value p = 1) : heads p = Set.univ := by
  ext w
  have hw := w.toNat_lt
  have hcells : ⌈value p * 2 ^ 53⌉₊ = 2 ^ 53 := by
    rw [hp, one_mul]
    exact_mod_cast Nat.ceil_natCast (R := ℚ) (2 ^ 53)
  rw [mem_heads_iff h0 h1, hcells]
  exact iff_of_true hw trivial

theorem heads_subset (hpq : p ≤ q) (hq : q ≤ 1.0) : heads p ⊆ heads q := by
  intro w hw
  have hp := (value_of_probability h0 h1).1
  have hq0 := zero_le_of_le h0 hpq
  have hle := (le_iff_value hp (value_of_probability hq0 hq).1).1 hpq
  have hlt := (unitOf_lt_iff h0 h1 w).1 hw
  exact (unitOf_lt_iff hq0 hq w).2 (hlt.trans_le hle)

end

/-! ## Draws -/

section
variable {σ : Type} [Entropy σ] {m : Machine Float σ} {w : UInt64} {x : σ} {log : List LogLine}

theorem run_unit_done (h : Entropy.fill m.source 8 = ⟨.ok (Bytes.ofWord w), x, log⟩) :
    ∃ m', Draw.unit.run m = (.value (unitOf w), m') ∧ m'.source = x ∧ m.Uses m' 8 log [] := by
  have hrun := Draw.run_unit h Draw.done
  rwa [Draw.bind_done] at hrun

theorem isProbability_of {p : Float} (h0 : 0.0 ≤ p) (h1 : p ≤ 1.0) : Draw.isProbability p = true := by
  rw [Draw.isProbability, Bool.and_eq_true, decide_eq_true_iff, decide_eq_true_iff]
  exact ⟨h0, h1⟩

theorem run_bernoulli {p : Float} (h0 : 0.0 ≤ p) (h1 : p ≤ 1.0)
    (h : Entropy.fill m.source 8 = ⟨.ok (Bytes.ofWord w), x, log⟩) :
    ∃ m', (Draw.bernoulli p).run m = (.value (decide ((unitOf w : Float) < p)), m') ∧ m'.source = x ∧ m.Uses m' 8 log [] := by
  have hvalid := isProbability_of h0 h1
  obtain ⟨m', hrun, hsource, huses⟩ := Draw.run_unit h fun u => Draw.done (decide (u < p))
  refine ⟨m', ?_, hsource, huses⟩
  rw [Draw.bernoulli, Draw.require, if_pos hvalid, Draw.map_eq]
  exact hrun

end

section
variable {σ : Type} [Entropy σ] {p : Float}

/-- **Unit numbers are even, and a coin's chance is its probability rounded up.** Let `p` be a number from zero to one.
- A unit number is drawn from one word. It is a multiple of `2 ^ -53` below one, and each of these multiples is the unit number of
  exactly `2 ^ 11` words.
- A coin of probability `p` reads one word too and shows true if the word's unit number is below `p`. It does so on exactly
  `2 ^ 11 * ⌈p * 2 ^ 53⌉` words.
- So its chance is `p` exactly if `p` is a multiple of `2 ^ -53`: never for zero, always for one. For any other `p` the chance is
  above `p`, by less than `2 ^ -53`.
- A word that shows true for `p` shows true for every greater probability. -/
theorem unit_even_coin_rounded_up (h0 : 0.0 ≤ p) (h1 : p ≤ 1.0) :
    ((∀ (m : Machine Float σ) (w : UInt64) (x : σ) (log : List LogLine),
        Entropy.fill m.source 8 = ⟨.ok (Bytes.ofWord w), x, log⟩ →
        ∃ m', Draw.unit.run m = (.value (unitOf w), m') ∧ m'.source = x ∧ m.Uses m' 8 log []) ∧
      (∀ w, ∃ k < 2 ^ 53, value (unitOf w) = (k : ℕ) / 2 ^ 53) ∧
      ∀ k < 2 ^ 53, Set.ncard {w : UInt64 | value (unitOf w) = (k : ℕ) / 2 ^ 53} = 2 ^ 11) ∧
    ((∀ (m : Machine Float σ) (w : UInt64) (x : σ) (log : List LogLine),
        Entropy.fill m.source 8 = ⟨.ok (Bytes.ofWord w), x, log⟩ →
        ∃ m', (Draw.bernoulli p).run m = (.value (decide ((unitOf w : Float) < p)), m') ∧ m'.source = x ∧ m.Uses m' 8 log []) ∧
      Set.ncard {w : UInt64 | (unitOf w : Float) < p} = 2 ^ 11 * ⌈value p * 2 ^ 53⌉₊) ∧
    ((chance p = value p ↔ ∃ k : ℕ, value p = k / 2 ^ 53) ∧
      (value p = 0 → ∀ w : UInt64, ¬ (unitOf w : Float) < p) ∧
      (value p = 1 → ∀ w : UInt64, (unitOf w : Float) < p) ∧
      ((¬ ∃ k : ℕ, value p = k / 2 ^ 53) → value p < chance p ∧ chance p < value p + 1 / 2 ^ 53)) ∧
    ∀ q : Float, p ≤ q → q ≤ 1.0 → ∀ w : UInt64, (unitOf w : Float) < p → (unitOf w : Float) < q := by
  refine ⟨⟨?_, ?_, ?_⟩, ⟨?_, ncard_heads h0 h1⟩, ⟨chance_eq_iff h0 h1, ?_, ?_, chance_bounds h0 h1⟩, ?_⟩
  · intro m w x log hfill
    exact run_unit_done hfill
  · intro w
    exact ⟨_, toNat_shiftRight_lt w, (value_unitOf w).2⟩
  · intro k hk
    exact ncard_unit hk
  · intro m w x log hfill
    exact run_bernoulli h0 h1 hfill
  · intro hp w
    exact Set.eq_empty_iff_forall_notMem.1 (heads_of_zero h0 h1 hp) w
  · intro hp w
    exact Set.eq_univ_iff_forall.1 (heads_of_one h0 h1 hp) w
  · intro q hpq hq w hw
    exact heads_subset h0 h1 hpq hq hw

end

/-- the number nearest to a tenth lies a quarter of the way between two multiples of `2 ^ -53` -/
theorem value_tenth : value 0.1 * 2 ^ 53 = 900719925474099 + 1 / 4 := by
  have hword : ordinal 0.1 = (0x3fb999999999999a : ℕ) := ordinal_of_magnitude (by decide +kernel) (by decide)
  rw [value, hword, signedNumber_natCast, number, mantissa, exponent, if_neg (by norm_num), if_neg (by norm_num)]
  norm_num

/-- a tenth: the word `0x1999999999999fff` has the greatest unit number below it -/
theorem unit_even_coin_rounded_up_tenth :
    (0.0 ≤ (0.1 : Float) ∧ (0.1 : Float) ≤ 1.0) ∧
      (∃ m', (Draw.bernoulli 0.1).run
        ({ source := Replay.ofWords [0x1999999999999fff], keepsSpare := true } : Machine Float Replay) = (.value true, m') ∧
        m'.consumed = 8) ∧
      Set.ncard {w : UInt64 | (unitOf w : Float) < 0.1} = 2 ^ 11 * 900719925474100 ∧
      value 0.1 < chance 0.1 ∧ chance 0.1 < value 0.1 + 1 / 2 ^ 53 := by
  have h0 : 0.0 ≤ (0.1 : Float) := by decide +kernel
  have h1 : (0.1 : Float) ≤ 1.0 := by decide +kernel
  obtain ⟨-, ⟨hrun, hcount⟩, ⟨-, -, -, hbounds⟩, -⟩ := @unit_even_coin_rounded_up Replay _ 0.1 h0 h1
  have hceil : ⌈value 0.1 * 2 ^ 53⌉₊ = 900719925474100 := by
    rw [value_tenth]
    norm_num [Nat.ceil_eq_iff]
  have hbetween : ¬ ∃ k : ℕ, value 0.1 = k / 2 ^ 53 := by
    rintro ⟨k, hk⟩
    have hcells := value_tenth
    rw [hk, div_mul_cancel₀ _ (by norm_num)] at hcells
    have hwhole : ((4 * k : ℕ) : ℚ) = (3602879701896397 : ℕ) := by
      push_cast
      linarith
    have := Nat.cast_injective hwhole
    omega
  obtain ⟨m', hvalue, -, huses⟩ := hrun { source := Replay.ofWords [0x1999999999999fff], keepsSpare := true }
    0x1999999999999fff _ [] rfl
  have htrue : decide ((unitOf 0x1999999999999fff : Float) < 0.1) = true := by decide +kernel
  rw [htrue] at hvalue
  rw [hceil] at hcount
  exact ⟨⟨h0, h1⟩, ⟨m', hvalue, huses.consumed⟩, hcount, hbounds hbetween⟩

end Sampling
