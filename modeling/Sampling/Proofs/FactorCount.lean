/-
Counting factors ends, whatever words are drawn, and the counts grow with the factors.

The count is read off the running products of the unit numbers (`productOf`): it is one less than the place of the first product that
is not above the limit. That there is one does not follow from the loop, and little is asked of the arithmetic for it (`Factoring`):
products compare with the limit as their values do and grow with their factors, and either they are exact, or the products above the
limit are finitely many and a further factor makes each of them smaller. Exact products are below the powers of the greatest unit
number (`exists_le_of_exact`); among finitely many values products cannot sink for ever (`exists_le_of_sinking`).

`poisson_by_factors`: what a Poisson draw with a mean below the threshold returns and reads, and how two draws compare. The rationals
are such an arithmetic (`Rational.factoring`), and so is binary64 for limits that are normal numbers (`Binary64.factoring`), with
whatever exponential function.
-/
import Mathlib.Algebra.BigOperators.Field
import Mathlib.Algebra.Order.Archimedean.Basic
import Mathlib.Algebra.Order.BigOperators.Ring.Finset
import Mathlib.Data.Int.Interval
import Mathlib.Data.Set.Finite.Lattice
import Sampling.Distribution.Poisson
import Sampling.Proofs.ReplayedBytes
import Sampling.Proofs.SignedNumbers

namespace Sampling

variable {F σ τ : Type}

/-! ## Products -/

/-- the unit number of a word as a fraction -/
def unitFraction (w : UInt64) : ℚ := (w >>> 11).toNat / 2 ^ 53

/-- binary64 has unit numbers exactly -/
theorem value_unitOf_eq (w : UInt64) : Binary64.value (unitOf w) = unitFraction w := (Binary64.value_unitOf w).2

theorem unitFraction_nonneg (w : UInt64) : 0 ≤ unitFraction w := by
  rw [← value_unitOf_eq]
  exact Binary64.value_unitOf_nonneg w

/-- no unit number is nearer to one than `2 ^ -53` -/
theorem unitFraction_le (w : UInt64) : unitFraction w ≤ 1 - 1 / 2 ^ 53 := by
  rw [← value_unitOf_eq]
  exact Binary64.value_unitOf_le w

section
variable [Arith F]

/-- the unit numbers of words multiplied, the first `k` of them -/
def productOf (ws : ℕ → UInt64) : (k : ℕ) → F
  | 0 => 1.0
  | k + 1 => productOf ws k * unitOf (ws k)

inductive IsProduct : F → Prop where
  | one : IsProduct 1.0
  | mul {p : F} (h : IsProduct p) (w : UInt64) : IsProduct (p * unitOf w)

theorem isProduct_productOf (ws : ℕ → UInt64) (k : ℕ) : IsProduct (productOf ws k : F) := by
  induction k with
  | zero => exact .one
  | succ k ih => exact .mul ih (ws k)

def Exact (value : F → ℚ) : Prop := ∀ (p : F) (w : UInt64), IsProduct p → value (p * unitOf w) = value p * unitFraction w

/-- as long as products are above the limit, they take finitely many values and each factor makes them smaller -/
structure Sinking (value : F → ℚ) (limit : F) : Prop where
  finite : (value '' {p | IsProduct p ∧ value limit < value p}).Finite
  mul_lt : ∀ (p : F) (w : UInt64), IsProduct p → value limit < value p → value (p * unitOf w) < value p

/-- products grow with their factors, compare with the limit as their values do, and are exact or sink -/
structure Factoring (value : F → ℚ) (limit : F) : Prop where
  value_one : value 1.0 = 1
  lt_iff : ∀ p : F, IsProduct p → (limit < p ↔ value limit < value p)
  mul_le_mul : ∀ (p q : F) (v w : UInt64), IsProduct p → IsProduct q → value p ≤ value q → unitFraction v ≤ unitFraction w →
    value (p * unitOf v) ≤ value (q * unitOf w)
  exact_or_sinking : Exact value ∨ Sinking value limit

namespace Factoring

variable {value : F → ℚ} {limit limit' : F} {ws ws' : ℕ → UInt64}

/-! ## The first product that is not above the limit -/

theorem value_of_exact (h : Factoring value limit) (hexact : Exact value) (ws : ℕ → UInt64) (k : ℕ) :
    value (productOf ws k) = ∏ i ∈ Finset.range k, unitFraction (ws i) := by
  induction k with
  | zero => exact h.value_one
  | succ k ih => rw [productOf, hexact _ _ (isProduct_productOf ws k), ih, Finset.prod_range_succ]

/-- exact products fall below every positive limit with the powers of the greatest unit number -/
theorem exists_le_of_exact (h : Factoring value limit) (hexact : Exact value) (hpos : 0 < value limit) (ws : ℕ → UInt64) :
    ∃ k, value (productOf ws k) ≤ value limit := by
  obtain ⟨k, hk⟩ := exists_pow_lt_of_lt_one hpos (by norm_num : (1 - 1 / 2 ^ 53 : ℚ) < 1)
  refine ⟨k, ?_⟩
  calc value (productOf ws k) = ∏ i ∈ Finset.range k, unitFraction (ws i) := h.value_of_exact hexact ws k
    _ ≤ ∏ _i ∈ Finset.range k, (1 - 1 / 2 ^ 53 : ℚ) :=
        Finset.prod_le_prod (fun i _ => unitFraction_nonneg (ws i)) fun i _ => unitFraction_le (ws i)
    _ = (1 - 1 / 2 ^ 53 : ℚ) ^ k := by rw [Finset.prod_const, Finset.card_range]
    _ ≤ value limit := hk.le

/-- products that sink cannot stay above the limit: they would take infinitely many values there -/
theorem exists_le_of_sinking (hsinking : Sinking value limit) (ws : ℕ → UInt64) :
    ∃ k, value (productOf ws k) ≤ value limit := by
  by_contra! habove
  have hfalls : StrictAnti fun k => value (productOf ws k) := by
    apply strictAnti_nat_of_succ_lt
    intro k
    exact hsinking.mul_lt _ (ws k) (isProduct_productOf ws k) (habove k)
  have hmem : ∀ k, value (productOf ws k) ∈ value '' {p | IsProduct p ∧ value limit < value p} := by
    intro k
    exact ⟨productOf ws k, ⟨isProduct_productOf ws k, habove k⟩, rfl⟩
  exact Set.infinite_of_injective_forall_mem hfalls.injective hmem hsinking.finite

/-- **There is a first product that is not above the limit**, and it has a factor. -/
theorem exists_isLeast (h : Factoring value limit) (hpos : 0 < value limit) (hlt : value limit < 1) (ws : ℕ → UInt64) :
    ∃ k, IsLeast {j | value (productOf ws j) ≤ value limit} (k + 1) := by
  have hreached : ∃ k, value (productOf ws k) ≤ value limit := by
    rcases h.exact_or_sinking with hexact | hsinking
    · exact h.exists_le_of_exact hexact hpos ws
    · exact exists_le_of_sinking hsinking ws
  classical
  have hleast := Nat.isLeast_find hreached
  have hstart : Nat.find hreached ≠ 0 := by
    intro h0
    have hone : value (productOf ws (Nat.find hreached)) ≤ value limit := hleast.1
    rw [h0, productOf, h.value_one] at hone
    exact hone.not_gt hlt
  obtain ⟨k, hk⟩ := Nat.exists_eq_succ_of_ne_zero hstart
  rw [hk] at hleast
  exact ⟨k, hleast⟩

theorem value_mono (h : Factoring value limit) (hws : ∀ i, unitFraction (ws i) ≤ unitFraction (ws' i)) (k : ℕ) :
    value (productOf ws k) ≤ value (productOf ws' k) := by
  induction k with
  | zero => exact le_rfl
  | succ k ih => exact h.mul_le_mul _ _ _ _ (isProduct_productOf ws k) (isProduct_productOf ws' k) ih (hws k)

/-- **Greater factors or a lower limit** are not reached earlier. -/
theorem le_of_isLeast (h : Factoring value limit) (hws : ∀ i, unitFraction (ws i) ≤ unitFraction (ws' i))
    (hlimit : value limit' ≤ value limit) {k k' : ℕ} (hk : IsLeast {j | value (productOf ws j) ≤ value limit} (k + 1))
    (hk' : IsLeast {j | value (productOf ws' j) ≤ value limit'} (k' + 1)) : k ≤ k' := by
  have hreached : value (productOf ws (k' + 1)) ≤ value limit :=
    calc value (productOf ws (k' + 1)) ≤ value (productOf ws' (k' + 1)) := h.value_mono hws (k' + 1)
      _ ≤ value limit' := hk'.1
      _ ≤ value limit := hlimit
  exact Nat.le_of_succ_le_succ (mem_lowerBounds.1 hk.2 _ hreached)

end Factoring

end

/-! ## Exact products -/

namespace Rational

/-- the rationals with an exponential function; what has no rational values is left at zero -/
abbrev withExp (exp : ℚ → ℚ) : Arith ℚ where
  ofNat n := n
  abs x := |x|
  sqrt _ := 0
  ln _ := 0
  exp := exp
  pow _ _ := 0
  sin _ := 0
  cos _ := 0
  floor x := ⌊x⌋
  nan := 0
  infinity := 0
  isNaN _ := false
  isFinite _ := true
  reading _ := .nan
  decLt _ _ := inferInstance
  decLe _ _ := inferInstance

theorem unitOf_eq (exp : ℚ → ℚ) (w : UInt64) : @unitOf ℚ (withExp exp) w = unitFraction w := by
  show ((w >>> 11).toNat : ℚ) / ((Nat.pow 2 53 : ℕ) : ℚ) = unitFraction w
  rw [unitFraction, Nat.pow_eq]
  norm_num

theorem nonneg_of_isProduct {exp : ℚ → ℚ} {p : ℚ} (h : @IsProduct ℚ (withExp exp) p) : 0 ≤ p := by
  induction h with
  | one => norm_num
  | mul _ w ih =>
    rw [unitOf_eq]
    exact mul_nonneg ih (unitFraction_nonneg w)

theorem products_exact (exp : ℚ → ℚ) : @Exact ℚ (withExp exp) fun q => q := by
  intro p w _
  show p * @unitOf ℚ (withExp exp) w = p * unitFraction w
  rw [unitOf_eq]

/-- **Rational products are exact**, and so they grow with their factors. -/
theorem factoring (exp : ℚ → ℚ) (limit : ℚ) : @Factoring ℚ (withExp exp) (fun q => q) limit := by
  refine @Factoring.mk ℚ (withExp exp) _ limit (by norm_num) (fun _ _ => Iff.rfl) ?_ (Or.inl (products_exact exp))
  intro p q v w hp _ hpq hvw
  show p * @unitOf ℚ (withExp exp) v ≤ q * @unitOf ℚ (withExp exp) w
  rw [unitOf_eq, unitOf_eq]
  exact mul_le_mul hpq hvw (unitFraction_nonneg v) ((nonneg_of_isProduct hp).trans hpq)

end Rational

/-! ## Rounded products -/

namespace Binary64

/-- binary64 with an exponential function of one's own -/
abbrev withExp (exp : Float → Float) : Arith Float := { (inferInstance : Arith Float) with exp := exp }

variable {exp : Float → Float} {p q limit : Float}

theorem mem_of_isProduct (h : @IsProduct Float (withExp exp) p) : p.isFinite = true ∧ 0 ≤ ordinal p ∧ ordinal p ≤ ordinal 1.0 := by
  induction h with
  | one =>
    have hone : (1.0 : Float).isFinite = true ∧ 0 ≤ ordinal 1.0 := by decide
    exact ⟨hone.1, hone.2, le_rfl⟩
  | @mul p _ w ih =>
    obtain ⟨hfinite, h0, h1⟩ := ih
    have hunit := value_unitOf_le w
    have hordinal : ordinal (p * unitOf w) = nearestSigned (value p * value (unitOf w)) := ordinal_mul hfinite (value_unitOf w).1
    have hlow : 0 ≤ ordinal (p * unitOf w) := by
      rw [hordinal, nearestSigned_of_nonneg (mul_nonneg (value_nonneg_iff.2 h0) (value_unitOf_nonneg w))]
      exact Int.natCast_nonneg _
    have hhigh : ordinal (p * unitOf w) ≤ ordinal p := by
      rw [hordinal, ← nearestSigned_value hfinite]
      apply nearestSigned_mono
      exact mul_le_of_le_one_right (value_nonneg_iff.2 h0) (hunit.trans (by norm_num))
    refine ⟨?_, hlow, hhigh.trans h1⟩
    rw [isFinite_iff] at hfinite ⊢
    show (ordinal (p * unitOf w)).natAbs < infinite
    omega

theorem value_mul_le_mul (hp : @IsProduct Float (withExp exp) p) (hq : @IsProduct Float (withExp exp) q) {v w : UInt64}
    (hpq : value p ≤ value q) (hvw : unitFraction v ≤ unitFraction w) : value (p * unitOf v) ≤ value (q * unitOf w) := by
  obtain ⟨hfp, hp0, -⟩ := mem_of_isProduct hp
  obtain ⟨hfq, -, -⟩ := mem_of_isProduct hq
  have hunits : value (unitOf v) ≤ value (unitOf w) := by
    rw [value_unitOf_eq, value_unitOf_eq]
    exact hvw
  have hexact : value p * value (unitOf v) ≤ value q * value (unitOf w) :=
    mul_le_mul hpq hunits (value_unitOf_nonneg v) ((value_nonneg_iff.2 hp0).trans hpq)
  rw [value, value, ordinal_mul hfp (value_unitOf v).1, ordinal_mul hfq (value_unitOf w).1]
  exact signedNumber_strictMono.monotone (nearestSigned_mono hexact)

/-- above a normal limit every factor makes a product smaller: half a unit of the last place is less than what it takes off -/
theorem value_mul_lt (hnormal : 2 ^ (-1022 : ℤ) ≤ value limit) (hp : @IsProduct Float (withExp exp) p)
    (habove : value limit < value p) (w : UInt64) : value (p * unitOf w) < value p := by
  obtain ⟨hfinite, hp0, -⟩ := mem_of_isProduct hp
  obtain ⟨v, hplace⟩ := Int.eq_ofNat_of_zero_le hp0
  have hvalue : value p = number v := by rw [value, hplace, signedNumber_natCast]
  have hbig : 2 ^ 52 < v := by
    rw [← number_strictMono.lt_iff_lt, number_least_normal, ← hvalue]
    exact hnormal.trans_lt habove
  have hlt : v < infinite := by
    rw [isFinite_iff, hplace] at hfinite
    exact hfinite
  have hless : value p * value (unitOf w) ≤ (1 - 1 / 2 ^ 53) * number v := by
    rw [hvalue, mul_comm]
    exact mul_le_mul_of_nonneg_right (value_unitOf_le w) (number_nonneg v)
  rw [value, value, ordinal_mul hfinite (value_unitOf w).1, signedNumber_strictMono.lt_iff_lt,
    nearestSigned_of_nonneg (mul_nonneg (value_nonneg_iff.2 hp0) (value_unitOf_nonneg w)), hplace]
  exact_mod_cast nearest_lt_of_le_mul hbig hlt hless

/-- **Binary64 products** are finitely many, and above a normal limit they sink. -/
theorem factoring (exp : Float → Float) (hfinite : limit.isFinite = true) (hnormal : 2 ^ (-1022 : ℤ) ≤ value limit) :
    @Factoring Float (withExp exp) value limit := by
  have hfinitely : (value '' {p | @IsProduct Float (withExp exp) p ∧ value limit < value p}).Finite := by
    apply ((Set.finite_Icc 0 (ordinal 1.0)).image signedNumber).subset
    rintro _ ⟨p, ⟨hp, -⟩, rfl⟩
    exact ⟨ordinal p, (mem_of_isProduct hp).2, rfl⟩
  have hsinking : @Sinking Float (withExp exp) value limit :=
    @Sinking.mk Float (withExp exp) value limit hfinitely fun p w hp habove => value_mul_lt hnormal hp habove w
  exact @Factoring.mk Float (withExp exp) value limit value_one (fun p hp => lt_iff_value hfinite (mem_of_isProduct hp).1)
    (fun p q v w hp hq hpq hvw => value_mul_le_mul hp hq hpq hvw) (Or.inr hsinking)

/-- every factor taken above a normal limit takes at least one place off the product -/
theorem ordinal_productOf_add_le (hnormal : 2 ^ (-1022 : ℤ) ≤ value limit) {ws : ℕ → UInt64} {k : ℕ}
    (habove : ∀ j < k, value limit < value (@productOf Float (withExp exp) ws j)) :
    ordinal (@productOf Float (withExp exp) ws k) + k ≤ ordinal 1.0 := by
  induction k with
  | zero => exact le_of_eq (add_zero _)
  | succ k ih =>
    have hle := ih fun j hj => habove j (Nat.lt_succ_of_lt hj)
    have hless : value (@productOf Float (withExp exp) ws (k + 1)) < value (@productOf Float (withExp exp) ws k) :=
      value_mul_lt hnormal (@isProduct_productOf Float (withExp exp) ws k) (habove k k.lt_succ_self) (ws k)
    rw [value, value, signedNumber_strictMono.lt_iff_lt] at hless
    push_cast
    omega

/-- **The number of factors fits a word**, with room to spare: there are fewer than `2 ^ 62` products above a normal limit. -/
theorem factors_lt (hnormal : 2 ^ (-1022 : ℤ) ≤ value limit) {ws : ℕ → UInt64} {k : ℕ}
    (hk : IsLeast {j | value (@productOf Float (withExp exp) ws j) ≤ value limit} k) : k < 2 ^ 62 := by
  have habove : ∀ j < k, value limit < value (@productOf Float (withExp exp) ws j) := by
    intro j hj
    by_contra hle
    exact (mem_lowerBounds.1 hk.2 j (not_lt.1 hle)).not_gt hj
  have hplaces := ordinal_productOf_add_le hnormal habove
  have hpos := (mem_of_isProduct (@isProduct_productOf Float (withExp exp) ws k)).2.1
  have hone : ordinal 1.0 < 2 ^ 62 := by decide
  omega

end Binary64

/-! ## The loop -/

namespace Draw

section
variable [Arith F] [Entropy σ] {limit : F}

theorem countFactors_of_not_lt {product : F} (h : ¬ limit < product) (tries factors : ℕ) :
    countFactors limit tries product factors = done (lessOne factors) := by
  cases tries <;> rw [countFactors, if_neg h]

/-- a limit that is not below one takes no factor, and the count wraps around -/
theorem poissonByFactors_of_not_lt {mean : F} (h : ¬ Arith.exp (-mean) < (1.0 : F)) (tries : ℕ) :
    poissonByFactors tries mean = done (UInt64.size - 1) :=
  countFactors_of_not_lt h tries 0

theorem run_countFactors_of_lt {product : F} (h : limit < product) {m : Machine F σ} {w : UInt64} {x : σ} {log : List LogLine}
    (hfill : Entropy.fill m.source 8 = ⟨.ok (Bytes.ofWord w), x, log⟩) (tries factors : ℕ) :
    ∃ m', (countFactors limit (tries + 1) product factors).run m =
        (countFactors limit tries (product * unitOf w) (factors + 1)).run m' ∧
      m'.source = x ∧ m.Uses m' 8 log [] := by
  obtain ⟨m', hrun, hsource, huses⟩ := run_unit hfill fun u => countFactors limit tries (product * u) (factors + 1)
  refine ⟨m', ?_, hsource, huses⟩
  rw [countFactors, if_pos h]
  exact hrun

/-- **Rounds.** While the products are above the limit, each try takes a word. -/
theorem run_countFactors {ws : ℕ → UInt64} {i n : ℕ} (habove : ∀ j < n, limit < productOf ws (i + j)) {m : Machine F σ}
    (hws : ServesAll m.source fun j => ws (i + j)) (tries : ℕ) :
    ∃ m', (countFactors limit (n + tries) (productOf ws i) i).run m =
        (countFactors limit tries (productOf ws (i + n)) (i + n)).run m' ∧
      m'.consumed = m.consumed + 8 * n := by
  induction n generalizing i m with
  | zero =>
    rw [Nat.zero_add]
    exact ⟨m, rfl, rfl⟩
  | succ n ih =>
    obtain ⟨x, log, hfill, hrest⟩ := hws.first
    obtain ⟨m₁, hround, rfl, huses⟩ := run_countFactors_of_lt (habove 0 n.succ_pos) hfill (n + tries) i
    have hshift : ∀ j, i + (j + 1) = i + 1 + j := by
      intro j
      omega
    have habove' : ∀ j < n, limit < productOf ws (i + 1 + j) := by
      intro j hj
      rw [← hshift]
      exact habove (j + 1) (Nat.succ_lt_succ hj)
    have hwords : (fun j => ws (i + (j + 1))) = fun j => ws (i + 1 + j) := by
      funext j
      rw [hshift]
    rw [hwords] at hrest
    obtain ⟨m', hrun, hconsumed⟩ := ih habove' hrest
    refine ⟨m', ?_, ?_⟩
    · rw [Nat.add_right_comm, hshift n, ← hrun]
      exact hround
    · rw [hconsumed, huses.consumed]
      omega

/-- **The loop ends** with the first product that is not above the limit. -/
theorem endsAfter_countFactors {value : F → ℚ} (h : Factoring value limit) {m : Machine F σ} {ws : ℕ → UInt64}
    (hws : ServesAll m.source ws) {k : ℕ} (hk : IsLeast {j | value (productOf ws j) ≤ value limit} (k + 1)) :
    EndsAfter (fun tries => countFactors limit tries 1.0 0) m (k + 1) k := by
  have habove : ∀ j < k + 1, limit < productOf ws (0 + j) := by
    intro j hj
    rw [Nat.zero_add, h.lt_iff _ (isProduct_productOf ws j)]
    by_contra hle
    have hfirst := mem_lowerBounds.1 hk.2 j (not_lt.1 hle)
    omega
  have hreached : ¬ limit < productOf ws (k + 1) := by
    rw [h.lt_iff _ (isProduct_productOf ws (k + 1)), not_lt]
    exact hk.1
  have hwords : ServesAll m.source fun j => ws (0 + j) := by
    simpa only [Nat.zero_add] using hws
  constructor
  · intro tries htries
    obtain ⟨m', hrun, hconsumed⟩ := run_countFactors habove hwords (tries - (k + 1))
    rw [Nat.add_sub_cancel' htries, Nat.zero_add] at hrun
    rw [countFactors_of_not_lt hreached] at hrun
    exact ⟨m', hrun, hconsumed⟩
  · intro tries htries
    obtain ⟨m', hrun, hconsumed⟩ := run_countFactors (fun j hj => habove j (hj.trans htries)) hwords 0
    have hstuck : countFactors limit 0 (productOf ws (0 + tries)) (0 + tries) = stuck := by
      rw [countFactors, if_pos (habove tries htries)]
    rw [hstuck] at hrun
    exact ⟨m', hrun, hconsumed⟩

end

/-! ## Draws -/

/-- a mean below the threshold whose limit is between zero and one -/
structure CountsFactors [Arith F] (value : F → ℚ) (mean : F) : Prop where
  isPositive : isPositive mean = true
  below : mean < rejectionThreshold
  factoring : Factoring value (Arith.exp (-mean))
  limit_pos : 0 < value (Arith.exp (-mean))
  limit_lt_one : value (Arith.exp (-mean)) < 1

/-- over the rationals these are the positive means below thirty with such a limit -/
theorem countsFactors_rational {exp : ℚ → ℚ} {mean : ℚ} (hpos : 0 < mean) (hbelow : mean < 30) (hlimit : 0 < exp (-mean))
    (hlimit' : exp (-mean) < 1) : @CountsFactors ℚ (Rational.withExp exp) (fun q => q) mean := by
  have hzero : ¬ mean ≤ (0.0 : ℚ) := by
    norm_num
    exact hpos
  have hpositive : (true && !decide (mean ≤ (0.0 : ℚ))) = true := by simp [hzero]
  have hthreshold : mean < (30.0 : ℚ) := by
    norm_num
    exact hbelow
  exact @CountsFactors.mk ℚ (Rational.withExp exp) _ mean hpositive hthreshold (Rational.factoring exp _) hlimit hlimit'

/-- in binary64, the positive means below thirty whose limit is a normal number below one -/
theorem countsFactors_binary64 {exp : Float → Float} {mean : Float} (hpos : isPositive mean = true) (hbelow : mean < 30.0)
    (hfinite : (exp (-mean)).isFinite = true) (hlimit : 2 ^ (-1022 : ℤ) ≤ Binary64.value (exp (-mean)))
    (hlimit' : Binary64.value (exp (-mean)) < 1) : @CountsFactors Float (Binary64.withExp exp) Binary64.value mean := by
  have hlimit_pos : 0 < Binary64.value (exp (-mean)) := lt_of_lt_of_le (by positivity) hlimit
  exact @CountsFactors.mk Float (Binary64.withExp exp) _ mean hpos hbelow (Binary64.factoring exp hfinite hlimit) hlimit_pos hlimit'

section
variable [Arith F] [Entropy σ] [Entropy τ] {value : F → ℚ} {mean : F}

theorem poisson_eq (h : CountsFactors value mean) (tries : ℕ) :
    poisson tries mean = countFactors (Arith.exp (-mean)) tries 1.0 0 := by
  rw [poisson, h.isPositive, require, if_pos rfl, if_pos h.below, poissonByFactors]

/-- **A Poisson draw with a small mean ends on every stream of words.**
- Let `k + 1` be the least number of unit numbers whose product is not above the limit: there is one, whatever the words are. The
  draw returns `k` after reading `k + 1` words, eight bytes each. So it has always taken one factor more than it returns, and the
  last step back from the number of factors does not go below zero.
- A draw from a stream whose unit numbers are place by place at least as great, with a limit that is at most as great, does not
  return less. -/
theorem poisson_by_factors (h : CountsFactors value mean) :
    (∀ (m : Machine F σ) (ws : ℕ → UInt64), ServesAll m.source ws →
      ∃ k, IsLeast {j | value (productOf ws j) ≤ value (Arith.exp (-mean))} (k + 1) ∧
        EndsAfter (fun tries => poisson tries mean) m (k + 1) k) ∧
    ∀ mean' : F, CountsFactors value mean' → value (Arith.exp (-mean')) ≤ value (Arith.exp (-mean)) →
      ∀ (m : Machine F σ) (m' : Machine F τ) (ws ws' : ℕ → UInt64), ServesAll m.source ws → ServesAll m'.source ws' →
        (∀ i, unitFraction (ws i) ≤ unitFraction (ws' i)) →
        ∀ words words' k k', EndsAfter (fun tries => poisson tries mean) m words k →
          EndsAfter (fun tries => poisson tries mean') m' words' k' → k ≤ k' := by
  refine ⟨?_, ?_⟩
  · intro m ws hws
    obtain ⟨k, hk⟩ := h.factoring.exists_isLeast h.limit_pos h.limit_lt_one ws
    simp only [poisson_eq h]
    exact ⟨k, hk, endsAfter_countFactors h.factoring hws hk⟩
  · intro mean' h' hlimit m m' ws ws' hws hws' hgreater words words' k k' hends hends'
    -- what is returned is what the first products below the limits say
    obtain ⟨j, hj⟩ := h.factoring.exists_isLeast h.limit_pos h.limit_lt_one ws
    obtain ⟨j', hj'⟩ := h'.factoring.exists_isLeast h'.limit_pos h'.limit_lt_one ws'
    simp only [poisson_eq h] at hends
    simp only [poisson_eq h'] at hends'
    obtain ⟨-, rfl⟩ := hends.unique (endsAfter_countFactors h.factoring hws hj)
    obtain ⟨-, rfl⟩ := hends'.unique (endsAfter_countFactors h'.factoring hws' hj')
    exact h.factoring.le_of_isLeast hgreater hlimit hj hj'

end

/-- words that are all `0x8080808080808080`, half a unit number and a little more: with a limit of `3 / 10` two of them are taken;
greater words return no less; and a draw of binary64 numbers ends as well -/
theorem poisson_by_factors_echoes :
    let exact := Rational.withExp fun _ => 3 / 10
    let rounded := Binary64.withExp fun _ => 0.5
    let halves : Replay := { script := #[0x80], consumed := 1 }
    let greater : Replay := { script := #[0xf0], consumed := 1 }
    (@CountsFactors ℚ exact (fun q => q) 1 ∧
      @EndsAfter ℚ Replay ℕ _ exact (fun tries => @poisson ℚ exact tries 1) { source := halves, keepsSpare := true } 2 1 ∧
      ∀ words k, @EndsAfter ℚ Replay ℕ _ exact (fun tries => @poisson ℚ exact tries 1) { source := greater, keepsSpare := true }
        words k → 1 ≤ k) ∧
    @CountsFactors Float rounded Binary64.value 1.0 ∧
      ∃ k, @EndsAfter Float Replay ℕ _ rounded (fun tries => @poisson Float rounded tries 1.0)
        { source := halves, keepsSpare := true } (k + 1) k := by
  intro exact rounded halves greater
  have hhalves : ∀ j, halves.wordAt j = Replay.echo 0x80 := by
    intro j
    exact Replay.wordAt_of_le (Nat.zero_le _)
  have hgreater : ∀ j, greater.wordAt j = Replay.echo 0xf0 := by
    intro j
    exact Replay.wordAt_of_le (Nat.zero_le _)
  have hexact : @CountsFactors ℚ exact (fun q => q) 1 :=
    countsFactors_rational (by norm_num) (by norm_num) (by norm_num) (by norm_num)
  have hvalue : Binary64.value 0.5 = Binary64.number 0x3fe0000000000000 := by
    rw [Binary64.value, Binary64.ordinal_of_magnitude (v := 0x3fe0000000000000) rfl (by decide), Binary64.signedNumber_natCast]
  have hrounded : @CountsFactors Float rounded Binary64.value 1.0 := by
    apply countsFactors_binary64 (by decide) (by decide) (by decide)
    · show 2 ^ (-1022 : ℤ) ≤ Binary64.value 0.5
      rw [hvalue, ← Binary64.number_least_normal]
      exact Binary64.number_strictMono.monotone (by norm_num)
    · show Binary64.value 0.5 < 1
      rw [hvalue, ← Binary64.number_one]
      exact Binary64.number_strictMono (by norm_num)
  -- one factor is above the limit, two are not
  have hunit : ∀ j, unitFraction (halves.wordAt j) = 4521260802379792 / 2 ^ 53 := by
    intro j
    have hword : (Replay.echo 0x80 >>> 11).toNat = 4521260802379792 := by decide
    rw [hhalves, unitFraction, hword]
    norm_num
  have hleast : IsLeast {j | (@productOf ℚ exact halves.wordAt j : ℚ) ≤ 3 / 10} 2 := by
    have hproduct : ∀ j, (@productOf ℚ exact halves.wordAt j : ℚ) = (4521260802379792 / 2 ^ 53) ^ j := by
      intro j
      have hvalue := (Rational.factoring (fun _ => 3 / 10) 0).value_of_exact (Rational.products_exact _) halves.wordAt j
      simp only [hunit, Finset.prod_const, Finset.card_range] at hvalue
      exact hvalue
    simp only [hproduct]
    refine ⟨by norm_num, ?_⟩
    intro j hj
    by_contra hlt
    have hcases : j = 0 ∨ j = 1 := by omega
    rcases hcases with rfl | rfl <;> norm_num at hj
  have hgrows : ∀ i, unitFraction (halves.wordAt i) ≤ unitFraction (greater.wordAt i) := by
    intro i
    have hword : (Replay.echo 0xf0 >>> 11).toNat = 8477364004462110 := by decide
    rw [hunit, hgreater, unitFraction, hword]
    norm_num
  obtain ⟨hends, hmono⟩ := poisson_by_factors (σ := Replay) (τ := Replay) hexact
  obtain ⟨hends', -⟩ := poisson_by_factors (σ := Replay) (τ := Replay) hrounded
  obtain ⟨k, hk, hcount⟩ := hends { source := halves, keepsSpare := true } _ halves.servesAll_wordAt
  obtain rfl : k = 1 := Nat.succ.inj (hk.unique hleast)
  refine ⟨⟨hexact, hcount, ?_⟩, hrounded, ?_⟩
  · intro words k hwords
    exact hmono 1 hexact le_rfl _ _ _ _ halves.servesAll_wordAt greater.servesAll_wordAt hgrows _ _ _ _ hcount hwords
  · obtain ⟨k, -, hk⟩ := hends' { source := halves, keepsSpare := true } _ halves.servesAll_wordAt
    exact ⟨k, hk⟩

end Draw

end Sampling
