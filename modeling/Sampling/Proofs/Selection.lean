/-
Which index a categorical draw chooses.

The target is a unit number times the sum of the weights. The index is the first whose running sum exceeds the target, or the last
one of positive weight if rounding lets the target reach the sum (`select_cases`). Either way its weight is positive
(`hasWeight_select`): a zero leaves the running sum as it is, so if the sum at a zero exceeds the target, the sum before it did
already, and the empty sum does not since no target is below zero. The index grows with the unit number (`select_mono`); the step
from the walk to its fallback keeps the order because no index of positive weight comes after the last one.

`weightedChoice` makes the same draw: it returns the item at the index that `categorical` returns from the same machine.
-/
import Mathlib.Order.Bounds.Basic
import Sampling.Source.Replay
import Sampling.Proofs.Ensures
import Sampling.Proofs.Growth
import Sampling.Proofs.Ranking
import Sampling.Proofs.WordStream

namespace Sampling

variable {F : Type} [Arith F]

namespace Weights

variable {weights : List F} {target sum : F}

/-! ## Running sums -/

/-- the sum of the weights up to an index, that at the index included, from left to right -/
def sumUpTo (weights : List F) (i : ℕ) : F := (weights.take (i + 1)).foldl (· + ·) 0.0

def HasWeight (weights : List F) (i : ℕ) : Prop := ∃ w, weights[i]? = some w ∧ 0.0 < w

theorem length_runningSums (acc : F) (ws : List F) : (runningSums acc ws).length = ws.length := by
  induction ws generalizing acc with
  | nil => rfl
  | cons w ws ih => simp [runningSums, ih]

theorem getElem_runningSums (acc : F) (ws : List F) (i : ℕ) (h : i < (runningSums acc ws).length) :
    (runningSums acc ws)[i] = (ws.take (i + 1)).foldl (· + ·) acc := by
  induction ws generalizing acc i with
  | nil => cases h
  | cons w ws ih =>
    cases i with
    | zero => rfl
    | succ i => exact ih (acc + w) i (Nat.lt_of_succ_lt_succ h)

theorem firstAbove_eq (target acc : F) (i : ℕ) (ws : List F) :
    firstAbove target acc i ws = ((runningSums acc ws).findIdx? fun s => decide (target < s)).map (· + i) := by
  induction ws generalizing acc i with
  | nil => rfl
  | cons w ws ih =>
    rw [firstAbove, runningSums, List.findIdx?_cons]
    by_cases hw : target < acc + w
    · simp [hw]
    · rw [if_neg hw, decide_eq_false hw, if_neg Bool.false_ne_true, ih, Option.map_map]
      congr 1
      funext k
      exact (Nat.add_right_comm k 1 i).symm

theorem isLeast_of_firstAbove {i : ℕ} (h : firstAbove target 0.0 0 weights = some i) :
    IsLeast {i | i < weights.length ∧ target < sumUpTo weights i} i := by
  simp only [firstAbove_eq, Nat.add_zero, Option.map_id_fun', id, List.findIdx?_eq_some_iff_getElem] at h
  obtain ⟨hi, habove, hbefore⟩ := h
  rw [decide_eq_true_iff, getElem_runningSums] at habove
  refine ⟨⟨length_runningSums (0.0 : F) weights ▸ hi, habove⟩, ?_⟩
  rintro j ⟨-, hj⟩
  by_contra hji
  have hnot := hbefore j (not_le.1 hji)
  rw [decide_eq_true_iff, getElem_runningSums] at hnot
  exact hnot hj

theorem not_lt_of_firstAbove (h : firstAbove target 0.0 0 weights = none) {i : ℕ} (hi : i < weights.length) :
    ¬ target < sumUpTo weights i := by
  rw [firstAbove_eq, Option.map_eq_none_iff, List.findIdx?_eq_none_iff] at h
  have hlength : i < (runningSums 0.0 weights).length := by rwa [length_runningSums]
  have hnot := h _ (List.getElem_mem hlength)
  rwa [decide_eq_false_iff_not, getElem_runningSums] at hnot

/-! ## Positive weights -/

theorem lastPositive?_eq (weights : List F) : lastPositive? weights = (Draw.positives weights).getLast?.map (·.2) := rfl

theorem lastPositive?_eq_some {i : ℕ} (h : HasWeight weights i) :
    ∃ j, lastPositive? weights = some j ∧ IsGreatest {i | HasWeight weights i} j := by
  have hmem : ∀ {i w}, weights[i]? = some w → 0.0 < w → (w, i) ∈ Draw.positives weights := by
    intro i w hw hpos
    exact List.mem_filter.2 ⟨List.mem_zipIdx_iff_getElem?.2 hw, decide_eq_true hpos⟩
  obtain ⟨w, hw, hpos⟩ := h
  have hsome : Draw.positives weights ≠ [] := List.ne_nil_of_mem (hmem hw hpos)
  obtain ⟨last, hlast⟩ := Option.ne_none_iff_exists'.1 (List.getLast?_eq_none_iff.not.2 hsome)
  obtain ⟨front, hfront⟩ := List.getLast?_eq_some_iff.1 hlast
  refine ⟨last.2, by rw [lastPositive?_eq, hlast]; rfl, ?_, ?_⟩
  · exact ⟨last.1, Draw.mem_positives (List.mem_of_getLast? hlast)⟩
  · rintro j ⟨v, hv, hvpos⟩
    have hpairwise := Draw.pairwise_positives weights
    have hj := hmem hv hvpos
    rw [hfront, List.pairwise_append] at hpairwise
    rw [hfront, List.mem_append, List.mem_singleton] at hj
    rcases hj with hj | rfl
    · exact (hpairwise.2.2 _ hj last (List.mem_singleton.2 rfl)).le
    · exact le_rfl

theorem zero_le_sumUpTo (hG : Growing F) (hweights : ∀ w ∈ weights, IsWeight w) (i : ℕ) : 0.0 ≤ sumUpTo weights i := by
  apply hG.zero_le_foldl
  intro w hw
  exact hG.zero_le w (hweights w (List.mem_of_mem_take hw))

theorem sum_le_of_forall (hG : Growing F) (h : total? weights = .ok sum) (h0 : 0.0 ≤ target)
    (hnone : ∀ i < weights.length, ¬ target < sumUpTo weights i) : sum ≤ target := by
  obtain ⟨hsome, hweights, hsum, -⟩ := total?_eq_ok_iff.1 h
  have hlength : 0 < weights.length := List.length_pos_iff.2 hsome
  have hlast : sumUpTo weights (weights.length - 1) = sum := by
    rw [sumUpTo, Nat.sub_add_cancel hlength, List.take_length, hsum]
  rw [← hlast, ← hG.not_lt_iff h0 (zero_le_sumUpTo hG hweights _)]
  exact hnone _ (Nat.sub_lt hlength one_pos)

section
variable (hF : Weighing F) (hG : Growing F)
include hF hG

theorem exists_hasWeight (h : total? weights = .ok sum) : ∃ i, HasWeight weights i := by
  obtain ⟨-, hweights, hsum, -, hpos⟩ := total?_eq_ok_iff.1 h
  by_contra hnone
  have hzeros : weights.filter isNonzero = [] := by
    rw [List.filter_eq_nil_iff]
    intro w hw hnonzero
    rw [hF.isNonzero_eq w (hweights w hw), decide_eq_true_iff] at hnonzero
    obtain ⟨i, hi⟩ := List.mem_iff_getElem?.1 hw
    exact hnone ⟨i, w, hi, hnonzero⟩
  -- then the sum is the empty one
  rw [← hF.foldl_filter hweights, hzeros] at hsum
  exact hpos (hsum ▸ hG.zero_le_zero)

/-- **A running sum that first exceeds the target does so at a positive weight.** -/
theorem hasWeight_of_isLeast (hweights : ∀ w ∈ weights, IsWeight w) (h0 : 0.0 ≤ target) {i : ℕ}
    (h : IsLeast {i | i < weights.length ∧ target < sumUpTo weights i} i) : HasWeight weights i := by
  obtain ⟨⟨hi, habove⟩, hleast⟩ := h
  refine ⟨weights[i], List.getElem?_eq_getElem hi, ?_⟩
  by_contra hzero
  have hfront : ∀ w ∈ weights.take i, IsWeight w := fun w hw => hweights w (List.mem_of_mem_take hw)
  have hnonzero : isNonzero weights[i] = false := by
    rw [hF.isNonzero_eq _ (hweights _ (List.getElem_mem hi)), decide_eq_false hzero]
  have hsame : sumUpTo weights i = (weights.take i).foldl (· + ·) 0.0 := by
    rw [sumUpTo, ← List.take_append_getElem hi, List.foldl_append]
    exact hF.add_zero _ _ hfront hnonzero
  rw [hsame] at habove
  cases i with
  | zero => exact (hG.not_lt_iff h0 hG.zero_le_zero).2 h0 habove
  | succ i => exact absurd (hleast ⟨(Nat.lt_succ_self i).trans hi, habove⟩) (Nat.not_succ_le_self i)

section
variable (h : total? weights = .ok sum)
include h

/-- **The walk or its fallback**: the least index whose running sum exceeds the target, or else the last one of positive weight. -/
theorem select_cases (target : F) :
    IsLeast {i | i < weights.length ∧ target < sumUpTo weights i} (select weights target) ∨
      (∀ i < weights.length, ¬ target < sumUpTo weights i) ∧ IsGreatest {i | HasWeight weights i} (select weights target) := by
  unfold select
  cases hfirst : firstAbove target 0.0 0 weights with
  | some i => exact Or.inl (isLeast_of_firstAbove hfirst)
  | none =>
    obtain ⟨i, hi⟩ := exists_hasWeight hF hG h
    obtain ⟨j, hlast, hgreatest⟩ := lastPositive?_eq_some hi
    rw [hlast]
    exact Or.inr ⟨fun i hi => not_lt_of_firstAbove hfirst hi, hgreatest⟩

theorem hasWeight_select (h0 : 0.0 ≤ target) : HasWeight weights (select weights target) := by
  obtain ⟨-, hweights, -⟩ := total?_eq_ok_iff.1 h
  rcases select_cases hF hG h target with hleast | ⟨-, hgreatest⟩
  · exact hasWeight_of_isLeast hF hG hweights h0 hleast
  · exact hgreatest.1

/-- **The index grows with the target.** -/
theorem select_mono {target' : F} (h0 : 0.0 ≤ target) (hle : target ≤ target') : select weights target ≤ select weights target' := by
  have h0' : 0.0 ≤ target' := hG.trans _ _ _ hG.zero_le_zero h0 hle
  obtain ⟨-, hweights, -⟩ := total?_eq_ok_iff.1 h
  rcases select_cases hF hG h target' with ⟨⟨hi, habove⟩, -⟩ | ⟨-, hgreatest⟩
  · -- what exceeds the larger target exceeds the smaller one
    have habove' : target < sumUpTo weights (select weights target') :=
      hG.lt_of_le_of_lt h0 (zero_le_sumUpTo hG hweights _) hle habove
    rcases select_cases hF hG h target with ⟨-, hleast⟩ | ⟨hnone, -⟩
    · exact hleast ⟨hi, habove'⟩
    · exact absurd habove' (hnone _ hi)
  · exact hgreatest.2 (hasWeight_select hF hG h h0)

end

end

end Weights

/-! ## Draws -/

open Weights

section
variable {σ : Type} [Entropy σ] {weights : List F} {sum : F}

theorem categorical_eq (h : total? weights = .ok sum) :
    Draw.categorical weights = (Draw.unit : Draw F F).bind fun u => Draw.done (select weights (u * sum)) := by
  rw [Draw.categorical, h]
  rfl

theorem weightedChoice_eq {α : Type} {items : List α} (hlength : items.length = weights.length) (h : total? weights = .ok sum) :
    ∃ x, Draw.weightedChoice items weights = (Draw.categorical weights).bind fun i => Draw.done (items.getD i x) := by
  cases items with
  | nil =>
    obtain ⟨hsome, -⟩ := total?_eq_ok_iff.1 h
    exact absurd (List.length_eq_zero_iff.1 hlength.symm) hsome
  | cons x rest =>
    refine ⟨x, ?_⟩
    rw [Draw.weightedChoice_cons, Draw.requirePaired, Draw.require, if_pos (beq_iff_eq.2 hlength)]
    rfl

theorem zero_le_target (hG : Growing F) (hS : Scaling F) (h : total? weights = .ok sum) {u : F} (hu : IsWeight u) :
    0.0 ≤ u * sum := by
  obtain ⟨-, -, -, htotal⟩ := total?_eq_ok_iff.1 h
  have hmul := hS.mul_le_mul 0.0 u sum hG.zero_le_zero (hG.zero_le u hu) hu htotal
  rwa [hS.zero_mul sum htotal] at hmul

section
variable (hF : Weighing F) (hG : Growing F) (hS : Scaling F) (h : total? weights = .ok sum)
include hF hG hS h

theorem ensures_categorical : (Draw.categorical weights).Ensures False (fun _ => True) (HasWeight weights) := by
  rw [categorical_eq h, Draw.unit, Draw.map_eq, Draw.bind_assoc, Draw.word]
  apply Draw.Ensures.fill
  intro b _
  exact .done (hasWeight_select hF hG h (zero_le_target hG hS h (hF.unit _)))

/-- **A weighted choice is the categorical draw**, followed by a look at the item. -/
theorem run_weightedChoice {α : Type} {items : List α} (hlength : items.length = weights.length) {m m' : Machine F σ} {i : ℕ}
    (hrun : (Draw.categorical weights).run m = (.value i, m')) :
    ∃ a, items[i]? = some a ∧ (Draw.weightedChoice items weights).run m = (.value a, m') := by
  obtain ⟨x, hchoice⟩ := weightedChoice_eq hlength h
  have hdrawn := Draw.run_ensures (ensures_categorical hF hG hS h) m
  rw [hrun] at hdrawn
  -- an index of a weight is one of an item
  obtain ⟨w, hw, -⟩ := hdrawn
  obtain ⟨hi, -⟩ := List.getElem?_eq_some_iff.1 hw
  have hitem : i < items.length := hlength ▸ hi
  refine ⟨items[i], List.getElem?_eq_getElem hitem, ?_⟩
  rw [hchoice, Draw.run_bind, hrun]
  simp [Draw.run, hitem]

end

/-- **Categorical draws choose positive weights, by the running sums.** Let a weight list be accepted with a sum.
- A draw reads eight bytes and returns the index selected by the unit number of their word times the sum.
- For every unit number, the weight at the selected index is positive. The index is the least whose running sum exceeds the product;
  or no running sum does, then the product is no less than the sum, and the index is the last one of positive weight.
- The index grows with the unit number.
- A weighted choice from as many items as there are weights returns, from every machine, the item at the index that the categorical
  draw returns, and leaves the same machine. It fails and gets stuck alike. -/
theorem categorical_selects (hF : Weighing F) (hG : Growing F) (hS : Scaling F) (h : total? weights = .ok sum) :
    (∀ (m : Machine F σ) (w : UInt64) (x : σ) (log : List LogLine),
      Entropy.fill m.source 8 = ⟨.ok (Bytes.ofWord w), x, log⟩ →
      ∃ m', (Draw.categorical weights).run m = (.value (select weights (unitOf w * sum)), m') ∧ m'.source = x ∧
        m.Uses m' 8 log []) ∧
    (∀ u : F, IsWeight u →
      HasWeight weights (select weights (u * sum)) ∧
      (IsLeast {i | i < weights.length ∧ u * sum < sumUpTo weights i} (select weights (u * sum)) ∨
        (∀ i < weights.length, ¬ u * sum < sumUpTo weights i) ∧ sum ≤ u * sum ∧
          IsGreatest {i | HasWeight weights i} (select weights (u * sum)))) ∧
    (∀ u v : F, IsWeight u → IsWeight v → u ≤ v → select weights (u * sum) ≤ select weights (v * sum)) ∧
    ∀ (α : Type) (items : List α), items.length = weights.length → ∀ m m' : Machine F σ,
      (∀ i, (Draw.categorical weights).run m = (.value i, m') →
        ∃ a, items[i]? = some a ∧ (Draw.weightedChoice items weights).run m = (.value a, m')) ∧
      (∀ e, (Draw.categorical weights).run m = (.failed e, m') → (Draw.weightedChoice items weights).run m = (.failed e, m')) ∧
      ((Draw.categorical weights).run m = (.stuck, m') → (Draw.weightedChoice items weights).run m = (.stuck, m')) := by
  obtain ⟨-, -, -, htotal⟩ := total?_eq_ok_iff.1 h
  refine ⟨?_, ?_, ?_, ?_⟩
  · intro m w x log hfill
    rw [categorical_eq h]
    exact Draw.run_unit hfill _
  · intro u hu
    have htarget := zero_le_target hG hS h hu
    refine ⟨hasWeight_select hF hG h htarget, ?_⟩
    rcases select_cases hF hG h (u * sum) with hleast | ⟨hnone, hgreatest⟩
    · exact Or.inl hleast
    · exact Or.inr ⟨hnone, sum_le_of_forall hG h htarget hnone, hgreatest⟩
  · intro u v hu hv huv
    apply select_mono hF hG h (zero_le_target hG hS h hu)
    exact hS.mul_le_mul u v sum (hG.zero_le u hu) huv hv htotal
  · intro α items hlength m m'
    refine ⟨fun i hrun => run_weightedChoice hF hG hS h hlength hrun, ?_, ?_⟩
    · intro e hrun
      obtain ⟨x, hchoice⟩ := weightedChoice_eq hlength h
      rw [hchoice, Draw.run_bind, hrun]
    · intro hrun
      obtain ⟨x, hchoice⟩ := weightedChoice_eq hlength h
      rw [hchoice, Draw.run_bind, hrun]

end

/-- of three weights only the least number above zero is positive: the target of the largest word rounds up to the sum, no running
sum exceeds it, and the item of positive weight is still the one chosen -/
theorem categorical_selects_least_number :
    total? [0.0, (tiny : Float), 0.0] = .ok tiny ∧ (tiny : Float) ≤ unitOf 0xffffffffffffffff * tiny ∧
    ((Draw.categorical [0.0, tiny, 0.0]).run
      ({ source := Replay.ofWords [0xffffffffffffffff], keepsSpare := true } : Machine Float Replay)).1 = .value 1 ∧
    ((Draw.weightedChoice ["a", "b", "c"] [0.0, tiny, 0.0]).run
      ({ source := Replay.ofWords [0xffffffffffffffff], keepsSpare := true } : Machine Float Replay)).1 = .value "b" := by
  have haccepted : total? [0.0, (tiny : Float), 0.0] = .ok tiny := by decide +kernel
  obtain ⟨hdraw, hindex, -, hchoice⟩ := @categorical_selects Float _ Replay _ _ _ (Binary64.weighing Float.log)
    (Binary64.growing Float.pow) (Binary64.scaling Float.pow) haccepted
  have hone : select [0.0, (tiny : Float), 0.0] (unitOf 0xffffffffffffffff * tiny) = 1 := by decide +kernel
  obtain ⟨m', hrun, -, -⟩ := hdraw { source := Replay.ofWords [0xffffffffffffffff], keepsSpare := true } 0xffffffffffffffff _ [] rfl
  rw [hone] at hrun
  obtain ⟨hitem, -⟩ := hchoice String ["a", "b", "c"] (by rfl) _ m'
  obtain ⟨a, ha, hchosen⟩ := hitem 1 hrun
  rw [hrun, hchosen]
  cases ha
  refine ⟨haccepted, ?_, rfl, rfl⟩
  rcases (hindex (unitOf 0xffffffffffffffff) ((Binary64.weighing Float.log).unit _)).2 with hleast | ⟨-, hreached, -⟩
  · rw [hone] at hleast
    exact absurd hleast.1.2 (by decide +kernel)
  · exact hreached

end Sampling
