/-
Which rank a unit number selects from a Zipf table.

The entries of a table are the running sums of the weights over their total. Running sums grow, and so do their shares, whatever is
lost to rounding; the last entry is a number over itself. So a table is in order, from nothing up to exactly one (`table_of_build?`),
and a bisection of it finds the least rank whose entry is not below the unit number (`rank_isLeast`). Unit numbers are below one,
hence the search always ends within the table and never at the bound that is taken for it (`firstFrom_lt`).
-/
import Mathlib.Order.Bounds.Basic
import Sampling.Source.Replay
import Sampling.Zipf
import Sampling.Proofs.Growth
import Sampling.Proofs.WordStream

namespace Sampling

namespace Zipf

variable {F : Type} [Arith F] {s v u : F} {n : ℕ} {z : Zipf F}

/-! ## Running sums -/

/-- the sum of the weights of the first `k` ranks, from left to right -/
def sumUpTo (s v : F) (k : ℕ) : F := (List.range k).foldl (fun acc i => acc + weight s v (i + 1)) 0.0

/-- weights are from zero up: none is missing -/
def WeightsFromZero (s v : F) (n : ℕ) : Prop := ∀ k, 1 ≤ k → k ≤ n → 0.0 ≤ weight s v k

theorem sumUpTo_succ (s v : F) (k : ℕ) : sumUpTo s v (k + 1) = sumUpTo s v k + weight s v (k + 1) := by
  rw [sumUpTo, List.range_succ, List.foldl_append]
  rfl

theorem sums_eq (s v : F) (n : ℕ) : sums s v n = (Array.ofFn fun k : Fin n => sumUpTo s v (k + 1), sumUpTo s v n) := by
  induction n with
  | zero => rfl
  | succ n ih =>
    rw [sums, List.range_succ, List.foldl_append]
    rw [sums] at ih
    rw [ih, List.foldl_cons, List.foldl_nil]
    dsimp only
    rw [← sumUpTo_succ, Array.ofFn_succ]
    rfl

theorem sumUpTo_add (s v : F) (j k : ℕ) :
    sumUpTo s v (j + k) = ((List.range k).map fun i => weight s v (j + i + 1)).foldl (· + ·) (sumUpTo s v j) := by
  rw [sumUpTo, List.range_add, List.foldl_append, List.foldl_map, List.foldl_map]
  rfl

section
variable (hG : Growing F) (hpow : WeightsFromZero s v n)
include hG hpow

/-- **Running sums are in order**, if the one they start from is from zero up. -/
theorem sumUpTo_le_add {j k : ℕ} (h0 : 0.0 ≤ sumUpTo s v j) (hn : j + k ≤ n) : sumUpTo s v j ≤ sumUpTo s v (j + k) := by
  rw [sumUpTo_add]
  apply hG.le_foldl _ h0
  intro w hw
  obtain ⟨i, hi, rfl⟩ := List.mem_map.1 hw
  have hik := List.mem_range.1 hi
  exact hpow _ (Nat.succ_pos _) (by omega)

theorem zero_le_sumUpTo {k : ℕ} (hk : k ≤ n) : 0.0 ≤ sumUpTo s v k := by
  have hsum := sumUpTo_le_add hG hpow (j := 0) (k := k) hG.zero_le_zero (by omega)
  rwa [Nat.zero_add] at hsum

theorem sumUpTo_mono {j k : ℕ} (hjk : j ≤ k) (hk : k ≤ n) : sumUpTo s v j ≤ sumUpTo s v k := by
  obtain ⟨d, rfl⟩ := Nat.exists_eq_add_of_le hjk
  exact sumUpTo_le_add hG hpow (zero_le_sumUpTo hG hpow (hjk.trans hk)) hk

end

/-! ## Tables -/

/-- what is built: the shares of the running sums in a total that is finite and above zero -/
theorem eq_of_build? (h : build? s v n = .ok z) : 0 < n ∧ IsTotal (sumUpTo s v n) ∧
    z = ⟨s, v, Array.ofFn fun k : Fin n => sumUpTo s v (k + 1) / sumUpTo s v n⟩ := by
  unfold build? at h
  split_ifs at h with hparameters
  rw [sums_eq] at h
  dsimp only at h
  split_ifs at h with hsum
  cases h
  rw [Bool.or_eq_true, not_or, Bool.not_eq_true', Bool.not_eq_false, decide_eq_true_iff] at hsum
  simp only [Bool.or_eq_true, beq_iff_eq, not_or] at hparameters
  refine ⟨Nat.pos_of_ne_zero hparameters.2, hsum, ?_⟩
  rw [Array.map_ofFn]
  rfl

/-- the entries of a table are in order, from nothing up to one -/
structure Table (z : Zipf F) (n : ℕ) : Prop where
  size_eq : z.cdf.size = n
  pos : 0 < n
  mono : ∀ i j (hij : i ≤ j) (hj : j < z.cdf.size), z.cdf[i] ≤ z.cdf[j]
  zero_le : ∀ i (hi : i < z.cdf.size), 0.0 ≤ z.cdf[i]
  le_one : ∀ i (hi : i < z.cdf.size), z.cdf[i] ≤ 1.0
  last : z.cdf[n - 1]? = some 1.0

theorem Table.zero_le_one (hG : Growing F) (hT : z.Table n) : (0.0 : F) ≤ 1.0 := by
  have hfirst : 0 < z.cdf.size := hT.size_eq.symm ▸ hT.pos
  exact hG.trans _ _ _ hG.zero_le_zero (hT.zero_le 0 hfirst) (hT.le_one 0 hfirst)

/-- **Tables are in order, from nothing up to exactly one.** -/
theorem table_of_build? (hG : Growing F) (hS : Sharing F) (h : build? s v n = .ok z) (hpow : WeightsFromZero s v n) :
    z.Table n := by
  obtain ⟨hn, htotal, rfl⟩ := eq_of_build? h
  have hshare : ∀ j k, j ≤ k → k ≤ n → sumUpTo s v j / sumUpTo s v n ≤ sumUpTo s v k / sumUpTo s v n := by
    intro j k hjk hk
    apply hS.div_le_div _ _ _ (zero_le_sumUpTo hG hpow (hjk.trans hk)) (sumUpTo_mono hG hpow hjk hk)
    · exact sumUpTo_mono hG hpow hk le_rfl
    · exact htotal
  have hsize : (Array.ofFn fun k : Fin n => sumUpTo s v (k + 1) / sumUpTo s v n).size = n := Array.size_ofFn
  refine ⟨hsize, hn, ?_, ?_, ?_, ?_⟩
  · intro i j hij hj
    rw [hsize] at hj
    simp only [Array.getElem_ofFn]
    exact hshare _ _ (Nat.succ_le_succ hij) hj
  · intro i hi
    rw [hsize] at hi
    simp only [Array.getElem_ofFn]
    have hzero := hshare 0 (i + 1) (Nat.zero_le _) hi
    rwa [sumUpTo, List.range_zero, List.foldl_nil, hS.zero_div _ htotal] at hzero
  · intro i hi
    rw [hsize] at hi
    simp only [Array.getElem_ofFn]
    have hone := hshare (i + 1) n hi le_rfl
    rwa [hS.div_self _ htotal] at hone
  · have hlast : n - 1 < n := Nat.sub_lt hn one_pos
    rw [Array.getElem?_ofFn, dif_pos hlast]
    simp only [Nat.sub_add_cancel hn, hS.div_self _ htotal]

/-! ## The search -/

section
variable (hG : Growing F) (hT : z.Table n)
include hG hT

theorem reaches_iff (h0 : 0.0 ≤ u) {i : ℕ} (hi : i < z.cdf.size) : z.reaches u i = true ↔ u ≤ z.cdf[i] := by
  rw [reaches, Array.getElem?_eq_getElem hi, Option.all_some, Bool.not_eq_true', decide_eq_false_iff_not,
    hG.not_lt_iff (hT.zero_le i hi) h0]

theorem reaches_mono (h0 : 0.0 ≤ u) {i j : ℕ} (hij : i ≤ j) (hi : z.reaches u i = true) : z.reaches u j = true := by
  rcases Nat.lt_or_ge j z.cdf.size with hj | hj
  · rw [reaches_iff hG hT h0 (hij.trans_lt hj)] at hi
    rw [reaches_iff hG hT h0 hj]
    exact hG.trans _ _ _ h0 hi (hT.mono i j hij hj)
  · rw [reaches, Array.getElem?_eq_none hj]
    rfl

section
variable (h0 : 0.0 ≤ u) (h1 : u < 1.0)
include h0 h1

/-- **The search ends within the table**: the last entry is one, and the number is below it. -/
theorem firstFrom_lt : Bisection.firstFrom (z.reaches u) 0 z.cdf.size < z.cdf.size := by
  have hn := hT.pos
  have hlast : n - 1 < z.cdf.size := hT.size_eq.symm ▸ Nat.sub_lt hn one_pos
  have hone : z.cdf[n - 1] = 1.0 := by
    have hentry := hT.last
    rwa [Array.getElem?_eq_getElem hlast, Option.some.injEq] at hentry
  have hreached : z.reaches u (n - 1) = true := by
    rw [reaches_iff hG hT h0 hlast, hone]
    exact hG.le_of_lt h0 (hone ▸ hT.zero_le _ hlast) h1
  by_contra hend
  have hbefore : n - 1 < Bisection.firstFrom (z.reaches u) 0 z.cdf.size := hlast.trans_le (not_lt.1 hend)
  have hnot := Bisection.not_holds_of_lt_firstFrom (fun i j hij => reaches_mono hG hT h0 hij) 0 _ (Nat.zero_le _) hbefore
  rw [hreached] at hnot
  cases hnot

theorem rank_eq : z.rank u = Bisection.firstFrom (z.reaches u) 0 z.cdf.size + 1 := by
  rw [rank, min_eq_left (Nat.le_sub_one_of_lt (firstFrom_lt hG hT h0 h1))]

/-- **The rank is the least whose entry is not below the number.** -/
theorem rank_isLeast : IsLeast {k | 1 ≤ k ∧ ∃ p, z.cdf[k - 1]? = some p ∧ u ≤ p} (z.rank u) := by
  have hlt := firstFrom_lt hG hT h0 h1
  rw [rank_eq hG hT h0 h1]
  constructor
  · refine ⟨Nat.succ_pos _, _, Array.getElem?_eq_getElem hlt, ?_⟩
    rw [← reaches_iff hG hT h0 hlt]
    exact Bisection.holds_firstFrom 0 _ (by simpa using hlt)
  · rintro k ⟨hk, p, hp, hup⟩
    obtain ⟨hsize, rfl⟩ := Array.getElem?_eq_some_iff.1 hp
    by_contra hbelow
    have hbefore : k - 1 < Bisection.firstFrom (z.reaches u) 0 z.cdf.size := by omega
    have hnot := Bisection.not_holds_of_lt_firstFrom (fun i j hij => reaches_mono hG hT h0 hij) 0 _ (Nat.zero_le _) hbefore
    rw [(reaches_iff hG hT h0 hsize).2 hup] at hnot
    cases hnot

theorem rank_not_flat (h2 : 2 ≤ z.rank u) : z.cdf[z.rank u - 1]? ≠ z.cdf[z.rank u - 2]? := by
  intro hflat
  obtain ⟨⟨-, p, hp, hup⟩, hleast⟩ := rank_isLeast hG hT h0 h1
  have hbefore : z.rank u ≤ z.rank u - 1 := by
    apply hleast
    refine ⟨Nat.le_sub_one_of_lt h2, p, ?_, hup⟩
    rw [Nat.sub_sub, ← hflat, hp]
  omega

end

/-- **The rank grows with the number.** -/
theorem rank_mono {u' : F} (h0 : 0.0 ≤ u) (hle : u ≤ u') (h1 : u' < 1.0) : z.rank u ≤ z.rank u' := by
  have h0' : 0.0 ≤ u' := hG.trans _ _ _ hG.zero_le_zero h0 hle
  have hbelow : u < 1.0 := hG.lt_of_le_of_lt h0 (hT.zero_le_one hG) hle h1
  obtain ⟨⟨hk, p, hp, hup⟩, -⟩ := rank_isLeast hG hT h0' h1
  exact (rank_isLeast hG hT h0 hbelow).2 ⟨hk, p, hp, hG.trans _ _ _ h0 hle hup⟩

theorem rank_zero (h1 : (0.0 : F) < 1.0) : z.rank 0.0 = 1 := by
  have hfirst : 0 < z.cdf.size := hT.size_eq.symm ▸ hT.pos
  apply le_antisymm
  · apply (rank_isLeast hG hT hG.zero_le_zero h1).2
    exact ⟨le_rfl, _, Array.getElem?_eq_getElem hfirst, hT.zero_le 0 hfirst⟩
  · exact Nat.succ_pos _

end

end Zipf

/-! ## Draws -/

section
variable {σ F : Type} [Entropy σ] [Arith F] {s v : F} {n : ℕ} {z : Zipf F}

theorem run_zipfRank {m : Machine F σ} {w : UInt64} {x : σ} {log : List LogLine}
    (hfill : Entropy.fill m.source 8 = ⟨.ok (Bytes.ofWord w), x, log⟩) :
    ∃ m', (Draw.zipfRank z).run m = (.value (z.rank (unitOf w)), m') ∧ m'.source = x ∧ m.Uses m' 8 log [] := by
  rw [Draw.zipfRank, Draw.map_eq]
  exact Draw.run_unit hfill fun u => Draw.done (z.rank u)

/-- **A Zipf draw selects the least rank whose entry is not below the unit number.** Let a table be built, of weights that are from
zero up.
- The table has `n` entries, in order, from nothing up to one, and the last is exactly one.
- For every number from zero up, below one, the search ends within the table and the rank is the least whose entry is not below the
  number; a rank whose entry repeats the one before is not selected.
- The rank grows with the number, and zero has rank one.
- A draw reads eight bytes and returns the rank of the unit number of their word, which is such a number. -/
theorem zipf_rank_least (hG : Growing F) (hS : Sharing F) (h : Zipf.build? s v n = .ok z) (hpow : Zipf.WeightsFromZero s v n) :
    (z.cdf.size = n ∧ (∀ i j (hij : i ≤ j) (hj : j < z.cdf.size), z.cdf[i] ≤ z.cdf[j]) ∧
      (∀ i (hi : i < z.cdf.size), 0.0 ≤ z.cdf[i] ∧ z.cdf[i] ≤ 1.0) ∧ z.cdf[n - 1]? = some 1.0) ∧
    (∀ u : F, 0.0 ≤ u → u < 1.0 →
      Bisection.firstFrom (z.reaches u) 0 z.cdf.size < z.cdf.size ∧
      IsLeast {k | 1 ≤ k ∧ ∃ p, z.cdf[k - 1]? = some p ∧ u ≤ p} (z.rank u) ∧
      (2 ≤ z.rank u → z.cdf[z.rank u - 1]? ≠ z.cdf[z.rank u - 2]?)) ∧
    (∀ u u' : F, 0.0 ≤ u → u ≤ u' → u' < 1.0 → z.rank u ≤ z.rank u') ∧
    z.rank 0.0 = 1 ∧
    ∀ (m : Machine F σ) (w : UInt64) (x : σ) (log : List LogLine), Entropy.fill m.source 8 = ⟨.ok (Bytes.ofWord w), x, log⟩ →
      (0.0 : F) ≤ unitOf w ∧ (unitOf w : F) < 1.0 ∧
      ∃ m', (Draw.zipfRank z).run m = (.value (z.rank (unitOf w)), m') ∧ m'.source = x ∧ m.Uses m' 8 log [] := by
  have hT := Zipf.table_of_build? hG hS h hpow
  refine ⟨⟨hT.size_eq, hT.mono, fun i hi => ⟨hT.zero_le i hi, hT.le_one i hi⟩, hT.last⟩, ?_, ?_, ?_, ?_⟩
  · intro u h0 h1
    exact ⟨Zipf.firstFrom_lt hG hT h0 h1, Zipf.rank_isLeast hG hT h0 h1, Zipf.rank_not_flat hG hT h0 h1⟩
  · intro u u' h0 hle h1
    exact Zipf.rank_mono hG hT h0 hle h1
  · obtain ⟨hunit, hbelow⟩ := hS.unit 0
    exact Zipf.rank_zero hG hT (hG.lt_of_le_of_lt hG.zero_le_zero (hT.zero_le_one hG) hunit hbelow)
  · intro m w x log hfill
    exact ⟨(hS.unit w).1, (hS.unit w).2, run_zipfRank hfill⟩

end

def reciprocal (x _ : Float) : Float := 1.0 / x

/-- two ranks of equal weight: one half, the first entry itself, still selects the first rank, and the next unit number the second -/
theorem zipf_rank_least_two_even :
    letI : Arith Float := Binary64.withPow reciprocal
    ∃ z : Zipf Float, Zipf.build? 1.0 1e17 2 = .ok z ∧ z.cdf = #[0.5, 1.0] ∧
      ((Draw.zipfRank z).run
        ({ source := Replay.ofWords [0x8000000000000000], keepsSpare := true } : Machine Float Replay)).1 = .value 1 ∧
      ((Draw.zipfRank z).run
        ({ source := Replay.ofWords [0x8000000000000800], keepsSpare := true } : Machine Float Replay)).1 = .value 2 := by
  let _ : Arith Float := Binary64.withPow reciprocal
  have hbuild : Zipf.build? (1.0 : Float) 1e17 2 = .ok ⟨1.0, 1e17, #[0.5, 1.0]⟩ := by decide +kernel
  have hpow : Zipf.WeightsFromZero (1.0 : Float) 1e17 2 := by
    intro k hk hk2
    obtain rfl | rfl : k = 1 ∨ k = 2 := by omega
    · decide +kernel
    · decide +kernel
  obtain ⟨-, hrank, -, -, hdraw⟩ := @zipf_rank_least Replay Float _ (Binary64.withPow reciprocal) _ _ _ _
    (Binary64.growing reciprocal) (Binary64.sharing reciprocal) hbuild hpow
  refine ⟨_, hbuild, rfl, ?_, ?_⟩
  · obtain ⟨h0, h1, m', hrun, -⟩ := hdraw { source := Replay.ofWords [0x8000000000000000], keepsSpare := true }
      0x8000000000000000 _ [] rfl
    have hleast := (hrank _ h0 h1).2.1
    have hone : Zipf.rank ⟨1.0, 1e17, #[0.5, 1.0]⟩ (unitOf 0x8000000000000000 : Float) ≤ 1 := by
      apply hleast.2
      exact ⟨le_rfl, 0.5, rfl, by decide +kernel⟩
    rw [hrun, le_antisymm hone hleast.1.1]
  · obtain ⟨h0, h1, m', hrun, -⟩ := hdraw { source := Replay.ofWords [0x8000000000000800], keepsSpare := true }
      0x8000000000000800 _ [] rfl
    have hsecond : Zipf.rank ⟨1.0, 1e17, #[0.5, 1.0]⟩ (unitOf 0x8000000000000800 : Float) = 2 := by decide +kernel
    rw [hrun, hsecond]

end Sampling
