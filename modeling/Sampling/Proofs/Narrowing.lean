/-
Narrow integers are drawn as wide ones.

A bounded draw ends below its bound, so a check that holds below the bound may be left out behind it (`belowFrom_bind_congr`,
`between_bind_congr`). The checks of 32-bit integers, sizes and positions are such checks: each of these operations is the same
program as a wide one, a range or a bounded draw of 64 bits (`Call.Narrows`, `Call.Narrows.program_eq`), and what it returns is in
the interval it states (`Call.Narrows.ensures`).
-/
import Sampling.Call
import Sampling.Proofs.Range

namespace Sampling

variable {F α β : Type}

namespace Draw

/-! ## Behind a bounded draw -/

/-- what follows a bounded draw matters below the bound only -/
theorem belowFrom_bind_congr {n : UInt64} (hn : n ≠ 0) {k k' : UInt64 → Draw F β} (h : ∀ v < n, k v = k' v)
    (tries : Nat) (redraws : UInt32) : (belowFrom n tries redraws).bind k = (belowFrom n tries redraws).bind k' := by
  induction tries generalizing redraws with
  | zero => rfl
  | succ tries ih =>
    rw [belowFrom_succ, bind_assoc, bind_assoc]
    refine congrArg word.bind (funext fun u => ?_)
    split
    · exact congrArg (settled n (u % n) redraws) (h _ (UInt64.mod_lt _ (UInt64.pos_iff_ne_zero.2 hn)))
    · exact ih (redraws + 1)

/-- what follows a range matters inside the range only -/
theorem between_bind_congr {min max : Int64} {k k' : Int64 → Draw F β} (h : ∀ v, min ≤ v → v ≤ max → k v = k' v)
    (tries : Nat) : (between tries min max).bind k = (between tries min max).bind k' := by
  by_cases hle : min ≤ max
  · by_cases hs : span min max = 0
    · rw [between_of_span_eq_zero hle hs, bind_assoc, bind_assoc]
      refine congrArg word.bind (funext fun u => ?_)
      obtain ⟨hmin, hmax⟩ := full_mem hle hs u.toInt64
      exact h _ hmin hmax
    · rw [between_of_span_ne_zero hle hs, bind_assoc, bind_assoc]
      refine belowFrom_bind_congr hs (fun offset ho => ?_) tries 0
      obtain ⟨hmin, hmax⟩ := offset_mem hle ho
      exact h _ hmin hmax
  · rw [between, require, if_neg (by simpa using hle)]
    rfl

/-! ## Checks that always pass -/

theorem toInt64_le_iff (v : Int64) (x : Int32) : v ≤ x.toInt64 ↔ v.toInt ≤ x.toInt := by
  rw [Int64.le_iff_toInt_le, Int32.toInt_toInt64]

theorem le_toInt64_iff (v : Int64) (x : Int32) : x.toInt64 ≤ v ↔ x.toInt ≤ v.toInt := by
  rw [Int64.le_iff_toInt_le, Int32.toInt_toInt64]

theorem narrow_of_mem {min max : Int32} {v : Int64} (hmin : min.toInt64 ≤ v) (hmax : v ≤ max.toInt64) :
    (narrow v : Draw F Int32) = done v.toInt32 ∧ v.toInt32.toInt = v.toInt := by
  rw [le_toInt64_iff] at hmin
  rw [toInt64_le_iff] at hmax
  have hlow := min.le_toInt
  have hhigh := max.toInt_lt
  have hfits : (Int32.minValue.toInt64 ≤ v && v ≤ Int32.maxValue.toInt64) = true := by
    rw [Bool.and_eq_true, decide_eq_true_iff, decide_eq_true_iff, le_toInt64_iff, toInt64_le_iff, Int32.toInt_minValue,
      Int32.toInt_maxValue]
    omega
  constructor
  · rw [narrow, require, if_pos hfits]
  · rw [Int64.toInt_toInt32, Int.bmod_eq_of_le (by omega) (by omega)]

theorem between32_eq (tries : Nat) (min max : Int32) :
    (between32 tries min max : Draw F Int32) = Int64.toInt32 <$> between tries min.toInt64 max.toInt64 :=
  between_bind_congr (fun _ hmin hmax => (narrow_of_mem hmin hmax).1) tries

theorem toInt_between32 (g : Int → α) (tries : Nat) (min max : Int32) :
    (fun v : Int32 => g v.toInt) <$> (between32 tries min max : Draw F Int32) =
      (fun v : Int64 => g v.toInt) <$> between tries min.toInt64 max.toInt64 := by
  rw [between32_eq, map_eq, map_eq, map_eq, bind_assoc]
  refine between_bind_congr (fun v hmin hmax => ?_) tries
  rw [done_bind, (narrow_of_mem (F := F) hmin hmax).2]

end Draw

/-! ## Narrow operations and their wide forms -/

/-- a narrow operation, the wide one it stands for, and the interval it states for its integers -/
inductive Call.Narrows : (narrow wide : Call F) → (lo hi : Int) → Prop where
  | between32 (min max : Int32) : Narrows (.between32 min max) (.between min.toInt64 max.toInt64) min.toInt max.toInt
  | betweenSize (min max : Int64) : Narrows (.betweenSize min max) (.between min max) min.toInt max.toInt
  | any32 : Narrows .any32 (.between Int32.minValue.toInt64 Int32.maxValue.toInt64) (-2 ^ 31) (2 ^ 31 - 1)
  | any64 : Narrows .any64 (.between Int64.minValue Int64.maxValue) (-2 ^ 63) (2 ^ 63 - 1)
  | positive32 : Narrows .positive32 (.between 1 Int32.maxValue.toInt64) 1 (2 ^ 31 - 1)
  | positive64 : Narrows .positive64 (.between 1 Int64.maxValue) 1 (2 ^ 63 - 1)
  | negative32 : Narrows .negative32 (.between Int32.minValue.toInt64 (-1)) (-2 ^ 31) (-1)
  | negative64 : Narrows .negative64 (.between Int64.minValue (-1)) (-2 ^ 63) (-1)
  | indexBelow {n : Nat} (hsize : n < UInt64.size) : Narrows (.indexBelow n) (.wordBelow (UInt64.ofNat n)) 0 (n - 1)
  /-- a bound that is not positive stands for the bound zero -/
  | signedBelow (n : Int64) : Narrows (.signedBelow n) (.wordBelow (UInt64.ofNat n.toInt.toNat)) 0 (n.toInt - 1)

namespace Draw

theorem indexBelow_of_lt {n : Nat} (hsize : n < UInt64.size) (tries : Nat) :
    (indexBelow tries n : Draw F Nat) = UInt64.toNat <$> wordBelow tries (UInt64.ofNat n) := by
  rw [indexBelow_eq, require, if_pos (decide_eq_true hsize)]

theorem toNat_signedBound (n : Int64) : (UInt64.ofNat n.toInt.toNat).toNat = n.toInt.toNat := by
  have hhigh := n.toInt_lt
  have hsize : n.toInt.toNat < 2 ^ 64 := by omega
  exact UInt64.toNat_ofNat_of_lt' hsize

theorem toUInt64_of_pos {n : Int64} (hn : 0 < n.toInt) : n.toUInt64 = UInt64.ofNat n.toInt.toNat := by
  have hword := toNat_toUInt64 n
  have hhigh := n.toInt_lt
  rw [← UInt64.toNat_inj, toNat_signedBound]
  omega

theorem toInt_toInt64_of_lt {n : Int64} {v : UInt64} (hv : v < UInt64.ofNat n.toInt.toNat) :
    v.toInt64.toInt = v.toNat ∧ (v.toNat : Int) < n.toInt := by
  have hhigh := n.toInt_lt
  rw [UInt64.lt_iff_toNat_lt, toNat_signedBound] at hv
  exact ⟨toInt_toInt64_of_mod (by omega) (by omega) (by omega), by omega⟩

/-- signed integers are drawn as words below the same bound are, and they are the same numbers -/
theorem toInt_signedBelow (g : Int → α) (tries : Nat) (n : Int64) :
    (fun v : Int64 => g v.toInt) <$> (signedBelow tries n : Draw F Int64) =
      (fun v : UInt64 => g v.toNat) <$> wordBelow tries (UInt64.ofNat n.toInt.toNat) := by
  by_cases hn : 0 < n
  · have hpos := Int64.lt_iff_toInt_lt.1 hn
    rw [Int64.toInt_zero] at hpos
    have hne : UInt64.ofNat n.toInt.toNat ≠ 0 := by
      rw [← UInt64.toNat_inj.ne, toNat_signedBound, UInt64.toNat_zero]
      omega
    rw [signedBelow, require, if_pos (decide_eq_true hn), toUInt64_of_pos hpos, wordBelow_of_ne_zero hne, map_eq, map_eq, map_eq,
      bind_assoc]
    refine belowFrom_bind_congr hne (fun v hv => ?_) tries 0
    rw [done_bind, (toInt_toInt64_of_lt hv).1]
  · have hzero : n.toInt.toNat = 0 := by
      have hle := Int64.not_lt.1 hn
      rw [Int64.le_iff_toInt_le, Int64.toInt_zero] at hle
      omega
    rw [signedBelow, require, if_neg (by simpa using hn), hzero]
    rfl

end Draw

namespace Call

variable [Arith F] {narrow wide : Call F} {lo hi : Int}

/-- **A narrow operation is a wide one.** No check of its width ever fails, so it is the same program. -/
theorem Narrows.program_eq (h : Narrows narrow wide lo hi) (now : Instant) (tries : Nat) :
    narrow.program now tries = wide.program now tries := by
  cases h with
  | between32 min max => exact Draw.toInt_between32 Value.integer tries min max
  | betweenSize min max => rw [program, program, Draw.betweenSize_eq]
  | any32 => exact Draw.toInt_between32 Value.integer tries _ _
  | any64 => rfl
  | positive32 => exact Draw.toInt_between32 Value.integer tries _ _
  | positive64 => rfl
  | negative32 => exact Draw.toInt_between32 Value.integer tries _ _
  | negative64 => rfl
  | indexBelow hsize =>
    rw [program, program, Draw.indexBelow_of_lt hsize]
    simp only [Draw.map_eq, Draw.bind_eq, Draw.pure_eq, Draw.bind_assoc, Draw.done_bind]
  | signedBelow n => exact Draw.toInt_signedBelow Value.integer tries n

theorem ensures_between {min max : Int64} (hlo : min.toInt = lo) (hhi : max.toInt = hi) (now : Instant) (tries : Nat) :
    ((between min max : Call F).program now tries).Ensures False (fun f => f.isParameter = true)
      fun v => ∃ z, v = .integer z ∧ lo ≤ z ∧ z ≤ hi := by
  by_cases h : min ≤ max
  · refine ((Draw.ensures_between h tries).mono (fun _ hf => hf.elim) fun _ hv => hv).map ?_
    rintro v ⟨hmin, hmax⟩
    exact ⟨v.toInt, rfl, hlo ▸ Int64.le_iff_toInt_le.1 hmin, hhi ▸ Int64.le_iff_toInt_le.1 hmax⟩
  · rw [program, Draw.between, Draw.require, if_neg (by simpa using h)]
    exact .fault rfl

theorem ensures_wordBelow {n : UInt64} (hhi : (n.toNat : Int) - 1 ≤ hi) (now : Instant) (tries : Nat) :
    ((wordBelow n : Call F).program now tries).Ensures False (fun f => f.isParameter = true)
      fun v => ∃ z, v = .integer z ∧ 0 ≤ z ∧ z ≤ hi := by
  refine Draw.Ensures.map (Q := (· < n)) (Draw.Ensures.require (fun _ => rfl) fun hne => ?_) ?_
  · exact (Draw.ensures_belowFrom (bne_iff_ne.1 hne) tries 0).mono (fun _ hf => hf.elim) fun _ hv => hv
  · intro v hv
    have hlt := UInt64.lt_iff_toNat_lt.1 hv
    exact ⟨v.toNat, rfl, by omega, by omega⟩

/-- **A narrow operation keeps to the interval it states**, and all its faults are about its bounds. -/
theorem Narrows.ensures (h : Narrows narrow wide lo hi) (now : Instant) (tries : Nat) :
    (narrow.program now tries).Ensures False (fun f => f.isParameter = true)
      fun v => ∃ z, v = .integer z ∧ lo ≤ z ∧ z ≤ hi := by
  rw [h.program_eq]
  cases h with
  | between32 min max => exact ensures_between min.toInt_toInt64 max.toInt_toInt64 now tries
  | betweenSize min max => exact ensures_between (by rfl) (by rfl) now tries
  | any32 => exact ensures_between (by rfl) (by rfl) now tries
  | any64 => exact ensures_between (by rfl) (by rfl) now tries
  | positive32 => exact ensures_between (by rfl) (by rfl) now tries
  | positive64 => exact ensures_between (by rfl) (by rfl) now tries
  | negative32 => exact ensures_between (by rfl) (by rfl) now tries
  | negative64 => exact ensures_between (by rfl) (by rfl) now tries
  | @indexBelow n hsize =>
    have htoNat : (UInt64.ofNat n).toNat = n := UInt64.toNat_ofNat_of_lt' hsize
    exact ensures_wordBelow (by rw [htoNat]) now tries
  | signedBelow n =>
    by_cases hn : 0 < n.toInt
    · exact ensures_wordBelow (by rw [Draw.toNat_signedBound]; omega) now tries
    · have hzero : n.toInt.toNat = 0 := by omega
      rw [hzero]
      exact .fault rfl

end Call

end Sampling
