/-
How many words a bounded draw redraws.

The words redrawn are the last `2 ^ 64 - acceptLimit n` ones (`ncard_rejected`), one more than the remainder of the largest word
modulo `n`. Up to the middle of the words that is at most `n`; above the middle, `n` fits once and what it leaves is less than the
middle. So at most half of the words are redrawn, and exactly half only where both meet, at `n = 2 ^ 63`, although that bound
divides the number of words (`rejected_eq_half_iff`).

`rejected_at_most_half`: this for every bound and every range, and what it means for the helpers.
-/
import Sampling.Proofs.Range

namespace Sampling

namespace Draw

variable {F σ : Type}

/-! ## Bounds -/

/-- how many words a draw below `n` redraws -/
def rejected (n : UInt64) : Nat := 2 ^ 64 - (acceptLimit n).toNat

theorem rejected_eq (n : UInt64) : rejected n = (2 ^ 64 - 1) % n.toNat + 1 := by
  have hmod := Nat.mod_le (2 ^ 64 - 1) n.toNat
  rw [rejected, toNat_acceptLimit]
  omega

theorem ncard_rejected (n : UInt64) : Set.ncard {u : UInt64 | acceptLimit n ≤ u} = rejected n := by
  have hwords : {u : UInt64 | acceptLimit n ≤ u} = {u : UInt64 | (acceptLimit n).toNat ≤ u.toNat ∧ u.toNat < 2 ^ 64} := by
    ext u
    simp only [Set.mem_ofPred_eq, UInt64.le_iff_toNat_le, u.toNat_lt, and_true]
  rw [hwords, ncard_words_between le_rfl, rejected]

/-- at most half of the words are redrawn; exactly half only if the bound is half of their number -/
theorem rejected_le_half {n : UInt64} (hn : n ≠ 0) : rejected n ≤ 2 ^ 63 ∧ (rejected n = 2 ^ 63 ↔ n.toNat = 2 ^ 63) := by
  have hpos : 0 < n.toNat := Nat.pos_of_ne_zero fun h => hn (UInt64.toNat_inj.1 h)
  have hlt : n.toNat < 2 ^ 64 := n.toNat_lt
  rw [rejected_eq]
  rcases Nat.lt_trichotomy n.toNat (2 ^ 63) with hbelow | hmiddle | habove
  · -- the remainder is below the bound
    have hmod := Nat.mod_lt (2 ^ 64 - 1) hpos
    omega
  · rw [hmiddle]
    decide
  · -- the bound fits into the words once
    have hmod : (2 ^ 64 - 1) % n.toNat = 2 ^ 64 - 1 - n.toNat := by
      rw [Nat.mod_eq_sub_mod (by omega), Nat.mod_eq_of_lt (by omega)]
    omega

theorem rejected_eq_half_iff {n : UInt64} (hn : n ≠ 0) : rejected n = 2 ^ 63 ↔ n = 0x8000000000000000 := by
  rw [(rejected_le_half hn).2, ← UInt64.toNat_inj]
  rfl

theorem rejected_lt_half {n : UInt64} (hn : n ≠ 0) (hne : n.toNat ≠ 2 ^ 63) : rejected n < 2 ^ 63 :=
  Nat.lt_of_le_of_ne (rejected_le_half hn).1 fun h => hne ((rejected_le_half hn).2.1 h)

/-! ## Ranges -/

/-- how many words a range redraws: none on the full domain -/
def rangeRejected (min max : Int64) : Nat := if span min max = 0 then 0 else rejected (span min max)

theorem ncard_not_accepts (min max : Int64) : Set.ncard {u : UInt64 | ¬ Accepts min max u} = rangeRejected min max := by
  by_cases hs : span min max = 0
  · have hwords : {u : UInt64 | ¬ Accepts min max u} = ∅ := by
      ext u
      simp [Accepts, hs]
    rw [hwords, Set.ncard_empty, rangeRejected, if_pos hs]
  · have hwords : {u : UInt64 | ¬ Accepts min max u} = {u : UInt64 | acceptLimit (span min max) ≤ u} := by
      ext u
      simp only [Accepts, hs, false_or, UInt64.not_lt, Set.mem_ofPred_eq]
    rw [hwords, ncard_rejected, rangeRejected, if_neg hs]

/-- at most half of the words are redrawn; exactly half only if the range has half as many values as there are words -/
theorem rangeRejected_le_half {min max : Int64} (h : min ≤ max) :
    rangeRejected min max ≤ 2 ^ 63 ∧ (rangeRejected min max = 2 ^ 63 ↔ max.toInt - min.toInt + 1 = 2 ^ 63) := by
  by_cases hs : span min max = 0
  · have hwidth := toNat_span min max
    rw [hs, UInt64.toNat_zero] at hwidth
    rw [rangeRejected, if_pos hs]
    omega
  · have hwidth := toNat_span_of_ne_zero h hs
    have hhalf := rejected_le_half hs
    rw [rangeRejected, if_neg hs]
    omega

/-- 32-bit ranges have too few values to redraw half of the words -/
theorem rangeRejected_lt_half_of_32 {min max : Int32} (h : min ≤ max) : rangeRejected min.toInt64 max.toInt64 < 2 ^ 63 := by
  have hle := Int32.le_iff_toInt_le.1 h
  have hmin := min.le_toInt
  have hmax := max.toInt_lt
  have h64 : min.toInt64 ≤ max.toInt64 := by
    rw [Int64.le_iff_toInt_le, Int32.toInt_toInt64, Int32.toInt_toInt64]
    exact hle
  have hhalf := rangeRejected_le_half h64
  rw [Int32.toInt_toInt64, Int32.toInt_toInt64] at hhalf
  omega

/-! ## One try -/

theorem stuck_iff_rejected [Entropy σ] [Arith F] {n u : UInt64} (hn : n ≠ 0) {m : Machine F σ} {x : σ} {log : List LogLine}
    (h : Entropy.fill m.source 8 = ⟨.ok (Bytes.ofWord u), x, log⟩) :
    ((wordBelow 1 n).run m).1 = .stuck ↔ acceptLimit n ≤ u := by
  rw [wordBelow_of_ne_zero hn]
  constructor
  · intro hstuck
    by_contra hu
    obtain ⟨m', hrun, -⟩ := run_belowFrom_of_lt (UInt64.not_le.1 hu) h 0 0
    rw [hrun] at hstuck
    cases hstuck
  · intro hu
    obtain ⟨m', hrun, -⟩ := run_belowFrom_of_le hu h 0 0
    rw [hrun]
    rfl

/-- **Half of the words at most.** For every bound `n` that is not zero, the words redrawn are those from the limit on: they are
the words on which a draw with one try is stuck, `2 ^ 64 - acceptLimit n` in number. That is less than half of all words, but for
one bound: at `n = 2 ^ 63` it is half of them. A range of 64-bit integers redraws at most half of the words, and half only if it
has `2 ^ 63` values. So 32-bit ranges, positive and all 64-bit integers and signed bounds stay below half, and negative 64-bit
integers redraw half of the words. -/
theorem rejected_at_most_half [Entropy σ] [Arith F] :
    (∀ n : UInt64, n ≠ 0 →
      Set.ncard {u : UInt64 | acceptLimit n ≤ u} = 2 ^ 64 - (acceptLimit n).toNat ∧
      (∀ (m : Machine F σ) (u : UInt64) (x : σ) (log : List LogLine),
        Entropy.fill m.source 8 = ⟨.ok (Bytes.ofWord u), x, log⟩ →
        (((wordBelow 1 n).run m).1 = .stuck ↔ acceptLimit n ≤ u)) ∧
      2 ^ 64 - (acceptLimit n).toNat ≤ 2 ^ 63 ∧
      (2 ^ 64 - (acceptLimit n).toNat = 2 ^ 63 ↔ n = 0x8000000000000000)) ∧
    (∀ min max : Int64, min ≤ max →
      Set.ncard {u : UInt64 | ¬ Accepts min max u} ≤ 2 ^ 63 ∧
      (Set.ncard {u : UInt64 | ¬ Accepts min max u} = 2 ^ 63 ↔ max.toInt - min.toInt + 1 = 2 ^ 63)) ∧
    (∀ min max : Int32, min ≤ max → Set.ncard {u : UInt64 | ¬ Accepts min.toInt64 max.toInt64 u} < 2 ^ 63) ∧
    Set.ncard {u : UInt64 | ¬ Accepts 1 Int64.maxValue u} < 2 ^ 63 ∧
    Set.ncard {u : UInt64 | ¬ Accepts Int64.minValue Int64.maxValue u} = 0 ∧
    Set.ncard {u : UInt64 | ¬ Accepts Int64.minValue (-1) u} = 2 ^ 63 ∧
    ∀ n : Int64, 0 < n → 2 ^ 64 - (acceptLimit n.toUInt64).toNat < 2 ^ 63 := by
  refine ⟨fun n hn => ⟨ncard_rejected n, fun m u x log h => stuck_iff_rejected hn h, (rejected_le_half hn).1,
    rejected_eq_half_iff hn⟩, ?_, ?_, ?_, ?_, ?_, ?_⟩
  · intro min max h
    rw [ncard_not_accepts]
    exact rangeRejected_le_half h
  · intro min max h
    rw [ncard_not_accepts]
    exact rangeRejected_lt_half_of_32 h
  · rw [ncard_not_accepts]
    decide
  · rw [ncard_not_accepts]
    decide
  · rw [ncard_not_accepts]
    decide
  · intro n hn
    have hpos := Int64.lt_iff_toInt_lt.1 hn
    have hlt := n.toInt_lt
    have hword := toNat_toUInt64 n
    rw [Int64.toInt_zero] at hpos
    have hne : n.toUInt64.toNat ≠ 2 ^ 63 := by omega
    have hzero : n.toUInt64 ≠ 0 := fun h0 => by
      rw [h0, UInt64.toNat_zero] at hword
      omega
    exact rejected_lt_half hzero hne

/-- a bound below the middle and the bound in the middle, with the words of its last half redrawn -/
theorem rejected_at_most_half_middle :
    let n : UInt64 := 0x8000000000000000
    let m : Machine Float Replay := { source := Replay.ofWords [0x8000000000000000], keepsSpare := true }
    (10 : UInt64) ≠ 0 ∧ 2 ^ 64 - (acceptLimit 10).toNat ≤ 2 ^ 63 ∧ 2 ^ 64 - (acceptLimit n).toNat = 2 ^ 63 ∧
      ((wordBelow 1 n).run m).1 = .stuck := by
  intro n m
  obtain ⟨hbounds, -⟩ := rejected_at_most_half (F := Float) (σ := Replay)
  obtain ⟨-, -, hten, -⟩ := hbounds 10 (by decide)
  obtain ⟨-, hstuck, -, hmiddle⟩ := hbounds n (by decide)
  exact ⟨by decide, hten, hmiddle.2 rfl, (hstuck m 0x8000000000000000 _ [] rfl).2 (by decide)⟩

/-- fewer than half of the words, for every bound: this fails in the middle -/
theorem rejected_not_always_below_half : ¬ ∀ n : UInt64, n ≠ 0 → 2 ^ 64 - (acceptLimit n).toNat < 2 ^ 63 := by
  intro h
  exact absurd (h 0x8000000000000000 (by decide)) (by decide)

end Draw

end Sampling
