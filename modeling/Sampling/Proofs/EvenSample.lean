/-
Samples are even.

A sample of `k` of `n` items draws below `n`, `n - 1`, …, `n - k + 1` and takes what it picks, so the arrangements of `k` positions
correspond one to one to the vectors of draws.

`sample_even`: all of it together, for every list and every `k` that is not more than its length.
-/
import Sampling.Proofs.Swaps
import Sampling.Source.Replay

namespace Sampling

open Draw

variable {F σ α : Type}

/-- a sample that asks for enough items but not too many is its draws, then its picks -/
theorem sample_eq {items : List α} {k : ℕ} (hk : k ≤ items.length) (tries : ℕ) :
    (sample tries items k : Draw F (List α)) =
      (descending tries items.length k).bind fun draws => done (Sample.after items draws) := by
  rw [sample, require, if_pos (decide_eq_true hk), bind_eq]

/-- **Arrangements and draws correspond.** -/
theorem Sample.bijOn_after {xs : List α} (hxs : xs.Nodup) (k : ℕ) :
    Set.BijOn (Sample.after xs) (vectors xs.length k) (arrangements xs k) :=
  (bijOn_picks Sample.closes hxs k).congr fun _ h => (Sample.after_eq h).symm

theorem Sample.after_eq_map (items : List α) (draws : List ℕ) :
    Sample.after items draws = (Sample.after (List.finRange items.length) draws).map items.get := by
  rw [← Sample.after_map, List.map_get_finRange]

section
variable [Entropy σ] [Arith F]

/-- **Samples are even.** Let `items` be any list, of `n` items, and `k` at most `n`.
- On every machine, a sample of `k` asks for exactly `k` draws, below `n`, `n - 1`, …, `n - k + 1`, in this order, and its value is
  made of the numbers drawn; if one of them breaks off, it asks for no more.
- From words that settle these draws it ends with what the numbers take, has read these words and no more, and leaves the spare
  alone; and every vector of numbers below the bounds is settled by some words.
- What it takes are the items at `k` different positions, which the draws alone decide, whatever the items are.
- Vectors of draws and arrangements of `k` positions correspond one to one, and there are `n! / (n - k)!` of both. -/
theorem sample_even (items : List α) {k : ℕ} (hk : k ≤ items.length) :
    (∀ (m : Machine F σ) (tries : ℕ), AsksInTurn tries items.length k m (Sample.after items) ((sample tries items k).run m)) ∧
    ((∀ (m : Machine F σ) (tries : ℕ) (ws : List UInt64) (draws : List ℕ) (lines : List LogLine) (y : σ),
        Spelled (bounds items.length k) ws draws → Serves m.source ws lines y → ws.length ≤ tries →
        ∃ m', (sample tries items k).run m = (.value (Sample.after items draws), m') ∧ m'.source = y ∧
          m'.consumed = m.consumed + 8 * ws.length ∧ m'.spare = m.spare) ∧
      (items.length < UInt64.size → ∀ draws ∈ vectors items.length k,
        Spelled (bounds items.length k) (draws.map UInt64.ofNat) draws)) ∧
    (∀ draws ∈ vectors items.length k, ∃ positions : List (Fin items.length),
      positions = Sample.after (List.finRange items.length) draws ∧ positions.length = k ∧ positions.Nodup ∧
        Sample.after items draws = positions.map items.get) ∧
    Set.BijOn (Sample.after (List.finRange items.length)) (vectors items.length k)
        {p : List (Fin items.length) | p.length = k ∧ p.Nodup} ∧
      {p : List (Fin items.length) | p.length = k ∧ p.Nodup}.ncard = items.length.factorial / (items.length - k).factorial ∧
      (vectors items.length k).ncard = items.length.factorial / (items.length - k).factorial := by
  have hpositions := Sample.bijOn_after (List.nodup_finRange items.length) k
  have harrangements : arrangements (List.finRange items.length) k = {p | p.length = k ∧ p.Nodup} := by
    ext p
    exact ⟨fun h => ⟨h.1, h.2.1⟩, fun h => ⟨h.1, h.2, fun x _ => List.mem_finRange x⟩⟩
  have hcount := ncard_arrangements items.length k
  rw [Nat.descFactorial_eq_div hk] at hcount
  rw [List.length_finRange] at hpositions
  refine ⟨?_, ⟨?_, ?_⟩, ?_, ?_, ?_, ?_⟩
  · intro m tries
    rw [sample_eq hk]
    exact run_descending tries items.length k (Sample.after items) m
  · intro m tries ws draws lines y hspelled hserves htries
    rw [sample_eq hk]
    exact run_descending_of_spelled hspelled hserves htries (Sample.after items)
  · intro hsize draws hdraws
    exact spelled_of_mem_vectors hdraws hsize
  · intro draws hdraws
    obtain ⟨hlength, hnodup, -⟩ := hpositions.mapsTo hdraws
    exact ⟨_, rfl, hlength, hnodup, Sample.after_eq_map items draws⟩
  · exact harrangements ▸ hpositions
  · exact harrangements ▸ hcount
  · exact hpositions.ncard_eq.trans hcount

/-- two of four items: the item swapped away by the first draw stands where the second one looks -/
theorem sample_even_two_of_four :
    let items := ["a", "b", "c", "d"]
    let m : Machine Float Replay := { source := Replay.ofWords [2, 1], keepsSpare := true }
    2 ≤ items.length ∧ (∃ m', (sample 2 items 2).run m = (.value ["c", "a"], m') ∧ m'.consumed = 16) ∧
      (vectors 4 2).ncard = 12 := by
  intro items m
  have hk : 2 ≤ items.length := by decide
  obtain ⟨-, ⟨hwords, hevery⟩, -, -, -, hcount⟩ := sample_even (F := Float) (σ := Replay) items hk
  have hdraws : [2, 1] ∈ vectors 4 2 := .cons (by decide) (.cons (by decide) .nil)
  obtain ⟨m', hrun, -, hconsumed, -⟩ := hwords m 2 _ _ _ _ (hevery (by decide) _ hdraws) (Replay.serves_ofWords _) (by decide)
  exact ⟨hk, ⟨m', hrun, hconsumed⟩, hcount.trans (by decide)⟩

end

end Sampling
