/-
When a bounded draw over a replay ends.

A bounded draw over an endless stream of words ends with the first word it accepts, if there is one (`endsAfter_of_isLeast`,
`neverEnds_iff`). The words of a replay are constant from the end of the script on, so a draw that has not ended with the first of
those words does not end at all: only the words that start inside the script and one more can decide (`le_of_isLeast`).

Behind the end of the script all words are eight copies of the last byte, and what is left to decide is a comparison with the least
of all limits. No limit is below the middle of the words, and `2 ^ 63` has its limit there, so the copies are accepted by every bound
exactly if the byte is below `0x80` (`endsAfter_of_small`, `neverEnds_of_large`).

`wordBelow_over_replay`: both together.
-/
import Sampling.Proofs.RejectionRate
import Sampling.Proofs.ReplayedBytes

namespace Sampling

variable {F σ : Type}

/-! ## Limits -/

theorem half_le_acceptLimit {n : UInt64} (hn : n ≠ 0) : 2 ^ 63 ≤ (acceptLimit n).toNat := by
  have hhalf := (Draw.rejected_le_half hn).1
  unfold Draw.rejected at hhalf
  omega

theorem acceptLimit_half : (acceptLimit 0x8000000000000000).toNat = 2 ^ 63 := by
  rw [toNat_acceptLimit]
  decide

namespace Replay

theorem toNat_echo (b : UInt8) : (echo b).toNat = b.toNat * 0x0101010101010101 := by
  have hb := b.toNat_lt
  have hvalue : Bytes.value (List.replicate 8 b) = b.toNat * 0x0101010101010101 := by
    simp only [List.replicate, Bytes.value_cons, Bytes.value_nil]
    omega
  rw [echo, Bytes.word, hvalue, UInt64.toNat_ofNat_of_lt']
  show b.toNat * 0x0101010101010101 < 2 ^ 64
  omega

/-- eight copies of a byte are below the middle of the words exactly if the byte is below the middle of the bytes -/
theorem echo_lt_iff (b : UInt8) : (echo b).toNat < 2 ^ 63 ↔ b < 0x80 := by
  have hb := b.toNat_lt
  rw [toNat_echo, UInt8.lt_iff_toNat_lt]
  show b.toNat * 0x0101010101010101 < 2 ^ 63 ↔ b.toNat < 128
  omega

end Replay

namespace Draw

variable [Arith F] {n : UInt64}

/-! ## Running out of tries -/

theorem run_belowFrom_stuck [Entropy σ] {ws : List UInt64} (hrejected : ∀ u ∈ ws, acceptLimit n ≤ u) {m : Machine F σ}
    {lines : List LogLine} {y : σ} (h : Serves m.source ws lines y) (redraws : UInt32) :
    ∃ m', (belowFrom n ws.length redraws).run m = (.stuck, m') ∧ m'.consumed = m.consumed + 8 * ws.length := by
  induction ws generalizing m lines redraws with
  | nil => exact ⟨m, rfl, rfl⟩
  | cons u ws ih =>
    cases h with
    | cons first rest =>
      have hrest : ∀ u' ∈ ws, acceptLimit n ≤ u' := fun u' hu' => hrejected u' (List.mem_cons_of_mem u hu')
      obtain ⟨m₁, hround, rfl, huses⟩ := run_belowFrom_of_le (hrejected u List.mem_cons_self) first ws.length redraws
      obtain ⟨m', hrun, hconsumed⟩ := ih hrest rest (redraws + 1)
      refine ⟨m', hround.trans hrun, ?_⟩
      rw [hconsumed, huses.consumed, List.length_cons]
      omega

/-! ## The first word that is accepted -/

theorem isLeast_or_rejected (ws : Nat → UInt64) (n : UInt64) :
    (∃ j, IsLeast {j | ws j < acceptLimit n} j) ∨ ∀ j, acceptLimit n ≤ ws j := by
  by_cases haccepted : ∃ j, ws j < acceptLimit n
  · classical
    exact Or.inl ⟨_, Nat.isLeast_find haccepted⟩
  · right
    intro j
    rw [← UInt64.not_lt]
    exact not_exists.1 haccepted j

section
variable [Entropy σ] {m : Machine F σ} {ws : Nat → UInt64}

/-- as long as no word is accepted, every try reads one -/
theorem run_wordBelow_stuck (hn : n ≠ 0) (hws : ServesAll m.source ws) {tries : Nat}
    (hrejected : ∀ j < tries, acceptLimit n ≤ ws j) :
    ∃ m', (wordBelow tries n).run m = (.stuck, m') ∧ m'.consumed = m.consumed + 8 * tries := by
  have hwords : ∀ u ∈ (List.range tries).map ws, acceptLimit n ≤ u := by
    intro u hu
    obtain ⟨j, hj, rfl⟩ := List.mem_map.1 hu
    exact hrejected j (List.mem_range.1 hj)
  obtain ⟨lines, y, hserves⟩ := hws tries
  have hstuck := run_belowFrom_stuck hwords hserves 0
  rw [List.length_map, List.length_range] at hstuck
  rw [wordBelow_of_ne_zero hn]
  exact hstuck

/-- **A draw ends with the first word it accepts.** -/
theorem endsAfter_of_isLeast (hn : n ≠ 0) (hws : ServesAll m.source ws) {j : Nat} (hj : IsLeast {j | ws j < acceptLimit n} j) :
    EndsAfter (fun tries => wordBelow tries n) m (j + 1) (ws j % n) := by
  have hbefore : ∀ i < j, acceptLimit n ≤ ws i := by
    intro i hi
    rw [← UInt64.not_lt]
    intro haccepted
    have hle : j ≤ i := mem_lowerBounds.1 hj.2 i haccepted
    omega
  constructor
  · intro tries htries
    have hrejected : ∀ u ∈ (List.range j).map ws, acceptLimit n ≤ u := by
      intro u hu
      obtain ⟨i, hi, rfl⟩ := List.mem_map.1 hu
      exact hbefore i (List.mem_range.1 hi)
    have hlength : ((List.range j).map ws).length < tries := by
      rw [List.length_map, List.length_range]
      exact htries
    obtain ⟨lines, y, hserves⟩ := hws (j + 1)
    rw [List.range_succ, List.map_append, List.map_singleton] at hserves
    obtain ⟨m', hrun, -, huses⟩ := run_belowFrom hrejected hj.1 hserves hlength 0
    refine ⟨m', ?_, ?_⟩
    · rw [wordBelow_of_ne_zero hn, hrun]
    · rw [huses.consumed, List.length_map, List.length_range]
  · intro tries htries
    exact run_wordBelow_stuck hn hws fun i hi => hbefore i (by omega)

theorem neverEnds_iff (hn : n ≠ 0) (hws : ServesAll m.source ws) :
    NeverEnds (fun tries => wordBelow tries n) m ↔ ∀ j, acceptLimit n ≤ ws j := by
  constructor
  · intro hnever
    rcases isLeast_or_rejected ws n with ⟨j, hleast⟩ | hrejected
    · exact absurd (endsAfter_of_isLeast hn hws hleast) (hnever.not_endsAfter _ _)
    · exact hrejected
  · intro hrejected tries
    exact run_wordBelow_stuck hn hws fun j _ => hrejected j

end

/-! ## Replays -/

/-- the words that start inside the script and one more decide -/
theorem le_of_isLeast {r : Replay} {j : Nat} (hj : IsLeast {j | r.wordAt j < acceptLimit n} j) : j ≤ (r.unread + 7) / 8 := by
  by_contra hlt
  -- both words are echoes of the last byte, and the earlier one would have been accepted
  have hlate : r.wordAt j = r.wordAt ((r.unread + 7) / 8) := by
    rw [Replay.wordAt_of_le (by omega), Replay.wordAt_of_le (by omega)]
  have haccepted : r.wordAt j < acceptLimit n := hj.1
  rw [hlate] at haccepted
  exact hlt (mem_lowerBounds.1 hj.2 _ haccepted)

section
variable {m : Machine F Replay} (hdone : m.source.unread = 0)
include hdone

/-- behind the script, copies of a small byte are accepted at once, whatever the bound -/
theorem endsAfter_of_small (hsmall : Replay.last m.source.script < 0x80) (hn : n ≠ 0) :
    EndsAfter (fun tries => wordBelow tries n) m 1 (m.source.wordAt 0 % n) := by
  apply endsAfter_of_isLeast hn m.source.servesAll_wordAt
  refine ⟨?_, fun j _ => Nat.zero_le j⟩
  show m.source.wordAt 0 < acceptLimit n
  rw [Replay.wordAt_of_le (by omega), UInt64.lt_iff_toNat_lt]
  exact ((Replay.echo_lt_iff _).2 hsmall).trans_le (half_le_acceptLimit hn)

/-- and copies of another byte are rejected for ever if the bound is the middle of the words -/
theorem neverEnds_of_large (hlarge : ¬ Replay.last m.source.script < 0x80) :
    NeverEnds (fun tries => wordBelow tries 0x8000000000000000) m := by
  rw [neverEnds_iff (by decide) m.source.servesAll_wordAt]
  intro j
  rw [Replay.wordAt_of_le (by omega), UInt64.le_iff_toNat_le, acceptLimit_half, ← Nat.not_lt, Replay.echo_lt_iff]
  exact hlarge

end

/-- **A bounded draw over a replay ends soon or never, and behind the script for every bound only if the last byte is small.**
- For every bound, a draw ends when it has read at most as many words as it takes to use up the script, and one more; or it never
  ends, on any number of words.
- When the script is used up, a draw ends for every bound exactly if the script is empty or its last byte is below `0x80`. -/
theorem wordBelow_over_replay (m : Machine F Replay) :
    (∀ n : UInt64, n ≠ 0 →
      (∃ words v, words ≤ (m.source.unread + 7) / 8 + 1 ∧ EndsAfter (fun tries => wordBelow tries n) m words v) ∨
        NeverEnds (fun tries => wordBelow tries n) m) ∧
    (m.source.unread = 0 →
      ((∀ n : UInt64, n ≠ 0 → ∃ words v, EndsAfter (fun tries => wordBelow tries n) m words v) ↔
        m.source.script = #[] ∨ Replay.last m.source.script < 0x80)) := by
  have hwords := m.source.servesAll_wordAt
  refine ⟨?_, ?_⟩
  · intro n hn
    rcases isLeast_or_rejected m.source.wordAt n with ⟨j, hleast⟩ | hrejected
    · left
      exact ⟨j + 1, _, Nat.succ_le_succ (le_of_isLeast hleast), endsAfter_of_isLeast hn hwords hleast⟩
    · right
      exact (neverEnds_iff hn hwords).2 hrejected
  · intro hdone
    constructor
    · intro hends
      right
      by_contra hlarge
      obtain ⟨words, v, hmiddle⟩ := hends 0x8000000000000000 (by decide)
      exact (neverEnds_of_large hdone hlarge).not_endsAfter words v hmiddle
    · intro hscript n hn
      have hsmall : Replay.last m.source.script < 0x80 := by
        rcases hscript with hempty | hsmall
        · rw [hempty]
          decide
        · exact hsmall
      exact ⟨_, _, endsAfter_of_small hdone hsmall hn⟩

/-- a word that is redrawn and one that straddles the end of the script; behind the script, the least byte that can be rejected for
ever, and the greatest that cannot -/
theorem wordBelow_over_replay_straddling :
    let replaying (script : Array UInt8) (consumed : Nat) : Machine Float Replay :=
      { source := { script, consumed }, keepsSpare := true }
    let m := replaying #[0xff, 0xff, 0xff, 0xff, 0xff, 0xff, 0xff, 0xff, 0x7f] 0
    ((0x8000000000000001 : UInt64) ≠ 0 ∧
      ∃ words v, words ≤ 3 ∧ EndsAfter (fun tries => wordBelow tries 0x8000000000000001) m words v) ∧
    ((replaying #[0x80] 1).source.unread = 0 ∧ (replaying #[0x7f] 1).source.unread = 0) ∧
    (¬ ∀ n : UInt64, n ≠ 0 → ∃ words v, EndsAfter (fun tries => wordBelow tries n) (replaying #[0x80] 1) words v) ∧
    ∀ n : UInt64, n ≠ 0 → ∃ words v, EndsAfter (fun tries => wordBelow tries n) (replaying #[0x7f] 1) words v := by
  intro replaying m
  have hends := (wordBelow_over_replay m).1 0x8000000000000001 (by decide)
  have hhigh := (wordBelow_over_replay (replaying #[0x80] 1)).2 rfl
  have hlow := (wordBelow_over_replay (replaying #[0x7f] 1)).2 rfl
  have hwords : (m.source.unread + 7) / 8 + 1 = 3 := by decide
  rw [hwords] at hends
  refine ⟨⟨by decide, ?_⟩, ⟨rfl, rfl⟩, ?_, ?_⟩
  · apply hends.resolve_right
    rw [neverEnds_iff (by decide) m.source.servesAll_wordAt]
    intro hrejected
    exact absurd (hrejected 1) (by decide)
  · intro hall
    rcases hhigh.1 hall with hempty | hsmall
    · exact absurd hempty (by decide)
    · exact absurd hsmall (by decide)
  · exact hlow.2 (Or.inr (by decide))

end Draw

end Sampling
