/-
Bounded draws favour no residue.

A draw below `n` accepts the words below `acceptLimit n`, which is a multiple of `n`, so every residue is the remainder of equally
many of them (`ncard_residue`). The loop passes over words it does not accept, whatever they are and however many, and returns the
remainder of the first one it does (`run_belowFrom`, by induction on the words passed over).

`wordBelow_unbiased`: both together, with what the draw reads and logs.
-/
import Mathlib.Data.Int.CardIntervalMod
import Mathlib.Data.Set.Card
import Sampling.Arith.Binary64
import Sampling.Proofs.Ensures
import Sampling.Proofs.WordStream

namespace Sampling

variable {F σ : Type}

/-! ## The words that are accepted -/

theorem toNat_acceptLimit (n : UInt64) : (acceptLimit n).toNat = (2 ^ 64 - 1) - (2 ^ 64 - 1) % n.toNat := by
  have hle : (0xffffffffffffffff : UInt64) % n ≤ 0xffffffffffffffff := by
    rw [UInt64.le_iff_toNat_le, UInt64.toNat_mod]
    exact Nat.mod_le _ _
  unfold acceptLimit
  rw [UInt64.toNat_sub_of_le _ _ hle, UInt64.toNat_mod]
  rfl

/-- the words accepted fall into whole rounds of `n` -/
theorem dvd_acceptLimit (n : UInt64) : n.toNat ∣ (acceptLimit n).toNat := by
  rw [toNat_acceptLimit]
  exact Nat.dvd_sub_mod _

theorem acceptLimit_pos {n : UInt64} (hn : n ≠ 0) : 0 < (acceptLimit n).toNat := by
  have hpos : 0 < n.toNat := Nat.pos_of_ne_zero fun h => hn (UInt64.toNat_inj.1 h)
  have hlt : n.toNat < 2 ^ 64 := n.toNat_lt
  have hmod := Nat.mod_lt (2 ^ 64 - 1) hpos
  rw [toNat_acceptLimit]
  omega

theorem ncard_words_between {a b : Nat} (hb : b ≤ 2 ^ 64) : Set.ncard {u : UInt64 | a ≤ u.toNat ∧ u.toNat < b} = b - a := by
  have himage : UInt64.toNat '' {u : UInt64 | a ≤ u.toNat ∧ u.toNat < b} = Finset.Ico a b := by
    ext k
    simp only [Set.mem_image, Set.mem_ofPred_eq, Finset.coe_Ico, Set.mem_Ico]
    constructor
    · rintro ⟨u, hu, rfl⟩
      exact hu
    · intro hk
      have htoNat : (UInt64.ofNat k).toNat = k := UInt64.toNat_ofNat_of_lt' (hk.2.trans_le hb)
      exact ⟨UInt64.ofNat k, by rwa [htoNat], htoNat⟩
  calc Set.ncard {u : UInt64 | a ≤ u.toNat ∧ u.toNat < b}
      = Set.ncard (UInt64.toNat '' {u : UInt64 | a ≤ u.toNat ∧ u.toNat < b}) :=
        (Set.ncard_image_of_injective _ fun _ _ h => UInt64.toNat_inj.1 h).symm
    _ = b - a := by rw [himage, Set.ncard_coe_finset, Nat.card_Ico]

theorem image_toNat_residue {n r : UInt64} (hr : r < n) :
    UInt64.toNat '' {u : UInt64 | u < acceptLimit n ∧ u % n = r} =
      (Finset.range (acceptLimit n).toNat).filter (· ≡ r.toNat [MOD n.toNat]) := by
  have hrn : r.toNat % n.toNat = r.toNat := Nat.mod_eq_of_lt (UInt64.lt_iff_toNat_lt.1 hr)
  ext k
  simp only [Set.mem_image, Set.mem_ofPred_eq, Finset.coe_filter, Finset.mem_range, Nat.ModEq, hrn]
  constructor
  · rintro ⟨u, ⟨hu, rfl⟩, rfl⟩
    exact ⟨UInt64.lt_iff_toNat_lt.1 hu, (UInt64.toNat_mod u n).symm⟩
  · rintro ⟨hk, hkr⟩
    have hk64 : k < 2 ^ 64 := hk.trans (acceptLimit n).toNat_lt
    have htoNat : (UInt64.ofNat k).toNat = k := UInt64.toNat_ofNat_of_lt' hk64
    refine ⟨UInt64.ofNat k, ⟨?_, ?_⟩, htoNat⟩
    · rw [UInt64.lt_iff_toNat_lt, htoNat]
      exact hk
    · rw [← UInt64.toNat_inj, UInt64.toNat_mod, htoNat]
      exact hkr

/-- **No residue is favoured.** Every residue is the remainder of equally many accepted words. -/
theorem ncard_residue {n r : UInt64} (hr : r < n) :
    Set.ncard {u : UInt64 | u < acceptLimit n ∧ u % n = r} = (acceptLimit n).toNat / n.toNat := by
  have hn : 0 < n.toNat := Nat.lt_of_le_of_lt (Nat.zero_le _) (UInt64.lt_iff_toNat_lt.1 hr)
  -- whole rounds of `n`: none is cut short, so no residue has one word more
  have hround : (acceptLimit n).toNat % n.toNat = 0 := Nat.mod_eq_zero_of_dvd (dvd_acceptLimit n)
  calc Set.ncard {u : UInt64 | u < acceptLimit n ∧ u % n = r}
      = Set.ncard (UInt64.toNat '' {u : UInt64 | u < acceptLimit n ∧ u % n = r}) :=
        (Set.ncard_image_of_injective _ fun _ _ h => UInt64.toNat_inj.1 h).symm
    _ = (acceptLimit n).toNat.count (· ≡ r.toNat [MOD n.toNat]) := by
        rw [image_toNat_residue hr, Set.ncard_coe_finset, Nat.count_eq_card_filter_range]
    _ = (acceptLimit n).toNat / n.toNat := by
        rw [Nat.count_modEq_card _ hn, hround, if_neg (Nat.not_lt_zero _), Nat.add_zero]

/-! ## The loop -/

namespace Draw

theorem belowFrom_succ (n : UInt64) (tries : Nat) (redraws : UInt32) :
    (belowFrom n (tries + 1) redraws : Draw F UInt64) = word.bind fun u =>
      if u < acceptLimit n then settled n (u % n) redraws (done (u % n)) else belowFrom n tries (redraws + 1) := by
  rw [belowFrom, bind_eq]

theorem wordBelow_of_ne_zero {n : UInt64} (hn : n ≠ 0) (tries : Nat) :
    (wordBelow tries n : Draw F UInt64) = belowFrom n tries 0 := by
  have hcheck : (n != 0) = true := bne_iff_ne.2 hn
  rw [wordBelow, require, if_pos hcheck]

theorem ensures_belowFrom {n : UInt64} (hn : n ≠ 0) (tries : Nat) (redraws : UInt32) :
    (belowFrom n tries redraws : Draw F UInt64).Ensures False (fun _ => False) (· < n) := by
  induction tries generalizing redraws with
  | zero => exact .stuck
  | succ tries ih =>
    have hword : (word : Draw F UInt64).Ensures False (fun _ => False) fun _ => True := .fill fun _ _ => .done trivial
    rw [belowFrom_succ]
    refine hword.bind fun u _ => ?_
    split
    · exact .settled (.done (UInt64.mod_lt _ (UInt64.pos_iff_ne_zero.2 hn)))
    · exact ih (redraws + 1)

/-- redraws are counted modulo `2 ^ 32` -/
theorem redrawLines_ofNat (bound : UInt64) (k : Nat) :
    redrawLines bound (UInt32.ofNat k) = if k % 2 ^ 32 = 0 then [] else [.redrawn bound (UInt32.ofNat k)] := by
  have hzero : UInt32.ofNat k = 0 ↔ k % 2 ^ 32 = 0 := by
    rw [← UInt32.toNat_inj, UInt32.toNat_ofNat']
    rfl
  simp only [redrawLines, hzero]

variable [Entropy σ] [Arith F]

theorem run_belowFrom_of_lt {n w : UInt64} (hw : w < acceptLimit n) {m : Machine F σ} {x : σ} {log : List LogLine}
    (h : Entropy.fill m.source 8 = ⟨.ok (Bytes.ofWord w), x, log⟩) (tries : Nat) (redraws : UInt32) :
    ∃ m', (belowFrom n (tries + 1) redraws).run m = (.value (w % n), m') ∧ m'.source = x ∧
      m.Uses m' 8 (log ++ redrawLines n redraws) [(n, w % n)] := by
  obtain ⟨m₁, hrun, hsource, huses⟩ := run_word h fun u =>
    if u < acceptLimit n then settled n (u % n) redraws (done (u % n)) else belowFrom n tries (redraws + 1)
  refine ⟨m₁.record [.settled n (w % n) redraws], ?_, hsource, huses.trans (m₁.uses_settled n (w % n) redraws)⟩
  rw [belowFrom_succ, hrun, if_pos hw]
  rfl

theorem run_belowFrom_of_le {n u : UInt64} (hu : acceptLimit n ≤ u) {m : Machine F σ} {x : σ} {log : List LogLine}
    (h : Entropy.fill m.source 8 = ⟨.ok (Bytes.ofWord u), x, log⟩) (tries : Nat) (redraws : UInt32) :
    ∃ m', (belowFrom n (tries + 1) redraws).run m = (belowFrom n tries (redraws + 1)).run m' ∧ m'.source = x ∧
      m.Uses m' 8 log [] := by
  obtain ⟨m', hrun, hsource, huses⟩ := run_word h fun u =>
    if u < acceptLimit n then settled n (u % n) redraws (done (u % n)) else belowFrom n tries (redraws + 1)
  refine ⟨m', ?_, hsource, huses⟩
  rw [belowFrom_succ, hrun, if_neg (UInt64.not_lt.2 hu)]

/-- **The loop.** Words that are not accepted are passed over and counted; the first one that is settles the draw. -/
theorem run_belowFrom {n w : UInt64} {rejected : List UInt64} (hrejected : ∀ u ∈ rejected, acceptLimit n ≤ u)
    (hw : w < acceptLimit n) {m : Machine F σ} {lines : List LogLine} {y : σ} (h : Serves m.source (rejected ++ [w]) lines y)
    {tries : Nat} (htries : rejected.length < tries) (redraws : UInt32) :
    ∃ m', (belowFrom n tries redraws).run m = (.value (w % n), m') ∧ m'.source = y ∧
      m.Uses m' (8 * (rejected.length + 1)) (lines ++ redrawLines n (redraws + UInt32.ofNat rejected.length)) [(n, w % n)] := by
  induction rejected generalizing m lines tries redraws with
  | nil =>
    obtain ⟨tries, rfl⟩ := Nat.exists_eq_succ_of_ne_zero (Nat.ne_zero_of_lt htries)
    cases h with
    | cons first rest =>
      cases rest
      have hredraws : redraws + UInt32.ofNat ([] : List UInt64).length = redraws := UInt32.add_zero redraws
      rw [List.append_nil, hredraws]
      exact run_belowFrom_of_lt hw first tries redraws
  | cons u rejected ih =>
    obtain ⟨tries, rfl⟩ := Nat.exists_eq_succ_of_ne_zero (Nat.ne_zero_of_lt htries)
    cases h with
    | cons first rest =>
      have hrest : ∀ u' ∈ rejected, acceptLimit n ≤ u' := fun u' hu' => hrejected u' (List.mem_cons_of_mem u hu')
      obtain ⟨m₁, hround, rfl, huses⟩ := run_belowFrom_of_le (hrejected u List.mem_cons_self) first tries redraws
      obtain ⟨m', hrun, hsource, huses'⟩ := ih hrest rest (Nat.lt_of_succ_lt_succ htries) (redraws + 1)
      have hbytes : 8 + 8 * (rejected.length + 1) = 8 * ((u :: rejected).length + 1) := by
        rw [List.length_cons]
        omega
      have hredraws : redraws + 1 + UInt32.ofNat rejected.length = redraws + UInt32.ofNat (u :: rejected).length := by
        rw [List.length_cons, UInt32.ofNat_add, UInt32.add_assoc, UInt32.add_comm 1]
        rfl
      have hall := huses.trans huses'
      rw [hbytes, hredraws, ← List.append_assoc] at hall
      exact ⟨m', hround.trans hrun, hsource, hall⟩

/-- **Bounded draws are unbiased.** Let `n` be any bound that is not zero.
- The limit below which words are accepted is the largest word less its remainder modulo `n`. It is a positive multiple of `n`, and
  every residue is the remainder of equally many accepted words.
- On a source that serves any words that are not accepted and then one that is, the draw ends with the remainder of that last word,
  whatever the words before it were. It has read these words and no more, has logged how many it passed over if there were any
  (counted in 32 bits), and leaves the spare alone. The tries only have to outnumber the words passed over.
- Whatever the source does, a value drawn is below `n`. -/
theorem wordBelow_unbiased {n : UInt64} (hn : n ≠ 0) :
    ((acceptLimit n).toNat = (2 ^ 64 - 1) - (2 ^ 64 - 1) % n.toNat ∧ 0 < (acceptLimit n).toNat ∧
      n.toNat ∣ (acceptLimit n).toNat ∧
      ∀ r < n, Set.ncard {u : UInt64 | u < acceptLimit n ∧ u % n = r} = (acceptLimit n).toNat / n.toNat) ∧
    (∀ (m : Machine F σ) (rejected : List UInt64) (w : UInt64) (lines : List LogLine) (y : σ) (tries : Nat),
      (∀ u ∈ rejected, acceptLimit n ≤ u) → w < acceptLimit n → Serves m.source (rejected ++ [w]) lines y →
      rejected.length < tries →
      ∃ m', (wordBelow tries n).run m = (.value (w % n), m') ∧ m'.source = y ∧
        m'.consumed = m.consumed + 8 * (rejected.length + 1) ∧
        m'.log = m.log ++
          (lines ++ if rejected.length % 2 ^ 32 = 0 then [] else [.redrawn n (UInt32.ofNat rejected.length)]) ∧
        m'.spare = m.spare) ∧
    ∀ (m : Machine F σ) (tries : Nat) (v : UInt64), ((wordBelow tries n).run m).1 = .value v → v < n := by
  refine ⟨⟨toNat_acceptLimit n, acceptLimit_pos hn, dvd_acceptLimit n, fun r hr => ncard_residue hr⟩, ?_, ?_⟩
  · intro m rejected w lines y tries hrejected hw hserves htries
    obtain ⟨m', hrun, hsource, huses⟩ := run_belowFrom hrejected hw hserves htries 0
    rw [UInt32.zero_add, redrawLines_ofNat] at huses
    rw [wordBelow_of_ne_zero hn]
    exact ⟨m', hrun, hsource, huses.consumed, huses.log, huses.spare⟩
  · intro m tries v hv
    have hsatisfies := run_ensures (ensures_belowFrom hn tries 0) m
    rw [wordBelow_of_ne_zero hn] at hv
    rw [hv] at hsatisfies
    exact hsatisfies

/-- a bound just above the middle, two words above it and one below -/
theorem wordBelow_unbiased_two_redraws :
    let n : UInt64 := 0x8000000000000001
    let m : Machine Float Replay := { source := Replay.ofWords [0xffffffffffffffff, 0x8000000000000005, 12], keepsSpare := true }
    n ≠ 0 ∧ ∃ m', (wordBelow 3 n).run m = (.value 12, m') ∧ m'.consumed = 24 ∧ m'.log = [.redrawn n 2] := by
  intro n m
  have hn : n ≠ 0 := by decide
  have hrejected : ∀ u ∈ [0xffffffffffffffff, 0x8000000000000005], acceptLimit n ≤ u := by
    intro u hu
    rcases List.mem_pair.1 hu with rfl | rfl
    · decide
    · decide
  have hw : 12 < acceptLimit n := by decide
  obtain ⟨-, hdraws, -⟩ := wordBelow_unbiased (F := Float) (σ := Replay) hn
  obtain ⟨m', hrun, -, hconsumed, hlog, -⟩ := hdraws m _ 12 [] _ 3 hrejected hw (Replay.serves_ofWords _) (by decide)
  exact ⟨hn, m', hrun, hconsumed, hlog⟩

end Draw

end Sampling
