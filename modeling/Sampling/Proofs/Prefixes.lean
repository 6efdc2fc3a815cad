/-
Smaller samples are prefixes of larger ones.

A sample of more items draws below more bounds, of which the first are those of a sample of fewer (`run_sample_take`); later swaps
leave the items picked so far where they are. A weighted sample draws and ranks before it looks at how many items are wanted
(`run_weightedSample_take`).

`sample_take`: a call that succeeds tells how the call for fewer items ends from the same machine, and what it reads: a prefix of what
the larger sample reads, and for weighted samples the same.
-/
import Sampling.Proofs.EvenSample
import Sampling.Proofs.KeyOrder
import Sampling.Proofs.SpareDeviate

namespace Sampling

open Draw

variable {F σ α : Type}

/-! ## Bytes read -/

def Event.bytes : Event F → Bytes
  | served b => b
  | _ => []

/-- the bytes of granted fills so far, oldest first -/
def Machine.received (m : Machine F σ) : Bytes := m.trace.reverse.flatMap Event.bytes

section
variable [Entropy σ] [Arith F]

theorem Draw.received_run (p : Draw F α) (m : Machine F σ) : ∃ b, (p.run m).2.received = m.received ++ b := by
  obtain ⟨-, es, htrace, -⟩ := p.accounts_run m
  refine ⟨es.flatMap Event.bytes, ?_⟩
  rw [Machine.received, htrace, List.reverse_append, List.reverse_reverse, List.flatMap_append]
  rfl

/-! ## Samples -/

variable {items : List α} {k k' : ℕ} {tries : ℕ} {m m' : Machine F σ} {taken : List α}

/-- a sample that succeeds was not asked for too many items, and has drawn in turn -/
theorem oneByOne_of_run_sample (h : (sample tries items k).run m = (.value taken, m')) :
    k ≤ items.length ∧ ∃ draws ∈ vectors items.length k,
      OneByOne (indexBelow tries) m (bounds items.length k) draws m' ∧ taken = Sample.after items draws := by
  have hk : k ≤ items.length := by
    by_contra hmany
    rw [sample, require, if_neg (fun h => hmany (of_decide_eq_true h))] at h
    cases h
  refine ⟨hk, ?_⟩
  rw [sample_eq hk] at h
  rcases run_descending tries items.length k (Sample.after items) m with
    ⟨draws, hdraws, m₁, hturn, hrun⟩ | ⟨j, -, draws, -, m₁, -, hbreak⟩
  · rw [h] at hrun
    cases hrun
    exact ⟨draws, hdraws, hturn, rfl⟩
  · exact absurd (congrArg Prod.fst h) (hbreak.ne_value taken)

/-- **Fewer items are drawn first.** -/
theorem run_sample_take (h : (sample tries items k').run m = (.value taken, m')) (hk : k ≤ k') :
    ∃ m₁ b₁ b₂, (sample tries items k).run m = (.value (taken.take k), m₁) ∧
      m₁.received = m.received ++ b₁ ∧ m'.received = m.received ++ b₂ ∧ b₁ <+: b₂ := by
  obtain ⟨hk', draws, hdraws, hturn, rfl⟩ := oneByOne_of_run_sample h
  have hbounds : bounds items.length k' = bounds items.length k ++ (bounds items.length k').drop k := by
    rw [← take_bounds items.length hk, List.take_append_drop]
  rw [hbounds] at hturn
  obtain ⟨first, later, m₁, rfl, hfirst, hlater⟩ := hturn.split
  have hlength : first.length = k := hfirst.length_eq.trans (length_bounds items.length k)
  have htaken : (Sample.after items (first ++ later)).take k = Sample.after items first := by
    rw [Sample.after_eq hdraws, Sample.after_eq (OneByOne.mem_vectors hfirst), take_picks Sample.closes hdraws,
      List.take_left' hlength]
  have hrun : (sample tries items k).run m = (.value ((Sample.after items (first ++ later)).take k), m₁) := by
    rw [sample_eq (hk.trans hk'), descending, run_bind, hfirst.run_each, htaken]
    rfl
  obtain ⟨b, hreceived⟩ := (sample tries items k).received_run m
  obtain ⟨b', hreceived'⟩ := (each (indexBelow tries) ((bounds items.length k').drop k)).received_run m₁
  rw [hrun] at hreceived
  rw [hlater.run_each, hreceived, List.append_assoc] at hreceived'
  exact ⟨m₁, b, b ++ b', hrun, hreceived, hreceived', List.prefix_append b b'⟩

/-! ## Weighted samples -/

theorem paired_of_run {weights : List F} (h : (weightedSample tries items weights k).run m = (.value taken, m')) :
    items.length = weights.length := by
  by_contra hne
  rw [weightedSample, requirePaired, require, if_neg (fun heq => hne (beq_iff_eq.1 heq))] at h
  cases h

theorem samplable_of_run {weights : List F} (h : (weightedSample tries items weights k).run m = (.value taken, m')) (hk : 1 ≤ k) :
    Samplable items weights k := by
  have hpaired := paired_of_run h
  rw [weightedSample, requirePaired, require, if_pos (beq_iff_eq.2 hpaired), if_neg (Nat.ne_of_gt hk)] at h
  split at h
  · cases h
  · cases htotal : Weights.total? weights with
    | error f =>
      rw [htotal] at h
      cases h
    | ok sum =>
      rw [htotal] at h
      refine ⟨hpaired, ⟨sum, htotal⟩, ?_⟩
      by_contra hfew
      change (require (decide (k ≤ weights.countP fun w => decide (0.0 < w))) _ _).run m = _ at h
      rw [require, if_neg (fun hle => hfew (of_decide_eq_true hle))] at h
      cases h

theorem run_weightedSample_zero {weights : List F} (h : items.length = weights.length) (tries : ℕ) (m : Machine F σ) :
    (weightedSample tries items weights 0).run m = (.value [], m) := by
  rw [weightedSample, requirePaired, require, if_pos (beq_iff_eq.2 h)]
  rfl

/-- **The ranking is the same for any number of items.** -/
theorem run_weightedSample_take {weights : List F} (h : (weightedSample tries items weights k').run m = (.value taken, m'))
    (hk : k ≤ k') (hpos : 1 ≤ k) : (weightedSample tries items weights k).run m = (.value (taken.take k), m') := by
  have haccepted' := samplable_of_run h (hpos.trans hk)
  have haccepted : Samplable items weights k := ⟨haccepted'.paired, haccepted'.accepted, hk.trans haccepted'.enough⟩
  rw [weightedSample_eq haccepted' (hpos.trans hk), run_bind] at h
  rw [weightedSample_eq haccepted hpos, run_bind]
  rcases hkeys : (each (keyed tries) (withoutZeros items weights)).run m with ⟨keyed | e | _, m₁⟩ <;> rw [hkeys] at h <;> cases h
  rw [List.take_take, Nat.min_eq_left hk]
  rfl

/-- **Smaller samples are prefixes.** Let `k ≤ k'`.
- If a sample of `k'` items succeeds, so does a sample of `k` from the same machine; it ends with the first `k` of the items, and the
  bytes it reads are the first of those that the larger one reads.
- If a weighted sample of `k'` items succeeds, so does one of `k` from the same machine, and ends with the first `k` of the items. For
  `k ≥ 1` it leaves the same machine, with the same bytes read; for none it reads nothing. -/
theorem sample_take (items : List α) (weights : List F) {k k' : ℕ} (hk : k ≤ k') (tries : ℕ) (m : Machine F σ) :
    (∀ taken m', (sample tries items k').run m = (.value taken, m') →
      ∃ m₁ b₁ b₂, (sample tries items k).run m = (.value (taken.take k), m₁) ∧
        m₁.received = m.received ++ b₁ ∧ m'.received = m.received ++ b₂ ∧ b₁ <+: b₂) ∧
    ∀ taken m', (weightedSample tries items weights k').run m = (.value taken, m') →
      ∃ m₁, (weightedSample tries items weights k).run m = (.value (taken.take k), m₁) ∧
        (1 ≤ k → m₁ = m') ∧ (k = 0 → m₁ = m) := by
  refine ⟨fun taken m' h => run_sample_take h hk, fun taken m' h => ?_⟩
  rcases Nat.eq_zero_or_pos k with rfl | hpos
  · exact ⟨m, run_weightedSample_zero (paired_of_run h) tries m, fun hpos => absurd hpos (Nat.not_succ_le_zero 0), fun _ => rfl⟩
  · exact ⟨m', run_weightedSample_take h hk hpos, fun _ => rfl, fun hzero => absurd hzero hpos.ne'⟩

end

/-- one item of two: from the same words, read as draws below three and two, and as unit numbers of which the first is zero -/
theorem sample_take_one_of_two :
    letI : Arith Float := Binary64.withLn Binary64.lnOfQuarter
    let items := ["z", "a", "b"]
    let weights : List Float := [-0.0, 1.0, 1.0]
    let m : Machine Float Replay :=
      { source := Replay.ofWords [0, 0xc000000000000000, 0x4000000000000000], keepsSpare := true }
    1 ≤ 2 ∧
      (∃ m' m₁, (sample 3 items 2).run m = (.value ["z", "a"], m') ∧ (sample 3 items 1).run m = (.value ["z"], m₁) ∧
        m₁.received <+: m'.received) ∧
      ∃ m', (weightedSample 3 items weights 2).run m = (.value ["a", "b"], m') ∧
        (weightedSample 3 items weights 1).run m = (.value ["a"], m') := by
  let _ : Arith Float := Binary64.withLn Binary64.lnOfQuarter
  intro items weights m
  obtain ⟨hplain, hweighted⟩ :=
    @sample_take Float Replay String _ (Binary64.withLn Binary64.lnOfQuarter) items weights 1 2 (by decide) 3 m
  refine ⟨by decide, ?_, ?_⟩
  · have hrun : ((sample 3 items 2).run m).1 = .value ["z", "a"] := by decide +kernel
    have hstart : m.received = [] := rfl
    rcases hr : (sample 3 items 2).run m with ⟨r, m'⟩
    rw [hr] at hrun
    cases hrun
    obtain ⟨m₁, b₁, b₂, hone, hfew, hmany, hprefix⟩ := hplain ["z", "a"] m' hr
    rw [hstart, List.nil_append] at hfew hmany
    rw [← hfew, ← hmany] at hprefix
    exact ⟨m', m₁, rfl, hone, hprefix⟩
  · have hrequest : Samplable items weights 2 := by decide +kernel
    have hkeys : ((each (keyed 3) (withoutZeros items weights)).run m).1 =
        .value [(0.2876820724517809, "a"), (1.3862943611198906, "b")] := by decide +kernel
    have hsorted : byKey [((0.2876820724517809 : Float), "a"), (1.3862943611198906, "b")] = ["a", "b"] := by
      rw [byKey, List.mergeSort_of_pairwise]
      · rfl
      · decide +kernel
    have hrun : (weightedSample 3 items weights 2).run m =
        (.value ["a", "b"], ((each (keyed 3) (withoutZeros items weights)).run m).2) := by
      rw [weightedSample_eq hrequest (by decide), run_bind]
      rcases hr : (each (keyed 3) (withoutZeros items weights)).run m with ⟨r, m'⟩
      rw [hr] at hkeys
      cases hkeys
      dsimp only [run]
      rw [hsorted]
      rfl
    obtain ⟨m₁, hone, hsame, -⟩ := hweighted ["a", "b"] _ hrun
    rw [hsame (by decide)] at hone
    exact ⟨_, hrun, hone⟩

end Sampling
