/-
Schedules of swaps as picks without replacement.

A sample swaps the item it picks to the front of what is left, a shuffle to the end of it; the item that stood there closes the gap.
So what the swaps leave behind is what was picked and what is left (`Sample.after_eq`, `Shuffle.after_eq`), and as swaps go by
positions alone, it does not depend on what the items are (`applySwaps_map`). `AsksInTurn` says how a run goes that draws below `n`,
`n - 1`, … and makes its value of the numbers drawn; shuffles and samples are such runs.
-/
import Mathlib.Data.List.Perm.Basic
import Sampling.Proofs.Arrangements
import Sampling.Proofs.OneByOne

namespace Sampling

open Draw

variable {F σ α β : Type}

/-! ## Swaps -/

theorem toList_swapIfInBounds (items : Array α) (i j : ℕ) :
    (items.swapIfInBounds i j).toList = items.toList.swap i j := by
  unfold Array.swapIfInBounds
  split
  · rename_i hi
    split
    · rename_i hj
      rw [Array.swap_def, Array.toList_set, Array.toList_set, List.swap_eq_of_lt hi hj, Array.getElem_toList, Array.getElem_toList]
    · rename_i hj
      exact (List.swap_eq_of_ge_right (Nat.not_lt.1 hj)).symm
  · rename_i hi
    exact (List.swap_eq_of_ge_left (Nat.not_lt.1 hi)).symm

theorem toList_applySwaps (items : Array α) (swaps : List (ℕ × ℕ)) :
    (applySwaps items swaps).toList = swaps.foldl (fun xs ij => xs.swap ij.1 ij.2) items.toList := by
  unfold applySwaps
  induction swaps generalizing items with
  | nil => rfl
  | cons ij swaps ih => rw [List.foldl_cons, List.foldl_cons, ih, toList_swapIfInBounds]

theorem applySwaps_perm (items : Array α) (swaps : List (ℕ × ℕ)) : (applySwaps items swaps).toList.Perm items.toList := by
  rw [toList_applySwaps]
  induction swaps generalizing items with
  | nil => exact .refl _
  | cons ij swaps ih =>
    have hperm := ih (items.swapIfInBounds ij.1 ij.2)
    rw [toList_swapIfInBounds] at hperm
    exact hperm.trans (List.swap_perm _ _ _)

theorem map_swap (f : α → β) (xs : List α) (i j : ℕ) : (xs.swap i j).map f = (xs.map f).swap i j := by
  by_cases h : i < xs.length ∧ j < xs.length
  · rw [List.swap_eq_of_lt h.1 h.2, List.swap_eq_of_lt (by rw [List.length_map]; exact h.1) (by rw [List.length_map]; exact h.2)]
    rw [List.map_set, List.map_set, List.getElem_map, List.getElem_map]
  · have h' : ¬ (i < (xs.map f).length ∧ j < (xs.map f).length) := by rwa [List.length_map]
    rw [List.swap_eq, List.swap_eq, dif_neg h, dif_neg h']

/-- **Swaps go by positions.** They treat items that were replaced one by one as they treat the items themselves. -/
theorem applySwaps_map (f : α → β) (xs : List α) (swaps : List (ℕ × ℕ)) :
    (applySwaps (xs.map f).toArray swaps).toList = (applySwaps xs.toArray swaps).toList.map f := by
  rw [toList_applySwaps, toList_applySwaps]
  induction swaps generalizing xs with
  | nil => rfl
  | cons ij swaps ih =>
    have hrest := ih (xs.swap ij.1 ij.2)
    rw [map_swap] at hrest
    exact hrest

theorem swap_append_right (front xs : List α) (i j : ℕ) :
    (front ++ xs).swap (front.length + i) (front.length + j) = front ++ xs.swap i j := by
  induction front with
  | nil => rw [List.length_nil, Nat.zero_add, Nat.zero_add, List.nil_append, List.nil_append]
  | cons x front ih =>
    rw [List.length_cons, Nat.add_right_comm _ 1 i, Nat.add_right_comm _ 1 j, List.cons_append, List.swap_cons, ih]
    rfl

theorem swap_append_left {xs : List α} (back : List α) {i j : ℕ} (hi : i < xs.length) (hj : j < xs.length) :
    (xs ++ back).swap i j = xs.swap i j ++ back := by
  have hi' : i < (xs ++ back).length := by rw [List.length_append]; omega
  have hj' : j < (xs ++ back).length := by rw [List.length_append]; omega
  rw [List.swap_eq_of_lt hi' hj', List.swap_eq_of_lt hi hj, List.getElem_append_left hi, List.getElem_append_left hj,
    List.set_append_left _ _ hi, List.set_append_left _ _ (by rw [List.length_set]; exact hj)]

/-! ## A sample's swaps -/

/-- a sample closes a gap with the first item -/
def Sample.close (xs : List α) (r : ℕ) : List α := (xs.swap 0 r).tail

theorem Sample.swap_eq {xs : List α} {r : ℕ} (h : r < xs.length) : xs.swap 0 r = xs[r] :: Sample.close xs r := by
  cases xs with
  | nil => cases h
  | cons x xs =>
    cases r with
    | zero => rfl
    | succ r =>
      rw [Sample.close, List.swap_cons_zero_left, List.getElem?_eq_getElem (Nat.lt_of_succ_lt_succ h)]
      rfl

theorem Sample.closes : Closes (Sample.close (α := α)) := by
  intro xs r h
  rw [← Sample.swap_eq h]
  exact List.swap_perm xs 0 r

/-- the swaps of a sample move the picks to the front, behind what was there -/
theorem Sample.foldl_swaps (front : List α) {xs : List α} {k : ℕ} {draws : List ℕ} (h : draws ∈ vectors xs.length k) :
    (Sample.swaps front.length draws).foldl (fun xs ij => xs.swap ij.1 ij.2) (front ++ xs) =
      front ++ (picks Sample.close xs draws ++ leftover Sample.close xs draws) := by
  induction k generalizing front xs draws with
  | zero =>
    cases mem_vectors_zero.1 h
    rfl
  | succ k ih =>
    obtain ⟨r, rest, hr, hrest, rfl⟩ := mem_vectors_succ.1 h
    rw [← length_close Sample.closes hr] at hrest
    have hfront : front ++ xs.swap 0 r = (front ++ [xs[r]]) ++ Sample.close xs r := by
      rw [Sample.swap_eq hr, List.append_assoc]
      rfl
    have hnext := ih (front ++ [xs[r]]) hrest
    have hswap := swap_append_right front xs 0 r
    rw [List.length_append, List.length_singleton, ← hfront, ← hswap, Nat.add_zero] at hnext
    rw [Sample.swaps, List.foldl_cons, hnext, picks_cons hr, leftover, List.append_assoc]
    rfl

/-- **A sample picks without replacement.** -/
theorem Sample.after_eq {items : List α} {k : ℕ} {draws : List ℕ} (h : draws ∈ vectors items.length k) :
    Sample.after items draws = picks Sample.close items draws := by
  have hswaps := Sample.foldl_swaps [] h
  rw [List.nil_append, List.nil_append, List.length_nil] at hswaps
  rw [Sample.after, toList_applySwaps, hswaps, length_of_mem_vectors h]
  exact List.take_left' (length_picks Sample.closes h)

theorem Sample.after_map (f : α → β) (xs : List α) (draws : List ℕ) :
    Sample.after (xs.map f) draws = (Sample.after xs draws).map f := by
  rw [Sample.after, Sample.after, applySwaps_map, List.map_take]

/-! ## A shuffle's swaps -/

/-- a shuffle closes a gap with the last item -/
def Shuffle.close (xs : List α) (j : ℕ) : List α := (xs.swap (xs.length - 1) j).dropLast

theorem Shuffle.swap_eq {xs : List α} {j : ℕ} (h : j < xs.length) :
    xs.swap (xs.length - 1) j = Shuffle.close xs j ++ [xs[j]] := by
  have hlast : xs.length - 1 < (xs.swap (xs.length - 1) j).length := by rw [List.length_swap]; omega
  have hne : xs.swap (xs.length - 1) j ≠ [] := List.ne_nil_of_length_pos (by omega)
  have hpicked : (xs.swap (xs.length - 1) j).getLast hne = xs[j] := by
    rw [List.getLast_eq_getElem, ← List.getElem_swap_left_of_lt h hlast]
    congr 1
    rw [List.length_swap]
  rw [Shuffle.close, ← hpicked, List.dropLast_concat_getLast]

theorem Shuffle.closes : Closes (Shuffle.close (α := α)) := by
  intro xs j h
  have hperm := List.swap_perm xs (xs.length - 1) j
  rw [Shuffle.swap_eq h] at hperm
  exact (List.perm_append_singleton xs[j] (Shuffle.close xs j)).symm.trans hperm

/-- the swaps of a shuffle move the picks to the end, before what was there, the first pick last -/
theorem Shuffle.foldl_swaps (back : List α) {xs : List α} {k : ℕ} {draws : List ℕ} (h : draws ∈ vectors xs.length k) :
    (Shuffle.swaps xs.length draws).foldl (fun xs ij => xs.swap ij.1 ij.2) (xs ++ back) =
      leftover Shuffle.close xs draws ++ (picks Shuffle.close xs draws).reverse ++ back := by
  induction k generalizing back xs draws with
  | zero =>
    cases mem_vectors_zero.1 h
    show xs ++ back = xs ++ [] ++ back
    rw [List.append_nil]
  | succ k ih =>
    obtain ⟨j, rest, hj, hrest, rfl⟩ := mem_vectors_succ.1 h
    rw [← length_close Shuffle.closes hj] at hrest
    have hnext := ih (xs[j] :: back) hrest
    rw [length_close Shuffle.closes hj] at hnext
    have hswap : (xs ++ back).swap (xs.length - 1) j = Shuffle.close xs j ++ xs[j] :: back := by
      rw [swap_append_left back (by omega) hj, Shuffle.swap_eq hj, List.append_assoc]
      rfl
    rw [Shuffle.swaps, List.foldl_cons, hswap, hnext, picks_cons hj, leftover, List.reverse_cons]
    simp only [List.append_assoc, List.singleton_append]

/-- **A shuffle picks without replacement**, from the end to the front. -/
theorem Shuffle.after_eq {items : List α} {k : ℕ} {draws : List ℕ} (h : draws ∈ vectors items.length k) :
    Shuffle.after items draws = leftover Shuffle.close items draws ++ (picks Shuffle.close items draws).reverse := by
  have hswaps := Shuffle.foldl_swaps [] h
  rw [List.append_nil, List.append_nil] at hswaps
  rw [Shuffle.after, toList_applySwaps, hswaps]

theorem Shuffle.after_perm (items : List α) (draws : List ℕ) : (Shuffle.after items draws).Perm items :=
  applySwaps_perm items.toArray _

theorem Shuffle.after_map (f : α → β) (xs : List α) (draws : List ℕ) :
    Shuffle.after (xs.map f) draws = (Shuffle.after xs draws).map f := by
  rw [Shuffle.after, Shuffle.after, applySwaps_map, List.length_map]

/-! ## Runs that draw in turn -/

section
variable [Entropy σ] [Arith F]

/-- how a run goes that draws below `n`, …, `n - k + 1` and makes its value of the numbers: all of them are drawn, in this order, or
the numbers below the first bounds are and the run breaks off with the draw below the next -/
def AsksInTurn (tries n k : ℕ) (m : Machine F σ) (value : List ℕ → β) (r : Outcome F β × Machine F σ) : Prop :=
  (∃ draws ∈ vectors n k, ∃ m', OneByOne (indexBelow tries) m (bounds n k) draws m' ∧ r = (.value (value draws), m')) ∨
    ∃ j < k, ∃ draws ∈ vectors n j, ∃ m₁,
      OneByOne (indexBelow tries) m (bounds n j) draws m₁ ∧ BreaksOff ((indexBelow tries (n - j)).run m₁) r

theorem OneByOne.mem_vectors {tries n k : ℕ} {m m' : Machine F σ} {draws : List ℕ}
    (h : OneByOne (indexBelow tries) m (bounds n k) draws m') : draws ∈ vectors n k := h.lt

theorem run_descending (tries n k : ℕ) (value : List ℕ → β) (m : Machine F σ) :
    AsksInTurn tries n k m value (((descending tries n k).bind fun draws => done (value draws)).run m) := by
  rcases run_each_cases (indexBelow tries) (bounds n k) m with ⟨draws, m', hall, heach⟩ | ⟨j, hj, draws, m₁, hsome, hbreak⟩
  · refine Or.inl ⟨draws, OneByOne.mem_vectors hall, m', hall, ?_⟩
    rw [descending, run_bind, heach]
    rfl
  · have hbound : (bounds n k)[j] = n - j := by
      simp only [bounds, List.getElem_map, List.getElem_range]
    rw [length_bounds] at hj
    rw [take_bounds n hj.le] at hsome
    rw [hbound] at hbreak
    refine Or.inr ⟨j, hj, draws, OneByOne.mem_vectors hsome, m₁, hsome, hbreak.trans ?_⟩
    rcases run_bind_cases (descending tries n k) (fun draws => done (value draws)) m with ⟨draws', m₂, hrun, -⟩ | h
    · exact absurd (congrArg Prod.fst hrun) (hbreak.ne_value draws')
    · exact h

/-- what a run that draws in turn leaves in the record: the numbers its value is made of, or those that came out before a draw that
broke off -/
theorem AsksInTurn.drawn {tries n k : ℕ} {m : Machine F σ} {value : List ℕ → β} {r : Outcome F β × Machine F σ}
    (h : AsksInTurn tries n k m value r) :
    ∃ draws, r.2.drawn = m.drawn ++ draws ∧
      ((∃ m', OneByOne (indexBelow tries) m (bounds n k) draws m') ∧ r.1 = .value (value draws) ∨
        (∃ j < k, ∃ m₁, OneByOne (indexBelow tries) m (bounds n j) draws m₁ ∧ ∀ v, ((indexBelow tries (n - j)).run m₁).1 ≠ .value v) ∧
          ∀ b, r.1 ≠ .value b) := by
  rcases h with ⟨draws, -, m', hturn, rfl⟩ | ⟨j, hj, draws, -, m₁, hturn, hbreak⟩
  · exact ⟨draws, hturn.drawn, Or.inl ⟨⟨m', hturn⟩, rfl⟩⟩
  · refine ⟨draws, ?_, Or.inr ⟨⟨j, hj, m₁, hturn, hbreak.ne_value_first⟩, hbreak.ne_value⟩⟩
    rw [hbreak.drawn, hturn.drawn]

/-- from words that settle the draws, the numbers come out and the value is made of them -/
theorem run_descending_of_spelled {n k : ℕ} {ws : List UInt64} {draws : List ℕ} (h : Spelled (bounds n k) ws draws)
    {m : Machine F σ} {lines : List LogLine} {y : σ} (hserves : Serves m.source ws lines y) {tries : ℕ} (htries : ws.length ≤ tries)
    (value : List ℕ → β) :
    ∃ m', ((descending tries n k).bind fun draws => done (value draws)).run m = (.value (value draws), m') ∧ m'.source = y ∧
      m'.consumed = m.consumed + 8 * ws.length ∧ m'.spare = m.spare := by
  obtain ⟨m', hturn, hsource, hconsumed, hspare⟩ := oneByOne_of_spelled h hserves htries
  refine ⟨m', ?_, hsource, hconsumed, hspare⟩
  rw [descending, run_bind, hturn.run_each]
  rfl

theorem spelled_of_mem_vectors {n k : ℕ} {draws : List ℕ} (h : draws ∈ vectors n k) (hsize : n < UInt64.size) :
    Spelled (bounds n k) (draws.map UInt64.ofNat) draws := by
  refine spelled_self h fun b hb => ?_
  obtain ⟨i, -, rfl⟩ := List.mem_map.1 hb
  exact Nat.lt_of_le_of_lt (Nat.sub_le n i) hsize

end

end Sampling
