/-
Shuffles are even.

A shuffle draws below `n`, `n - 1`, …, `2` and never looks at the items. What it leaves is what it picked, from the end to the front,
and at most one item that is left, so the orders of the positions correspond one to one to the vectors of draws
(`Shuffle.bijOn_after`). A shuffle that breaks off has made the swaps of the draws before, which lose nothing and repeat nothing.

`shuffle_even`: all of it together, for every list, with what a shuffled copy has to do with a shuffle in place.
-/
import Sampling.Proofs.SessionStep
import Sampling.Proofs.Swaps
import Sampling.Source.Replay

namespace Sampling

open Draw

variable {F σ α : Type}

/-! ## Orders -/

theorem eq_of_perm_of_length_le_one {xs ys : List α} (h : xs.Perm ys) (hlength : ys.length ≤ 1) : xs = ys := by
  match ys, hlength with
  | [], _ => exact h.eq_nil
  | [y], _ => exact List.perm_singleton.1 h

/-- **Orders and draws correspond.** Every order of a list without repetition is left by exactly one vector of draws. -/
theorem Shuffle.bijOn_after {xs : List α} (hxs : xs.Nodup) :
    Set.BijOn (Shuffle.after xs) (vectors xs.length (xs.length - 1)) {p | p.Perm xs} := by
  refine ⟨fun draws _ => Shuffle.after_perm xs draws, ?_, ?_⟩
  · intro draws h draws' h' heq
    rw [Shuffle.after_eq h, Shuffle.after_eq h'] at heq
    have hlength : (picks Shuffle.close xs draws).reverse.length = (picks Shuffle.close xs draws').reverse.length := by
      rw [List.length_reverse, List.length_reverse, length_picks Shuffle.closes h, length_picks Shuffle.closes h']
    have hpicks := List.reverse_injective (List.append_inj' heq hlength).2
    exact injOn_picks Shuffle.closes hxs _ h h' hpicks
  · intro p (hp : p.Perm xs)
    -- all but the first item of an order are picked, the last one first
    have hlength := hp.length_eq
    have hq : (p.drop (xs.length - (xs.length - 1))).reverse ∈ arrangements xs (xs.length - 1) := by
      refine ⟨?_, ?_, ?_⟩
      · rw [List.length_reverse, List.length_drop]
        omega
      · exact List.nodup_reverse.2 ((hp.nodup_iff.2 hxs).sublist (List.drop_sublist _ _))
      · intro x hx
        exact hp.subset (List.mem_of_mem_drop (List.mem_reverse.1 hx))
    obtain ⟨draws, hdraws, hpicks⟩ := exists_picks Shuffle.closes hq
    refine ⟨draws, hdraws, ?_⟩
    have hafter := Shuffle.after_eq hdraws
    rw [hpicks, List.reverse_reverse] at hafter
    -- the one that is left is the one order and draws have in common
    have hleft : leftover Shuffle.close xs draws = p.take (xs.length - (xs.length - 1)) := by
      apply eq_of_perm_of_length_le_one
      · apply (List.perm_append_right_iff (p.drop (xs.length - (xs.length - 1)))).1
        rw [List.take_append_drop, ← hafter]
        exact (Shuffle.after_perm xs draws).trans hp.symm
      · rw [List.length_take]
        omega
    rw [hafter, hleft, List.take_append_drop]

theorem Shuffle.after_eq_map (items : List α) (draws : List ℕ) :
    Shuffle.after items draws = (Shuffle.after (List.finRange items.length) draws).map items.get := by
  rw [← Shuffle.after_map, List.map_get_finRange]

theorem ncard_orders (n : ℕ) : {p : List (Fin n) | p.Perm (List.finRange n)}.ncard = n.factorial := by
  have horders : {p : List (Fin n) | p.Perm (List.finRange n)} = arrangements (List.finRange n) n := by
    ext p
    have hperm := perm_iff_mem_arrangements (p := p) (List.nodup_finRange n)
    rw [List.length_finRange] at hperm
    exact hperm
  rw [horders, ncard_arrangements, Nat.descFactorial_self]

/-! ## Runs -/

section
variable [Entropy σ] [Arith F]

theorem run_shuffle (items : List α) (m : Machine F σ) (tries : ℕ) :
    AsksInTurn tries items.length (items.length - 1) m (Shuffle.after items) ((shuffle tries items).run m) :=
  run_descending tries items.length (items.length - 1) (Shuffle.after items) m

theorem run_shuffle_short {items : List α} (h : items.length ≤ 1) (m : Machine F σ) (tries : ℕ) :
    (shuffle tries items).run m = (.value items, m) := by
  rw [shuffle, Nat.sub_eq_zero_of_le h]
  rfl

/-! ## In place and as a copy -/

/-- **A shuffled copy is what a shuffle in place leaves.** Both are answered from the same draws and leave the session alike. If all
draws come out, both succeed and the copy is the list left in place. If not, both end alike, the copy is not made, and the list in
place is what the draws that came out have made of it. -/
theorem Session.step_shuffle {s : Session F σ} {g : ℕ} {gen : Generator F} {source : σ} (hg : s.generators[g]? = some gen)
    (hs : s.sources[gen.source]? = some source) (strict : Bool) (xs : List String) :
    ∃ draws,
      (s.step (.call g strict (.shuffle xs))).1.items = some (Shuffle.after xs draws) ∧ (Shuffle.after xs draws).Perm xs ∧
      (s.step (.call g strict (.shuffled xs))).1.items = none ∧
      (s.step (.call g strict (.shuffled xs))).2 = (s.step (.call g strict (.shuffle xs))).2 ∧
      ((∃ m', OneByOne (indexBelow gen.tries) (gen.machine source) (bounds xs.length (xs.length - 1)) draws m') ∧
          (s.step (.call g strict (.shuffle xs))).1.ending = .value .nothing ∧
          (s.step (.call g strict (.shuffled xs))).1.ending = .value (.items (Shuffle.after xs draws)) ∨
        (∃ j < xs.length - 1, ∃ m₁, OneByOne (indexBelow gen.tries) (gen.machine source) (bounds xs.length j) draws m₁ ∧
            ∀ v, ((indexBelow gen.tries (xs.length - j)).run m₁).1 ≠ .value v) ∧
          (s.step (.call g strict (.shuffle xs))).1.ending.succeeded = false ∧
          (s.step (.call g strict (.shuffled xs))).1.ending = (s.step (.call g strict (.shuffle xs))).1.ending) := by
  obtain ⟨draws, hdrawn, hcases⟩ := (run_shuffle xs (gen.machine source) gen.tries).drawn
  rw [step_call hg hs, step_call hg hs]
  simp only [Call.program, Call.leftBehind?, Call.hasStrictForm, map_eq, run_bind]
  refine ⟨draws, ?_⟩
  generalize (shuffle gen.tries xs).run (gen.machine source) = r at hdrawn hcases ⊢
  have hleft : some (Shuffle.after xs (r.2.accepted.map (·.2.toNat))) = some (Shuffle.after xs draws) :=
    congrArg (fun ds => some (Shuffle.after xs ds)) hdrawn
  rcases r with ⟨l | e | _, m'⟩
  · rcases hcases with ⟨hall, hl⟩ | ⟨-, hl⟩
    · cases hl
      exact ⟨hleft, Shuffle.after_perm xs draws, trivial, rfl, Or.inl ⟨hall, rfl, rfl⟩⟩
    · exact absurd rfl (hl l)
  · rcases hcases with ⟨-, hl⟩ | ⟨hfew, -⟩
    · cases hl
    · refine ⟨hleft, Shuffle.after_perm xs draws, trivial, rfl, Or.inr ⟨hfew, ?_, rfl⟩⟩
      cases strict <;> rfl
  · rcases hcases with ⟨-, hl⟩ | ⟨hfew, -⟩
    · cases hl
    · exact ⟨hleft, Shuffle.after_perm xs draws, trivial, rfl, Or.inr ⟨hfew, rfl, rfl⟩⟩

/-- **Shuffles are even.** Let `items` be any list, of `n` items.
- On every machine, a shuffle asks for draws below `n`, `n - 1`, …, `2`, in this order, and its value is made of the numbers drawn; if
  one of them breaks off, it asks for no more. With one item at most it draws nothing and leaves the list.
- From words that settle these draws it ends with what the numbers make of the list, has read these words and no more, and leaves
  the spare alone; and every vector of numbers below the bounds is settled by some words.
- Vectors of draws and orders of the positions correspond one to one. There are `n!` of both, and every set of orders is made by as
  many vectors as it has members: equally likely draws make equally likely orders.
- The order of the positions is all there is to it, whatever the items are. No draws lose or repeat an item.
- In a session, a shuffle in place leaves what the draws that came out have made of the list, which is an order of it, also if a draw
  breaks off in between: those below `n`, …, `n - j + 1` came out then, and the one below `n - j` did not. A shuffled copy is what
  the shuffle in place leaves from the same state, ends alike otherwise, and leaves its input alone. -/
theorem shuffle_even (items : List α) :
    (∀ (m : Machine F σ) (tries : ℕ),
      AsksInTurn tries items.length (items.length - 1) m (Shuffle.after items) ((shuffle tries items).run m) ∧
      (items.length ≤ 1 → (shuffle tries items).run m = (.value items, m))) ∧
    ((∀ (m : Machine F σ) (tries : ℕ) (ws : List UInt64) (draws : List ℕ) (lines : List LogLine) (y : σ),
        Spelled (bounds items.length (items.length - 1)) ws draws → Serves m.source ws lines y → ws.length ≤ tries →
        ∃ m', (shuffle tries items).run m = (.value (Shuffle.after items draws), m') ∧ m'.source = y ∧
          m'.consumed = m.consumed + 8 * ws.length ∧ m'.spare = m.spare) ∧
      (items.length < UInt64.size → ∀ draws ∈ vectors items.length (items.length - 1),
        Spelled (bounds items.length (items.length - 1)) (draws.map UInt64.ofNat) draws)) ∧
    (Set.BijOn (Shuffle.after (List.finRange items.length)) (vectors items.length (items.length - 1))
        {p | p.Perm (List.finRange items.length)} ∧
      {p : List (Fin items.length) | p.Perm (List.finRange items.length)}.ncard = items.length.factorial ∧
      ∀ A ⊆ {p : List (Fin items.length) | p.Perm (List.finRange items.length)},
        {draws ∈ vectors items.length (items.length - 1) | Shuffle.after (List.finRange items.length) draws ∈ A}.ncard = A.ncard) ∧
    (∀ draws, Shuffle.after items draws = (Shuffle.after (List.finRange items.length) draws).map items.get ∧
      (Shuffle.after items draws).Perm items) ∧
    ∀ (s : Session F σ) (g : ℕ) (gen : Generator F) (source : σ) (strict : Bool) (xs : List String),
      s.generators[g]? = some gen → s.sources[gen.source]? = some source → ∃ draws,
      (s.step (.call g strict (.shuffle xs))).1.items = some (Shuffle.after xs draws) ∧ (Shuffle.after xs draws).Perm xs ∧
      (s.step (.call g strict (.shuffled xs))).1.items = none ∧
      (s.step (.call g strict (.shuffled xs))).2 = (s.step (.call g strict (.shuffle xs))).2 ∧
      ((∃ m', OneByOne (indexBelow gen.tries) (gen.machine source) (bounds xs.length (xs.length - 1)) draws m') ∧
          (s.step (.call g strict (.shuffle xs))).1.ending = .value .nothing ∧
          (s.step (.call g strict (.shuffled xs))).1.ending = .value (.items (Shuffle.after xs draws)) ∨
        (∃ j < xs.length - 1, ∃ m₁, OneByOne (indexBelow gen.tries) (gen.machine source) (bounds xs.length j) draws m₁ ∧
            ∀ v, ((indexBelow gen.tries (xs.length - j)).run m₁).1 ≠ .value v) ∧
          (s.step (.call g strict (.shuffle xs))).1.ending.succeeded = false ∧
          (s.step (.call g strict (.shuffled xs))).1.ending = (s.step (.call g strict (.shuffle xs))).1.ending) := by
  have hpositions := Shuffle.bijOn_after (List.nodup_finRange items.length)
  rw [List.length_finRange] at hpositions
  refine ⟨?_, ⟨?_, ?_⟩, ⟨hpositions, ncard_orders items.length, ?_⟩, ?_, ?_⟩
  · intro m tries
    exact ⟨run_shuffle items m tries, fun hshort => run_shuffle_short hshort m tries⟩
  · intro m tries ws draws lines y hspelled hserves htries
    exact run_descending_of_spelled hspelled hserves htries (Shuffle.after items)
  · intro hsize draws hdraws
    exact spelled_of_mem_vectors hdraws hsize
  · intro A hA
    exact ncard_of_bijOn hpositions hA
  · intro draws
    exact ⟨Shuffle.after_eq_map items draws, Shuffle.after_perm items draws⟩
  · intro s g gen source strict xs hg hs
    exact Session.step_shuffle hg hs strict xs

/-- three items: the largest word is passed over, then the first draw is one and the second zero; no other draws make this order -/
theorem shuffle_even_three :
    let items := ["a", "b", "c"]
    let m : Machine Float Replay := { source := Replay.ofWords [0xffffffffffffffff, 1, 0], keepsSpare := true }
    Spelled (bounds 3 2) [0xffffffffffffffff, 1, 0] [1, 0] ∧
      (∃ m', (shuffle 3 items).run m = (.value ["c", "a", "b"], m') ∧ m'.consumed = 24) ∧
      {draws ∈ vectors 3 2 | Shuffle.after (List.finRange 3) draws ∈ ({[2, 0, 1]} : Set (List (Fin 3)))}.ncard = 1 := by
  intro items m
  have hspelled : Spelled (bounds 3 2) [0xffffffffffffffff, 1, 0] [1, 0] := by
    have hlast : Spelled [2] [0] [0] := @Spelled.cons 2 [] 0 [] [] [] (by decide) (by decide) (by simp) (by decide) .nil
    refine @Spelled.cons 3 [0xffffffffffffffff] 1 [2] [0] [0] (by decide) (by decide) ?_ (by decide) hlast
    intro u hu
    rw [List.mem_singleton.1 hu]
    decide
  obtain ⟨-, ⟨hwords, -⟩, ⟨-, -, hlikely⟩, -, -⟩ := shuffle_even (F := Float) (σ := Replay) items
  obtain ⟨m', hrun, -, hconsumed, -⟩ := hwords m 3 _ _ _ _ hspelled (Replay.serves_ofWords _) (by decide)
  have horder : ({[2, 0, 1]} : Set (List (Fin 3))) ⊆ {p | p.Perm (List.finRange 3)} := by
    intro p hp
    rw [Set.mem_singleton_iff.1 hp]
    show List.Perm _ _
    decide
  refine ⟨hspelled, ⟨m', hrun, hconsumed⟩, ?_⟩
  rw [← Set.ncard_singleton ([2, 0, 1] : List (Fin 3))]
  exact hlikely _ horder

end

end Sampling
