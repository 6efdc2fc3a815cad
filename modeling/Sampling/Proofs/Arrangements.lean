/-
Picking from a list without replacement.

Draws below `n`, `n - 1`, … pick items one after the other: `picks close xs draws` takes the item at each drawn position, and `close`
says how the gap is closed before the next draw. Whatever way that is, as long as an item taken and the list closed behind it make
up the list before (`Closes`), draws and arrangements correspond one to one (`bijOn_picks`): an arrangement tells its first draw by
its first item, and the rest by induction. Arrangements are counted by injections (`ncard_arrangements`), so draws are, too.
-/
import Mathlib.Data.Fintype.CardEmbedding
import Mathlib.Data.List.FinRange
import Mathlib.Data.List.Perm.Subperm
import Mathlib.Data.Set.Card
import Sampling.Collection

namespace Sampling

variable {α β : Type}

/-! ## Draws -/

namespace Draw

/-- the numbers that draws below `n`, `n - 1`, …, `n - k + 1` can give -/
def vectors (n k : ℕ) : Set (List ℕ) := {draws | List.Forall₂ (· < ·) draws (bounds n k)}

theorem bounds_succ (n k : ℕ) : bounds n (k + 1) = n :: bounds (n - 1) k := by
  unfold bounds
  rw [List.range_succ_eq_map, List.map_cons, List.map_map, Nat.sub_zero]
  congr 1
  apply List.map_congr_left
  intro i _
  show n - (i + 1) = n - 1 - i
  omega

theorem length_bounds (n k : ℕ) : (bounds n k).length = k := by
  rw [bounds, List.length_map, List.length_range]

theorem take_bounds (n : ℕ) {j k : ℕ} (h : j ≤ k) : (bounds n k).take j = bounds n j := by
  rw [bounds, ← List.map_take, List.take_range, Nat.min_eq_left h, bounds]

theorem length_of_mem_vectors {n k : ℕ} {draws : List ℕ} (h : draws ∈ vectors n k) : draws.length = k :=
  (List.Forall₂.length_eq h).trans (length_bounds n k)

theorem mem_vectors_zero {n : ℕ} {draws : List ℕ} : draws ∈ vectors n 0 ↔ draws = [] := List.forall₂_nil_right_iff

/-- one draw below `n`, the rest below `n - 1`, … -/
theorem mem_vectors_succ {n k : ℕ} {draws : List ℕ} :
    draws ∈ vectors n (k + 1) ↔ ∃ r rest, r < n ∧ rest ∈ vectors (n - 1) k ∧ draws = r :: rest := by
  show List.Forall₂ _ _ _ ↔ _
  rw [bounds_succ, List.forall₂_cons_right_iff]
  rfl

end Draw

open Draw

/-! ## Picks -/

/-- the items at the drawn positions, each taken from what is left when the gaps before it are closed -/
def picks (close : List α → ℕ → List α) : List α → List ℕ → List α
  | _, [] => []
  | xs, r :: draws => xs[r]?.toList ++ picks close (close xs r) draws

/-- what is left when the last gap is closed -/
def leftover (close : List α → ℕ → List α) : List α → List ℕ → List α
  | xs, [] => xs
  | xs, r :: draws => leftover close (close xs r) draws

/-- an item and what is left when its gap is closed make up the list -/
def Closes (close : List α → ℕ → List α) : Prop :=
  ∀ xs r, ∀ h : r < xs.length, (xs[r] :: close xs r).Perm xs

/-- ordered choices of `k` items of a list, none chosen twice -/
def arrangements (xs : List α) (k : ℕ) : Set (List α) := {p | p.length = k ∧ p.Nodup ∧ p ⊆ xs}

variable {close : List α → ℕ → List α}

theorem picks_cons {xs : List α} {r : ℕ} (h : r < xs.length) (draws : List ℕ) :
    picks close xs (r :: draws) = xs[r] :: picks close (close xs r) draws := by
  rw [picks, List.getElem?_eq_getElem h]
  rfl

theorem length_close (hclose : Closes close) {xs : List α} {r : ℕ} (h : r < xs.length) : (close xs r).length = xs.length - 1 := by
  have hlength := (hclose xs r h).length_eq
  rw [List.length_cons] at hlength
  omega

theorem take_picks (hclose : Closes close) {xs : List α} {k : ℕ} {draws : List ℕ} (h : draws ∈ vectors xs.length k) (j : ℕ) :
    (picks close xs draws).take j = picks close xs (draws.take j) := by
  induction draws generalizing xs k j with
  | nil => rw [List.take_nil, picks, List.take_nil]
  | cons r draws ih =>
    cases k with
    | zero => cases mem_vectors_zero.1 h
    | succ k =>
      obtain ⟨r', rest, hr, hrest, heq⟩ := mem_vectors_succ.1 h
      cases heq
      rw [← length_close hclose hr] at hrest
      cases j with
      | zero => rfl
      | succ j => rw [picks_cons hr, List.take_succ_cons, List.take_succ_cons, picks_cons hr, ih hrest j]

theorem picks_append_leftover (hclose : Closes close) {xs : List α} {k : ℕ} {draws : List ℕ}
    (h : draws ∈ vectors xs.length k) : (picks close xs draws ++ leftover close xs draws).Perm xs := by
  induction k generalizing xs draws with
  | zero =>
    cases mem_vectors_zero.1 h
    exact .refl xs
  | succ k ih =>
    obtain ⟨r, rest, hr, hrest, rfl⟩ := mem_vectors_succ.1 h
    rw [← length_close hclose hr] at hrest
    rw [picks_cons hr, leftover, List.cons_append]
    exact ((ih hrest).cons _).trans (hclose xs r hr)

theorem length_picks (hclose : Closes close) {xs : List α} {k : ℕ} {draws : List ℕ} (h : draws ∈ vectors xs.length k) :
    (picks close xs draws).length = k := by
  induction k generalizing xs draws with
  | zero =>
    cases mem_vectors_zero.1 h
    rfl
  | succ k ih =>
    obtain ⟨r, rest, hr, hrest, rfl⟩ := mem_vectors_succ.1 h
    rw [← length_close hclose hr] at hrest
    rw [picks_cons hr, List.length_cons, ih hrest]

theorem nodup_close (hclose : Closes close) {xs : List α} (hxs : xs.Nodup) {r : ℕ} (h : r < xs.length) :
    xs[r] ∉ close xs r ∧ (close xs r).Nodup :=
  List.nodup_cons.1 ((hclose xs r h).nodup_iff.2 hxs)

/-- the first item tells the first draw, and what is left the others -/
theorem injOn_picks (hclose : Closes close) {xs : List α} (hxs : xs.Nodup) (k : ℕ) :
    Set.InjOn (picks close xs) (vectors xs.length k) := by
  induction k generalizing xs with
  | zero =>
    intro draws h draws' h' _
    rw [mem_vectors_zero.1 h, mem_vectors_zero.1 h']
  | succ k ih =>
    intro draws h draws' h' heq
    obtain ⟨r, rest, hr, hrest, rfl⟩ := mem_vectors_succ.1 h
    obtain ⟨r', rest', hr', hrest', rfl⟩ := mem_vectors_succ.1 h'
    rw [picks_cons hr, picks_cons hr', List.cons.injEq] at heq
    obtain rfl : r = r' := hxs.getElem_inj_iff.1 heq.1
    rw [← length_close hclose hr] at hrest hrest'
    rw [ih (nodup_close hclose hxs hr).2 hrest hrest' heq.2]

theorem exists_picks (hclose : Closes close) {xs : List α} {k : ℕ} {p : List α} (hp : p ∈ arrangements xs k) :
    ∃ draws ∈ vectors xs.length k, picks close xs draws = p := by
  induction k generalizing xs p with
  | zero =>
    obtain ⟨hlength, -, -⟩ := hp
    exact ⟨[], mem_vectors_zero.2 rfl, (List.length_eq_zero_iff.1 hlength).symm⟩
  | succ k ih =>
    obtain ⟨hlength, hnodup, hsubset⟩ := hp
    obtain ⟨x, q, rfl⟩ := List.exists_cons_of_length_eq_add_one hlength
    obtain ⟨r, hr, rfl⟩ := List.getElem_of_mem (hsubset List.mem_cons_self)
    obtain ⟨hx, hq⟩ := List.nodup_cons.1 hnodup
    -- the other items are still there when the first one's gap is closed
    have hrest : q ⊆ close xs r := by
      intro y hy
      have hmem : y ∈ xs[r] :: close xs r := (hclose xs r hr).mem_iff.2 (hsubset (List.mem_cons_of_mem _ hy))
      rcases List.mem_cons.1 hmem with rfl | hmem
      · exact absurd hy hx
      · exact hmem
    obtain ⟨draws, hdraws, rfl⟩ := ih ⟨Nat.succ.inj hlength, hq, hrest⟩
    rw [length_close hclose hr] at hdraws
    exact ⟨r :: draws, mem_vectors_succ.2 ⟨r, draws, hr, hdraws, rfl⟩, picks_cons hr draws⟩

/-- **Draws and arrangements correspond.** From a list without repetition, every arrangement is picked by exactly one vector of draws,
however gaps are closed. -/
theorem bijOn_picks (hclose : Closes close) {xs : List α} (hxs : xs.Nodup) (k : ℕ) :
    Set.BijOn (picks close xs) (vectors xs.length k) (arrangements xs k) := by
  refine ⟨fun draws h => ?_, injOn_picks hclose hxs k, fun p hp => exists_picks hclose hp⟩
  have hperm := picks_append_leftover hclose h
  have hnodup := hperm.nodup_iff.2 hxs
  refine ⟨length_picks hclose h, hnodup.of_append_left, fun x hx => ?_⟩
  exact hperm.mem_iff.1 (List.mem_append_left _ hx)

/-! ## Counting -/

/-- an arrangement of positions is an injection written down -/
theorem arrangements_finRange (n k : ℕ) :
    arrangements (List.finRange n) k = (fun e : Fin k ↪ Fin n => List.ofFn e) '' Set.univ := by
  ext p
  constructor
  · rintro ⟨rfl, hnodup, -⟩
    exact ⟨⟨p.get, List.nodup_iff_injective_get.1 hnodup⟩, trivial, List.ofFn_get p⟩
  · rintro ⟨e, -, rfl⟩
    exact ⟨List.length_ofFn, List.nodup_ofFn.2 e.injective, fun x _ => List.mem_finRange x⟩

/-- there are `n (n - 1) ⋯ (n - k + 1)` arrangements of `k` positions -/
theorem ncard_arrangements (n k : ℕ) : (arrangements (List.finRange n) k).ncard = n.descFactorial k := by
  have hinj : Function.Injective fun e : Fin k ↪ Fin n => List.ofFn e := fun e e' h => DFunLike.coe_injective (List.ofFn_injective h)
  rw [arrangements_finRange, Set.ncard_image_of_injective _ hinj, Set.ncard_univ, Nat.card_eq_fintype_card,
    Fintype.card_embedding_eq, Fintype.card_fin, Fintype.card_fin]

/-- the orders of a list are its arrangements of full length -/
theorem perm_iff_mem_arrangements {xs p : List α} (hxs : xs.Nodup) : p.Perm xs ↔ p ∈ arrangements xs xs.length := by
  constructor
  · intro h
    exact ⟨h.length_eq, h.nodup_iff.2 hxs, h.subset⟩
  · rintro ⟨hlength, hnodup, hsubset⟩
    exact (List.subperm_of_subset hnodup hsubset).perm_of_length_le hlength.ge

/-- **What corresponds one to one is equally likely.** Every part of the target has as many members as there are sources of it. -/
theorem ncard_of_bijOn {f : α → β} {s : Set α} {t A : Set β} (h : Set.BijOn f s t) (hA : A ⊆ t) :
    {a ∈ s | f a ∈ A}.ncard = A.ncard := by
  have himage : f '' {a ∈ s | f a ∈ A} = A := by
    apply Set.Subset.antisymm
    · rintro b ⟨a, ⟨-, ha⟩, rfl⟩
      exact ha
    · intro b hb
      obtain ⟨a, ha, rfl⟩ := h.surjOn (hA hb)
      exact ⟨a, ⟨ha, hb⟩, rfl⟩
  have hinj : Set.InjOn f {a ∈ s | f a ∈ A} := h.injOn.mono fun a ha => ha.1
  rw [← hinj.ncard_image, himage]

end Sampling
