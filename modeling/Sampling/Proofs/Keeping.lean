/-
Keeping items with a probability.

One unit number is drawn for every item, in list order, and an item is kept if its own number is at most `p` (`run_each_word`,
`kept_eq_filter`). So the decisions are made item by item: what is kept of a list is what is kept of its parts (`kept_append`), and a
greater probability keeps more (`kept_sublist`). A coin of probability `p` on the same number is stricter: it asks for a number below
`p`, so the two decide differently exactly on a number equal to `p` (`keptOn_ne_coin_iff`).

`pickByProbability_keeps`: all of it together, for every list and every word list.
-/
import Sampling.Collection
import Sampling.Proofs.EvenUnit

namespace Sampling

open Binary64

variable {σ α : Type} {p q : Float}

/-! ## One item -/

def keptOn (p : Float) (w : UInt64) : Bool := decide ((unitOf w : Float) ≤ p)

/-- what a coin of probability `p` shows on a word -/
def coinOn (p : Float) (w : UInt64) : Bool := decide ((unitOf w : Float) < p)

section
variable (h0 : 0.0 ≤ p) (h1 : p ≤ 1.0)
include h0 h1

theorem keptOn_iff (w : UInt64) : keptOn p w = true ↔ value (unitOf w) ≤ value p := by
  rw [keptOn, decide_eq_true_iff]
  exact le_iff_value (value_unitOf w).1 (value_of_probability h0 h1).1

theorem coinOn_iff (w : UInt64) : coinOn p w = true ↔ value (unitOf w) < value p := by
  rw [coinOn, decide_eq_true_iff]
  exact unitOf_lt_iff h0 h1 w

theorem keptOn_of_coinOn {w : UInt64} (h : coinOn p w = true) : keptOn p w = true := by
  rw [coinOn_iff h0 h1] at h
  rw [keptOn_iff h0 h1]
  exact h.le

/-- **Keeping and a coin decide differently** exactly on a number equal to the probability. -/
theorem keptOn_ne_coin_iff (w : UInt64) : keptOn p w ≠ coinOn p w ↔ value (unitOf w) = value p := by
  rcases lt_trichotomy (value (unitOf w)) (value p) with hlt | heq | hgt
  · have hcoin := (coinOn_iff h0 h1 w).2 hlt
    have hkept := keptOn_of_coinOn h0 h1 hcoin
    simp [hcoin, hkept, hlt.ne]
  · have hkept := (keptOn_iff h0 h1 w).2 heq.le
    have hcoin : coinOn p w = false := Bool.eq_false_iff.2 fun h => heq.not_lt ((coinOn_iff h0 h1 w).1 h)
    simp [hcoin, hkept, heq]
  · have hkept : keptOn p w = false := Bool.eq_false_iff.2 fun h => hgt.not_ge ((keptOn_iff h0 h1 w).1 h)
    have hcoin : coinOn p w = false := Bool.eq_false_iff.2 fun h => hgt.le.not_gt ((coinOn_iff h0 h1 w).1 h)
    simp [hcoin, hkept, hgt.ne']

theorem keptOn_mono (hpq : p ≤ q) (hq : q ≤ 1.0) {w : UInt64} (h : keptOn p w = true) : keptOn q w = true := by
  have hq0 := zero_le_of_le h0 hpq
  have hle := (le_iff_value (value_of_probability h0 h1).1 (value_of_probability hq0 hq).1).1 hpq
  rw [keptOn_iff h0 h1] at h
  rw [keptOn_iff hq0 hq]
  exact h.trans hle

end

/-! ## Lists -/

/-- the items kept with probability `p` on a word for each -/
def kept (p : Float) (items : List α) (ws : List UInt64) : List α := Draw.keepAtMost p items (ws.map unitOf)

/-- the items on whose words a coin of probability `p` shows true -/
def flagged (p : Float) (items : List α) (ws : List UInt64) : List α :=
  ((items.zip ws).filter fun xw => coinOn p xw.2).map Prod.fst

/-- what is kept is filtered out of the items and their words, in list order -/
theorem kept_eq_filter (p : Float) (items : List α) (ws : List UInt64) :
    kept p items ws = ((items.zip ws).filter fun xw => keptOn p xw.2).map Prod.fst := by
  unfold kept Draw.keepAtMost
  induction items generalizing ws with
  | nil => rfl
  | cons x items ih =>
    cases ws with
    | nil => rfl
    | cons w ws =>
      rw [List.map_cons, List.zip_cons_cons, List.zip_cons_cons, List.filterMap_cons, ih, List.filter_cons]
      by_cases h : (unitOf w : Float) ≤ p <;> simp [keptOn, h]

theorem kept_append {xs : List α} {us : List UInt64} (h : xs.length = us.length) (p : Float) (ys : List α) (vs : List UInt64) :
    kept p (xs ++ ys) (us ++ vs) = kept p xs us ++ kept p ys vs := by
  rw [kept_eq_filter, kept_eq_filter, kept_eq_filter, List.zip_append h, List.filter_append, List.map_append]

theorem kept_cons (p : Float) (x : α) (xs : List α) (w : UInt64) (ws : List UInt64) :
    kept p (x :: xs) (w :: ws) = (if keptOn p w then [x] else []) ++ kept p xs ws := by
  rw [kept_eq_filter, kept_eq_filter, List.zip_cons_cons, List.filter_cons]
  by_cases h : keptOn p w = true <;> simp [h]

/-- **One word decides on one item.** What is kept before and after it does not depend on its word. -/
theorem kept_set {items : List α} {ws : List UInt64} (hlen : ws.length = items.length) (p : Float) {i : Nat}
    (hi : i < items.length) (w : UInt64) :
    kept p items (ws.set i w) = kept p (items.take i) (ws.take i) ++ (if keptOn p w then [items[i]] else []) ++
      kept p (items.drop (i + 1)) (ws.drop (i + 1)) := by
  have hitems : items = items.take i ++ items[i] :: items.drop (i + 1) := by
    rw [← List.drop_eq_getElem_cons hi, List.take_append_drop]
  have hwords : ws.set i w = ws.take i ++ w :: ws.drop (i + 1) := List.set_eq_take_append_cons_drop.trans (if_pos (hlen ▸ hi))
  have hfront : (items.take i).length = (ws.take i).length := by
    rw [List.length_take, List.length_take, hlen]
  calc kept p items (ws.set i w)
      = kept p (items.take i ++ items[i] :: items.drop (i + 1)) (ws.take i ++ w :: ws.drop (i + 1)) := by
        rw [hwords, ← hitems]
    _ = kept p (items.take i) (ws.take i) ++ kept p (items[i] :: items.drop (i + 1)) (w :: ws.drop (i + 1)) :=
        kept_append hfront p _ _
    _ = _ := by rw [kept_cons, List.append_assoc]

/-- what one decision keeps of a list and another does too is a part of what the other keeps, in the same order -/
theorem map_filter_sublist {β : Type} (f g : β → Bool) (h : ∀ b, f b = true → g b = true) (bs : List (α × β)) :
    ((bs.filter fun xb => f xb.2).map Prod.fst).Sublist ((bs.filter fun xb => g xb.2).map Prod.fst) := by
  apply List.Sublist.map
  exact List.monotone_filter_right bs fun xb hf => h xb.2 hf

/-- two decisions take the same pairs out of a list exactly if they agree on every pair, the first being the stricter one -/
theorem map_filter_eq_iff {β : Type} (f g : β → Bool) (h : ∀ b, f b = true → g b = true) (bs : List (α × β)) :
    (bs.filter fun xb => f xb.2).map Prod.fst = (bs.filter fun xb => g xb.2).map Prod.fst ↔ ∀ xb ∈ bs, f xb.2 = g xb.2 := by
  constructor
  · intro heq
    have hsub : (bs.filter fun xb => f xb.2).Sublist (bs.filter fun xb => g xb.2) :=
      List.monotone_filter_right bs fun xb hf => h xb.2 hf
    have hlength := congrArg List.length heq
    rw [List.length_map, List.length_map] at hlength
    have hfilters := hsub.eq_of_length hlength
    intro xb hmem
    rw [Bool.eq_iff_iff]
    refine ⟨h xb.2, fun hg => ?_⟩
    have hkept : xb ∈ bs.filter fun xb => f xb.2 := hfilters ▸ List.mem_filter.2 ⟨hmem, hg⟩
    exact (List.mem_filter.1 hkept).2
  · intro hall
    rw [List.filter_congr hall]

section
variable (h0 : 0.0 ≤ p) (h1 : p ≤ 1.0)
include h0 h1

theorem kept_eq_value (items : List α) (ws : List UInt64) :
    kept p items ws = ((items.zip ws).filter fun xw => decide (value (unitOf xw.2) ≤ value p)).map Prod.fst := by
  rw [kept_eq_filter]
  congr 1
  apply List.filter_congr
  intro xw _
  rw [Bool.eq_iff_iff, keptOn_iff h0 h1, decide_eq_true_iff]

/-- **A greater probability keeps more.** -/
theorem kept_sublist (hpq : p ≤ q) (hq : q ≤ 1.0) (items : List α) (ws : List UInt64) :
    (kept p items ws).Sublist (kept q items ws) := by
  rw [kept_eq_filter, kept_eq_filter]
  exact map_filter_sublist (keptOn p) (keptOn q) (fun _ => keptOn_mono h0 h1 hpq hq) (items.zip ws)

theorem flagged_sublist (items : List α) (ws : List UInt64) : (flagged p items ws).Sublist (kept p items ws) := by
  rw [kept_eq_filter]
  unfold flagged
  exact map_filter_sublist (coinOn p) (keptOn p) (fun _ => keptOn_of_coinOn h0 h1) (items.zip ws)

/-- **Coins keep the same list** unless the number of one of the items is `p`. -/
theorem flagged_eq_kept_iff {items : List α} {ws : List UInt64} (hlen : ws.length = items.length) :
    flagged p items ws = kept p items ws ↔ ∀ w ∈ ws, value (unitOf w) ≠ value p := by
  have hwords : ws = (items.zip ws).map Prod.snd := (List.map_snd_zip hlen.le).symm
  rw [kept_eq_filter]
  unfold flagged
  rw [map_filter_eq_iff (coinOn p) (keptOn p) (fun _ => keptOn_of_coinOn h0 h1)]
  constructor
  · intro hall w hw hvalue
    rw [hwords, List.mem_map] at hw
    obtain ⟨xw, hmem, rfl⟩ := hw
    exact (keptOn_ne_coin_iff h0 h1 xw.2).2 hvalue (hall xw hmem).symm
  · intro hne xw hmem
    by_contra hdiffer
    have hw : xw.2 ∈ ws := (List.of_mem_zip (a := xw.1) (b := xw.2) hmem).2
    exact hne xw.2 hw ((keptOn_ne_coin_iff h0 h1 xw.2).1 (Ne.symm hdiffer))

theorem kept_of_one (hp : value p = 1) {items : List α} {ws : List UInt64} (hlen : ws.length = items.length) :
    kept p items ws = items := by
  have hall : ∀ xw ∈ items.zip ws, keptOn p xw.2 = true := by
    intro xw _
    rw [keptOn_iff h0 h1, hp]
    exact (value_unitOf_le xw.2).trans (by norm_num)
  rw [kept_eq_filter, List.filter_eq_self.2 hall, List.map_fst_zip hlen.ge]

/-- probability zero keeps what has the number zero -/
theorem kept_of_zero (hp : value p = 0) (items : List α) (ws : List UInt64) :
    kept p items ws = ((items.zip ws).filter fun xw => decide (value (unitOf xw.2) = 0)).map Prod.fst := by
  rw [kept_eq_value h0 h1, hp]
  congr 1
  apply List.filter_congr
  intro xw _
  have hnonneg := value_unitOf_nonneg xw.2
  rw [decide_eq_decide]
  exact ⟨fun hle => hle.antisymm hnonneg, fun heq => heq.le⟩

theorem flagged_of_zero (hp : value p = 0) (items : List α) (ws : List UInt64) : flagged p items ws = [] := by
  have hnone : ∀ xw ∈ items.zip ws, ¬ coinOn p xw.2 = true := by
    intro xw _
    rw [coinOn_iff h0 h1, hp, not_lt]
    exact value_unitOf_nonneg xw.2
  unfold flagged
  rw [List.filter_eq_nil_iff.2 hnone, List.map_nil]

end

/-! ## Draws -/

section
variable [Entropy σ] {m : Machine Float σ} {ws : List UInt64} {lines : List LogLine} {y : σ}

/-- a program that turns one word into a result, run once for every item, turns the words in a row into the list of results -/
theorem run_each_word {β : Type} {draw : Draw Float β} {f : UInt64 → β}
    (hdraw : ∀ {m : Machine Float σ} {w : UInt64} {x : σ} {log : List LogLine},
      Entropy.fill m.source 8 = ⟨.ok (Bytes.ofWord w), x, log⟩ →
      ∃ m', draw.run m = (.value (f w), m') ∧ m'.source = x ∧ m.Uses m' 8 log [])
    (items : List α) (h : Serves m.source ws lines y) (hlen : ws.length = items.length) :
    ∃ m', (Draw.each (fun _ => draw) items).run m = (.value (ws.map f), m') ∧ m'.source = y ∧
      m.Uses m' (8 * items.length) lines [] := by
  induction items generalizing m ws lines with
  | nil =>
    obtain rfl := List.length_eq_zero_iff.1 hlen
    cases h
    exact ⟨m, rfl, rfl, ⟨rfl, rfl, rfl, (List.append_nil _).symm, (List.append_nil _).symm⟩⟩
  | cons item items ih =>
    cases h with
    | nil => exact absurd hlen (by simp)
    | @cons _ x _ w ws log lines first rest =>
      obtain ⟨m₁, hrun₁, rfl, huses₁⟩ := hdraw first
      obtain ⟨m₂, hrun₂, hsource, huses₂⟩ := ih rest (Nat.succ.inj hlen)
      refine ⟨m₂, ?_, hsource, ?_⟩
      · rw [Draw.each_cons, Draw.run_bind, hrun₁]
        dsimp only
        rw [Draw.run_bind, hrun₂]
        rfl
      · have huses := huses₁.trans huses₂
        rwa [Nat.add_comm, ← Nat.mul_succ] at huses

theorem run_keep (p : Float) (items : List α) (h : Serves m.source ws lines y) (hlen : ws.length = items.length) :
    ∃ m', (Draw.keep p items).run m = (.value (kept p items ws), m') ∧ m'.source = y ∧ m.Uses m' (8 * items.length) lines [] := by
  obtain ⟨m', hrun, hsource, huses⟩ := run_each_word (f := unitOf) run_unit_done items h hlen
  refine ⟨m', ?_, hsource, huses⟩
  rw [Draw.keep, Draw.map_eq, Draw.run_bind, hrun]
  rfl

end

section
variable [Entropy σ]

/-- **Every item is kept on its own number.** Let `p` be a number from zero to one and `ws` one word for every item of a list.
- The pick reads these words and no more, and returns the items whose own unit number is at most `p`, in list order.
- Another word for one item decides on that item and on no other.
- On the same words a greater probability keeps these items and possibly more; probability one keeps all items.
- Coins of probability `p` on the same words show true for kept items only, and the two decisions differ exactly on the items whose
  number is `p`. So the two lists are the same unless there is such an item.
- Probability zero keeps the items whose number is zero; no coin shows true then. -/
theorem pickByProbability_keeps (h0 : 0.0 ≤ p) (h1 : p ≤ 1.0) (items : List α) (ws : List UInt64)
    (hlen : ws.length = items.length) :
    ((∀ (m : Machine Float σ) (lines : List LogLine) (y : σ), Serves m.source ws lines y →
        ∃ m', (Draw.pickByProbability items p).run m = (.value (kept p items ws), m') ∧ m'.source = y ∧
          m.Uses m' (8 * items.length) lines []) ∧
      kept p items ws = ((items.zip ws).filter fun xw => decide (value (unitOf xw.2) ≤ value p)).map Prod.fst) ∧
    (∀ (i : ℕ) (hi : i < items.length) (w : UInt64), kept p items (ws.set i w) =
      kept p (items.take i) (ws.take i) ++ (if value (unitOf w) ≤ value p then [items[i]] else []) ++
        kept p (items.drop (i + 1)) (ws.drop (i + 1))) ∧
    (∀ q : Float, p ≤ q → q ≤ 1.0 → (kept p items ws).Sublist (kept q items ws)) ∧
    (value p = 1 → kept p items ws = items) ∧
    ((∀ (m : Machine Float σ) (lines : List LogLine) (y : σ), Serves m.source ws lines y →
        ∃ m', (Draw.each (fun _ => Draw.bernoulli p) items).run m = (.value (ws.map (coinOn p)), m') ∧ m'.source = y ∧
          m.Uses m' (8 * items.length) lines []) ∧
      (flagged p items ws).Sublist (kept p items ws) ∧
      (∀ w, keptOn p w ≠ coinOn p w ↔ value (unitOf w) = value p) ∧
      (flagged p items ws = kept p items ws ↔ ∀ w ∈ ws, value (unitOf w) ≠ value p)) ∧
    (value p = 0 → flagged p items ws = [] ∧
      kept p items ws = ((items.zip ws).filter fun xw => decide (value (unitOf xw.2) = 0)).map Prod.fst) := by
  refine ⟨⟨?_, kept_eq_value h0 h1 items ws⟩, ?_, ?_, ?_, ⟨?_, flagged_sublist h0 h1 items ws, keptOn_ne_coin_iff h0 h1,
    flagged_eq_kept_iff h0 h1 hlen⟩, ?_⟩
  · intro m lines y hserves
    have hvalid : (decide (0.0 ≤ p) && decide (p ≤ 1.0)) = true := isProbability_of h0 h1
    rw [Draw.pickByProbability, Draw.require, if_pos hvalid]
    exact run_keep p items hserves hlen
  · intro i hi w
    rw [kept_set hlen p hi w]
    simp only [keptOn_iff h0 h1]
  · intro q hpq hq
    exact kept_sublist h0 h1 hpq hq items ws
  · intro hp
    exact kept_of_one h0 h1 hp hlen
  · intro m lines y hserves
    exact run_each_word (run_bernoulli h0 h1) items hserves hlen
  · intro hp
    exact ⟨flagged_of_zero h0 h1 hp items ws, kept_of_zero h0 h1 hp items ws⟩

end

/-- probability one half on the numbers zero, one half and almost one: the half is kept, and its coin does not show true -/
theorem pickByProbability_keeps_half :
    (0.0 ≤ (0.5 : Float) ∧ (0.5 : Float) ≤ 1.0) ∧
      ∃ m', (Draw.pickByProbability ["a", "b", "z"] 0.5).run
        ({ source := Replay.ofWords [0, 0x8000000000000000, 0xffffffffffffffff], keepsSpare := true } : Machine Float Replay) =
          (.value ["a", "b"], m') ∧ m'.consumed = 24 ∧
        flagged 0.5 ["a", "b", "z"] [0, 0x8000000000000000, 0xffffffffffffffff] = ["a"] := by
  have h0 : 0.0 ≤ (0.5 : Float) := by decide +kernel
  have h1 : (0.5 : Float) ≤ 1.0 := by decide +kernel
  obtain ⟨⟨hrun, -⟩, -⟩ := @pickByProbability_keeps Replay String 0.5 _ h0 h1 ["a", "b", "z"]
    [0, 0x8000000000000000, 0xffffffffffffffff] rfl
  obtain ⟨m', hvalue, -, huses⟩ := hrun
    { source := Replay.ofWords [0, 0x8000000000000000, 0xffffffffffffffff], keepsSpare := true } _ _ (Replay.serves_ofWords _)
  have hkept : kept 0.5 ["a", "b", "z"] [0, 0x8000000000000000, 0xffffffffffffffff] = ["a", "b"] := by decide +kernel
  rw [hkept] at hvalue
  exact ⟨⟨h0, h1⟩, m', hvalue, huses.consumed, by decide +kernel⟩

end Sampling
