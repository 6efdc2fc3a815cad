/-
Ranking positions by keys.

A stable sort keeps the order a list comes in among equals (`pairwise_mergeSort_of_mem`). The keys of a weighted sample come in the
order of the positions, so sorting them by key alone is sorting entries of key and position (`pairwise_ranked`), and the items go
along with their positions (`byKey_keysOf`).
-/
import Sampling.Proofs.Weighing

namespace Sampling

variable {F α β : Type}

/-! ## Stable sorts -/

/-- **Stability.** A sort keeps the order a list comes in among those that compare as equal. -/
theorem pairwise_mergeSort_stable {le : α → α → Bool} (trans : ∀ a b c, le a b = true → le b c = true → le a c = true)
    (total : ∀ a b, (le a b || le b a) = true) {R : α → α → Prop} {l : List α} (hR : l.Pairwise R) :
    (l.mergeSort le).Pairwise fun a b => le a b = true ∧ (le b a = true → R a b) := by
  have hperm := List.mergeSort_perm l.zipIdx (List.zipIdxLE le)
  have hsorted := List.pairwise_mergeSort (List.zipIdxLE_trans trans) (List.zipIdxLE_total total) l.zipIdx
  have hplaces : ((l.zipIdx.mergeSort (List.zipIdxLE le)).map (·.2)).Nodup := by
    rw [(hperm.map (·.2)).nodup_iff, List.zipIdx_map_snd]
    exact List.nodup_range'
  rw [← List.mergeSort_zipIdx, List.pairwise_map]
  refine (hsorted.and (List.pairwise_map.1 hplaces)).imp_of_mem ?_
  rintro ⟨a, i⟩ ⟨b, j⟩ ha hb ⟨hle, hne⟩
  obtain ⟨hi, ha⟩ := List.mem_zipIdx' (hperm.mem_iff.1 ha)
  obtain ⟨hj, hb⟩ := List.mem_zipIdx' (hperm.mem_iff.1 hb)
  unfold List.zipIdxLE at hle
  split at hle
  · rename_i hab
    refine ⟨hab, fun hba => ?_⟩
    rw [if_pos hba, decide_eq_true_iff] at hle
    have hR := List.pairwise_iff_getElem.1 hR i j hi hj (Nat.lt_of_le_of_ne hle hne)
    rwa [← ha, ← hb] at hR
  · cases hle

/-- the same if only the members of the list are known to compare -/
theorem pairwise_mergeSort_of_mem {le : α → α → Bool} {l : List α}
    (trans : ∀ a ∈ l, ∀ b ∈ l, ∀ c ∈ l, le a b = true → le b c = true → le a c = true)
    (total : ∀ a ∈ l, ∀ b ∈ l, (le a b || le b a) = true) {R : α → α → Prop} (hR : l.Pairwise R) :
    (l.mergeSort le).Pairwise fun a b => le a b = true ∧ (le b a = true → R a b) := by
  have hmap : (l.attach.mergeSort fun a b => le a.1 b.1).map Subtype.val = l.mergeSort le := by
    rw [List.map_mergeSort (s := le) fun _ _ _ _ => rfl, List.attach_map_subtype_val]
  have hattach : l.attach.Pairwise fun a b => R a.1 b.1 := by
    rw [← List.pairwise_map, List.attach_map_subtype_val]
    exact hR
  rw [← hmap, List.pairwise_map]
  exact pairwise_mergeSort_stable (fun a b c => trans a.1 a.2 b.1 b.2 c.1 c.2) (fun a b => total a.1 a.2 b.1 b.2) hattach

variable [Arith F]

namespace Draw

theorem byKey_map (f : α → β) (keyed : List (F × α)) : byKey (keyed.map fun e => (e.1, f e.2)) = (byKey keyed).map f := by
  unfold byKey
  rw [List.map_map, ← List.map_mergeSort (f := fun e : F × α => (e.1, f e.2)) fun _ _ _ _ => rfl, List.map_map]
  rfl

/-! ## Entries -/

/-- the positive weights of a list with their positions -/
def positives (weights : List F) : List (F × ℕ) := weights.zipIdx.filter fun w => decide (0.0 < w.1)

/-- the entries of key and position: the first number is for the first positive weight, and so on -/
def entries (weights numbers : List F) : List (F × ℕ) :=
  (numbers.zip (positives weights)).map fun p => (key p.1 p.2.1, p.2.2)

/-- a smaller key, or an equal one at an earlier position -/
def Before (e e' : F × ℕ) : Prop := e.1 < e'.1 ∨ ¬ e'.1 < e.1 ∧ e.2 < e'.2

/-- `k` of the entries, first to last, all the others after them -/
structure Selects (entries : List (F × ℕ)) (k : ℕ) (chosen : List (F × ℕ)) : Prop where
  length_eq : chosen.length = k
  subset : chosen ⊆ entries
  increasing : chosen.Pairwise Before
  smallest : ∀ e ∈ entries, e ∉ chosen → ∀ c ∈ chosen, Before c e

theorem length_positives (weights : List F) : (positives weights).length = weights.countP fun w => decide (0.0 < w) := by
  have hcount := List.countP_map (p := fun w : F => decide (0.0 < w)) (f := Prod.fst) (l := weights.zipIdx)
  rw [List.zipIdx_map_fst] at hcount
  rw [positives, ← List.countP_eq_length_filter, hcount]
  rfl

theorem pairwise_positives (weights : List F) : (positives weights).Pairwise fun w w' => w.2 < w'.2 := by
  have hplaces : weights.zipIdx.Pairwise fun w w' => w.2 < w'.2 := by
    rw [← List.pairwise_map (f := fun w : F × ℕ => w.2), List.zipIdx_map_snd]
    exact List.pairwise_lt_range'
  exact hplaces.sublist List.filter_sublist

theorem mem_positives {weights : List F} {w : F × ℕ} (h : w ∈ positives weights) : weights[w.2]? = some w.1 ∧ 0.0 < w.1 := by
  obtain ⟨hmem, hpos⟩ := List.mem_filter.1 h
  exact ⟨List.mem_zipIdx_iff_getElem?.1 hmem, of_decide_eq_true hpos⟩

theorem pairwise_entries (weights numbers : List F) : (entries weights numbers).Pairwise fun e e' => e.2 < e'.2 := by
  rw [List.pairwise_iff_getElem]
  intro i j hi hj hij
  have hpositives := List.pairwise_iff_getElem.1 (pairwise_positives weights)
  simp only [entries, List.getElem_map, List.getElem_zip]
  exact hpositives _ _ _ _ hij

theorem mem_entries {weights numbers : List F} {e : F × ℕ} (h : e ∈ entries weights numbers) :
    ∃ u ∈ numbers, ∃ w, weights[e.2]? = some w ∧ 0.0 < w ∧ e.1 = key u w := by
  obtain ⟨p, hp, rfl⟩ := List.mem_map.1 h
  obtain ⟨hu, hw⟩ := List.of_mem_zip hp
  obtain ⟨hplace, hpos⟩ := mem_positives hw
  exact ⟨p.1, hu, p.2.1, hplace, hpos, rfl⟩

/-- the entries, smallest first -/
def ranked (entries : List (F × ℕ)) : List (F × ℕ) := entries.mergeSort fun a b => !decide (b.1 < a.1)

theorem byKey_eq_ranked (es : List (F × ℕ)) : byKey es = (ranked es).map (·.2) := rfl

/-- **The ranking is by key, then by position.** -/
theorem pairwise_ranked (hF : KeysOrdered F) {es : List (F × ℕ)} (hkeys : ∀ e ∈ es, IsKey e.1)
    (hplaces : es.Pairwise fun e e' => e.2 < e'.2) : (ranked es).Pairwise Before := by
  have htrans : ∀ a ∈ es, ∀ b ∈ es, ∀ c ∈ es, (!decide (b.1 < a.1)) = true → (!decide (c.1 < b.1)) = true →
      (!decide (c.1 < a.1)) = true := by
    intro a ha b hb c hc hba hcb
    rw [Bool.not_eq_true', decide_eq_false_iff_not] at hba hcb ⊢
    exact hF.trans a.1 b.1 c.1 (hkeys a ha) (hkeys b hb) (hkeys c hc) hba hcb
  have htotal : ∀ a ∈ es, ∀ b ∈ es, ((!decide (b.1 < a.1)) || !decide (a.1 < b.1)) = true := by
    intro a ha b hb
    rw [Bool.or_eq_true, Bool.not_eq_true', Bool.not_eq_true', decide_eq_false_iff_not, decide_eq_false_iff_not, or_iff_not_imp_left,
      not_not]
    exact hF.asymm b.1 a.1 (hkeys b hb) (hkeys a ha)
  refine (pairwise_mergeSort_of_mem htrans htotal hplaces).imp fun {a b} h => ?_
  obtain ⟨hle, hties⟩ := h
  rw [Bool.not_eq_true', decide_eq_false_iff_not] at hle hties
  by_cases hlt : a.1 < b.1
  · exact Or.inl hlt
  · exact Or.inr ⟨hle, hties hlt⟩

theorem ranked_perm (es : List (F × ℕ)) : (ranked es).Perm es := List.mergeSort_perm es _

theorem selects_take_ranked {es : List (F × ℕ)} (h : (ranked es).Pairwise Before) {k : ℕ} (hk : k ≤ es.length) :
    Selects es k ((ranked es).take k) := by
  refine ⟨?_, ?_, ?_, ?_⟩
  · rw [List.length_take, (ranked_perm es).length_eq, Nat.min_eq_left hk]
  · intro e he
    exact (ranked_perm es).subset (List.mem_of_mem_take he)
  · exact h.sublist (List.take_sublist k _)
  · intro e he hrest c hc
    have hsplit : e ∈ (ranked es).take k ++ (ranked es).drop k := by
      rw [List.take_append_drop]
      exact (ranked_perm es).mem_iff.2 he
    exact h.rel_of_mem_take_of_mem_drop hc ((List.mem_append.1 hsplit).resolve_left hrest)

/-! ## Items and positions -/

/-- the items of weights other than zero, with these weights -/
def withoutZeros (items : List α) (weights : List F) : List (α × F) := (items.zip weights).filter fun item => isNonzero item.2

/-- the keys of these items: the first number is for the first item, and so on -/
def keysOf (items : List α) (weights numbers : List F) : List (F × α) :=
  (numbers.zip (withoutZeros items weights)).map fun p => (key p.1 p.2.2, p.2.1)

variable {items : List α} {weights : List F}

/-- the items of weights above zero stand at the positions of these weights -/
theorem positives_items (hF : Weighing F) (hlength : items.length = weights.length) (hweights : ∀ w ∈ weights, IsWeight w) :
    (positives weights).map (fun w => (items[w.2]?, w.1)) =
      (withoutZeros items weights).map fun item => (some item.1, item.2) := by
  have hall : weights.zipIdx.map (fun w => (items[w.2]?, w.1)) = (items.zip weights).map fun item => (some item.1, item.2) := by
    apply List.ext_getElem
    · rw [List.length_map, List.length_map, List.length_zipIdx, List.length_zip, hlength, Nat.min_self]
    · intro i hi hi'
      rw [List.length_map, List.length_zipIdx, ← hlength] at hi
      simp only [List.getElem_map, List.getElem_zipIdx, List.getElem_zip, Nat.zero_add, List.getElem?_eq_getElem hi]
  have hpositive : withoutZeros items weights = (items.zip weights).filter fun item => decide (0.0 < item.2) := by
    apply List.filter_congr
    intro item hitem
    exact hF.isNonzero_eq item.2 (hweights item.2 (List.of_mem_zip hitem).2)
  have hfilter := congrArg (List.filter fun p : Option α × F => decide (0.0 < p.2)) hall
  rw [List.filter_map, List.filter_map] at hfilter
  rw [hpositive]
  exact hfilter

/-- keys of items are keys of positions, once the items are looked up -/
theorem keysOf_entries (hF : Weighing F) (hlength : items.length = weights.length) (hweights : ∀ w ∈ weights, IsWeight w)
    (numbers : List F) :
    (keysOf items weights numbers).map (fun e => (e.1, some e.2)) =
      (entries weights numbers).map fun e => (e.1, items[e.2]?) := by
  have hitems := positives_items hF hlength hweights
  calc (keysOf items weights numbers).map (fun e => (e.1, some e.2))
      = (numbers.zip ((withoutZeros items weights).map fun item => (some item.1, item.2))).map fun p => (key p.1 p.2.2, p.2.1) := by
        rw [List.zip_map_right, List.map_map, keysOf, List.map_map]
        rfl
    _ = (numbers.zip ((positives weights).map fun w => (items[w.2]?, w.1))).map fun p => (key p.1 p.2.2, p.2.1) := by
        rw [hitems]
    _ = (entries weights numbers).map fun e => (e.1, items[e.2]?) := by
        rw [List.zip_map_right, List.map_map, entries, List.map_map]
        rfl

/-- **The items go along with their positions.** -/
theorem byKey_keysOf (hF : Weighing F) (hlength : items.length = weights.length) (hweights : ∀ w ∈ weights, IsWeight w)
    (numbers : List F) :
    (byKey (keysOf items weights numbers)).map some = (ranked (entries weights numbers)).map fun e => items[e.2]? := by
  rw [← byKey_map, keysOf_entries hF hlength hweights, byKey_map (fun i => items[i]?), byKey_eq_ranked, List.map_map]
  rfl

end Draw

end Sampling
