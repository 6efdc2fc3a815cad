/-
Weighted samples go by keys.

The unit numbers a sample reads, zeros deleted, go to the positive weights one after the other (`oneByOne_keyed`, by induction on the
weights), so what it ranks are the entries of key and position. A weight of zero has no number, no entry and no part in the sum: the
lists without these weights make the same program (`weightedSample_without_zeros`).

`weightedSample_smallest_keys`: the sample takes the items at the positions of the smallest keys, on every source.
-/
import Sampling.Proofs.OneByOne
import Sampling.Proofs.Ranking
import Sampling.Source.Replay

namespace Sampling

variable {F σ α : Type} [Arith F]

namespace Draw

/-! ## The numbers read -/

/-- the unit numbers of words, zeros deleted -/
def openUnits (words : List UInt64) : List F := (words.map unitOf).filter isNonzero

/-- words that end with the last unit number that is needed: so many other than zero, and no zeros after them -/
structure Provides (F : Type) [Arith F] (words : List UInt64) (count : ℕ) : Prop where
  count_eq : (openUnits words : List F).length = count
  last : ∀ v ∈ words.getLast?, isNonzero (unitOf v : F) = true

theorem openUnits_append (ws ws' : List UInt64) : (openUnits (ws ++ ws') : List F) = openUnits ws ++ openUnits ws' := by
  rw [openUnits, List.map_append, List.filter_append, openUnits, openUnits]

theorem openUnits_eq_nil {ws : List UInt64} (h : ∀ v ∈ ws, isNonzero (unitOf v : F) = false) : (openUnits ws : List F) = [] := by
  rw [openUnits, List.filter_eq_nil_iff]
  intro u hu
  obtain ⟨v, hv, rfl⟩ := List.mem_map.1 hu
  rw [h v hv]
  exact Bool.false_ne_true

theorem Provides.eq_nil {ws : List UInt64} (h : Provides F ws 0) : ws = [] := by
  by_contra hne
  have hlast := h.last (ws.getLast hne) (List.getLast?_eq_getLast_of_ne_nil hne)
  have hmem : (unitOf (ws.getLast hne) : F) ∈ openUnits ws :=
    List.mem_filter.2 ⟨List.mem_map_of_mem (List.getLast_mem hne), hlast⟩
  rw [List.length_eq_zero_iff.1 h.count_eq] at hmem
  cases hmem

/-- the first number that is needed comes after zeros -/
theorem Provides.split {ws : List UInt64} {n : ℕ} (h : Provides F ws (n + 1)) :
    ∃ zeros v rest, ws = zeros ++ [v] ++ rest ∧ (∀ z ∈ zeros, isNonzero (unitOf z : F) = false) ∧
      isNonzero (unitOf v : F) = true ∧ Provides F rest n := by
  have hsome : (ws.find? fun v => isNonzero (unitOf v : F)).isSome = true := by
    rw [List.find?_isSome]
    by_contra hnone
    have hnil : (openUnits ws : List F) = [] := by
      apply openUnits_eq_nil
      intro v hv
      exact Bool.eq_false_of_not_eq_true fun hnonzero => hnone ⟨v, hv, hnonzero⟩
    have hcount := h.count_eq
    rw [hnil] at hcount
    cases hcount
  obtain ⟨v, hv⟩ := Option.isSome_iff_exists.1 hsome
  obtain ⟨hnonzero, zeros, rest, rfl, hzeros⟩ := List.find?_eq_some_iff_append.1 hv
  have hzeros : ∀ z ∈ zeros, isNonzero (unitOf z : F) = false := by
    intro z hz
    rw [← Bool.not_eq_true']
    exact hzeros z hz
  refine ⟨zeros, v, rest, List.append_cons zeros v rest, hzeros, hnonzero, ?_, ?_⟩
  · have hcount := h.count_eq
    rw [List.append_cons, openUnits_append, openUnits_append, openUnits_eq_nil hzeros] at hcount
    have hone : (openUnits [v] : List F) = [unitOf v] := List.filter_cons_of_pos hnonzero
    rw [hone, List.nil_append, List.singleton_append, List.length_cons] at hcount
    exact Nat.succ.inj hcount
  · intro u hu
    refine h.last u ?_
    rw [Option.mem_def] at hu ⊢
    rw [List.append_cons, List.getLast?_append, hu, Option.some_or]

section
variable [Entropy σ]

theorem openUnit_succ (tries : ℕ) : (openUnit (tries + 1) : Draw F F) =
    word.bind fun v => if (0.0 : F) < unitOf v then done (unitOf v) else openUnit tries := by
  rw [openUnit, unit, map_eq, bind_eq, bind_assoc]
  rfl

theorem run_openUnit {zeros : List UInt64} {v : UInt64} (hzeros : ∀ z ∈ zeros, ¬ (0.0 : F) < unitOf z) (hv : (0.0 : F) < unitOf v)
    {m : Machine F σ} {lines : List LogLine} {y : σ} (h : Serves m.source (zeros ++ [v]) lines y) {tries : ℕ}
    (htries : zeros.length < tries) :
    ∃ m', (openUnit tries).run m = (.value (unitOf v), m') ∧ m'.source = y ∧ m.Uses m' (8 * (zeros.length + 1)) lines [] := by
  induction zeros generalizing m lines tries with
  | nil =>
    obtain ⟨tries, rfl⟩ := Nat.exists_eq_succ_of_ne_zero (Nat.ne_zero_of_lt htries)
    cases h with
    | cons first rest =>
      cases rest
      obtain ⟨m', hrun, hsource, huses⟩ := run_word first fun v => if (0.0 : F) < unitOf v then done (unitOf v) else openUnit tries
      rw [if_pos hv] at hrun
      rw [openUnit_succ, List.append_nil]
      exact ⟨m', hrun, hsource, huses⟩
  | cons z zeros ih =>
    obtain ⟨tries, rfl⟩ := Nat.exists_eq_succ_of_ne_zero (Nat.ne_zero_of_lt htries)
    cases h with
    | cons first rest =>
      have hrest : ∀ z ∈ zeros, ¬ (0.0 : F) < unitOf z := fun z' hz' => hzeros z' (List.mem_cons_of_mem z hz')
      obtain ⟨m₁, hword, rfl, huses⟩ := run_word first fun v => if (0.0 : F) < unitOf v then done (unitOf v) else openUnit tries
      rw [if_neg (hzeros z List.mem_cons_self)] at hword
      obtain ⟨m', hrun, hsource, huses'⟩ := ih hrest rest (Nat.lt_of_succ_lt_succ htries)
      have hbytes : 8 + 8 * (zeros.length + 1) = 8 * ((z :: zeros).length + 1) := by
        rw [List.length_cons]
        omega
      have hall := huses.trans huses'
      rw [hbytes] at hall
      rw [openUnit_succ]
      exact ⟨m', hword.trans hrun, hsource, hall⟩

/-- **Every weight has a number of its own**: the first one the first number that is not zero, and so on. -/
theorem oneByOne_keyed (hF : Weighing F) {xs : List (α × F)} {ws : List UInt64} (h : Provides F ws xs.length) {m : Machine F σ}
    {lines : List LogLine} {y : σ} (hserves : Serves m.source ws lines y) {tries : ℕ} (htries : ws.length ≤ tries) :
    ∃ m', OneByOne (keyed tries) m xs (((openUnits ws).zip xs).map fun p => (key p.1 p.2.2, p.2.1)) m' ∧ m'.source = y ∧
      m'.consumed = m.consumed + 8 * ws.length ∧ m'.spare = m.spare := by
  induction xs generalizing m ws lines with
  | nil =>
    obtain rfl := h.eq_nil
    cases hserves
    exact ⟨m, .nil m, rfl, rfl, rfl⟩
  | cons x xs ih =>
    obtain ⟨zeros, v, rest, rfl, hzeros, hv, hrest⟩ := h.split
    rw [List.length_append, List.length_append, List.length_singleton] at htries
    obtain ⟨z, log, log', hfirst, hlater⟩ := hserves.split
    have hnotzero : ∀ u : UInt64, isNonzero (unitOf u : F) = decide ((0.0 : F) < unitOf u) := fun u => hF.isNonzero_eq _ (hF.unit u)
    have hbelow : ∀ z ∈ zeros, ¬ (0.0 : F) < unitOf z := fun z hz => of_decide_eq_false ((hnotzero z).symm.trans (hzeros z hz))
    have habove : (0.0 : F) < unitOf v := of_decide_eq_true ((hnotzero v).symm.trans hv)
    obtain ⟨m₁, hrun, rfl, huses⟩ := run_openUnit hbelow habove hfirst (show zeros.length < tries by omega)
    obtain ⟨m', hturn, hsource, hread, hspare⟩ := ih hrest hlater (by omega)
    have hkeyed : (keyed tries x).run m = (.value (key (unitOf v) x.2, x.1), m₁) := by
      rw [keyed, map_eq, run_bind, hrun]
      rfl
    have hunits : (openUnits (zeros ++ [v] ++ rest) : List F) = unitOf v :: openUnits rest := by
      have hone : (openUnits [v] : List F) = [unitOf v] := List.filter_cons_of_pos hv
      rw [openUnits_append, openUnits_append, openUnits_eq_nil hzeros, hone]
      rfl
    refine ⟨m', ?_, hsource, ?_, hspare.trans huses.spare⟩
    · rw [hunits]
      exact .cons hkeyed hturn
    · rw [hread, huses.consumed, List.length_append, List.length_append, List.length_singleton]
      omega

end

/-! ## Accepted requests -/

/-- items and weights that pair up, an accepted weight list, and as many weights above zero as items are asked for -/
structure Samplable (items : List α) (weights : List F) (k : ℕ) : Prop where
  paired : items.length = weights.length
  accepted : ∃ sum, Weights.total? weights = .ok sum
  enough : k ≤ weights.countP fun w => decide (0.0 < w)

variable {items : List α} {weights : List F} {k : ℕ}

theorem samplable_iff : Samplable items weights k ↔
    items.length = weights.length ∧ (Weights.total? weights).isOk = true ∧ k ≤ weights.countP fun w => decide (0.0 < w) := by
  constructor
  · rintro ⟨hpaired, ⟨sum, hsum⟩, henough⟩
    exact ⟨hpaired, by rw [hsum]; rfl, henough⟩
  · rintro ⟨hpaired, hok, henough⟩
    refine ⟨hpaired, ?_, henough⟩
    cases htotal : Weights.total? weights with
    | error f =>
      rw [htotal] at hok
      cases hok
    | ok sum => exact ⟨sum, rfl⟩

instance : Decidable (Samplable items weights k) := decidable_of_iff' _ samplable_iff

theorem Samplable.isWeight (h : Samplable items weights k) : ∀ w ∈ weights, IsWeight w := by
  obtain ⟨sum, hsum⟩ := h.accepted
  exact (total?_eq_ok_iff.1 hsum).2.1

theorem weightedSample_eq (h : Samplable items weights k) (hk : 1 ≤ k) (tries : ℕ) :
    (weightedSample tries items weights k : Draw F (List α)) =
      (each (keyed tries) (withoutZeros items weights)).bind fun keyed => done ((byKey keyed).take k) := by
  obtain ⟨sum, hsum⟩ := h.accepted
  have hitems : ¬ items.isEmpty = true := by
    intro hempty
    have hlength := h.paired
    rw [List.isEmpty_iff.1 hempty] at hlength
    exact (total?_eq_ok_iff.1 hsum).1 (List.length_eq_zero_iff.1 hlength.symm)
  rw [weightedSample, requirePaired, require, if_pos (beq_iff_eq.2 h.paired), if_neg (Nat.ne_of_gt hk), if_neg hitems, hsum]
  show require _ _ _ = _
  rw [require, if_pos (decide_eq_true h.enough)]
  rfl

theorem length_withoutZeros (hF : Weighing F) (h : Samplable items weights k) :
    (withoutZeros items weights).length = weights.countP fun w => decide (0.0 < w) := by
  have hlength := congrArg List.length (positives_items hF h.paired h.isWeight)
  rw [List.length_map, List.length_map, length_positives] at hlength
  exact hlength.symm

/-! ## Lists without zeros -/

theorem withoutZeros_snd (h : items.length = weights.length) :
    (withoutZeros items weights).map Prod.snd = weights.filter isNonzero := by
  have hfilter := List.filter_map (f := (Prod.snd : α × F → F)) (p := isNonzero) (l := items.zip weights)
  rw [List.map_snd_zip h.ge] at hfilter
  exact hfilter.symm

theorem Samplable.withoutZeros (hF : Weighing F) (h : Samplable items weights k) (hk : 1 ≤ k) :
    Samplable ((withoutZeros items weights).map Prod.fst) ((withoutZeros items weights).map Prod.snd) k := by
  have hcount : (weights.filter isNonzero).countP (fun w => decide (0.0 < w)) = weights.countP fun w => decide (0.0 < w) := by
    rw [List.countP_filter]
    apply List.countP_congr
    intro w hw
    rw [hF.isNonzero_eq w (h.isWeight w hw), Bool.and_self]
  obtain ⟨sum, hsum⟩ := h.accepted
  have hsome : weights.filter isNonzero ≠ [] := by
    intro hnil
    rw [hnil] at hcount
    exact absurd (hk.trans (h.enough.trans hcount.ge)) (Nat.not_succ_le_zero 0)
  rw [withoutZeros_snd h.paired]
  refine ⟨?_, ⟨sum, hF.total?_filter hsum hsome⟩, hcount ▸ h.enough⟩
  rw [← withoutZeros_snd h.paired, List.length_map, List.length_map]

/-- **Zeros make no difference.** Without its weights of zero and their items, an accepted request is the same program. -/
theorem weightedSample_without_zeros (hF : Weighing F) (h : Samplable items weights k) (hk : 1 ≤ k) (tries : ℕ) :
    (weightedSample tries ((withoutZeros items weights).map Prod.fst) ((withoutZeros items weights).map Prod.snd) k :
      Draw F (List α)) = weightedSample tries items weights k := by
  have hzip : ((withoutZeros items weights).map Prod.fst).zip ((withoutZeros items weights).map Prod.snd) =
      withoutZeros items weights := by
    rw [← List.unzip_fst, ← List.unzip_snd, List.zip_unzip]
  have hkept : Draw.withoutZeros ((withoutZeros items weights).map Prod.fst) ((withoutZeros items weights).map Prod.snd) =
      withoutZeros items weights := by
    rw [Draw.withoutZeros, hzip, withoutZeros, List.filter_filter]
    simp only [Bool.and_self]
  rw [weightedSample_eq (h.withoutZeros hF hk) hk, weightedSample_eq h hk, hkept]

/-! ## The sample -/

theorem places_entries {numbers : List F} (h : numbers.length = (positives weights).length) :
    (entries weights numbers).map (·.2) = (positives weights).map (·.2) := by
  have hzip := List.map_snd_zip h.ge
  rw [entries, List.map_map]
  exact (List.map_map (f := Prod.snd) (g := fun w : F × ℕ => w.2)).symm.trans (congrArg _ hzip)

theorem isKey_of_mem_entries (hF : Weighing F) (hweights : ∀ w ∈ weights, IsWeight w) {ws : List UInt64} {e : F × ℕ}
    (h : e ∈ entries weights (openUnits ws)) : IsKey e.1 := by
  obtain ⟨u, hu, w, hw, hpos, hkey⟩ := mem_entries h
  obtain ⟨hmem, hnonzero⟩ := List.mem_filter.1 hu
  obtain ⟨v, -, rfl⟩ := List.mem_map.1 hmem
  rw [hF.isNonzero_eq _ (hF.unit v)] at hnonzero
  exact ⟨v, w, of_decide_eq_true hnonzero, hweights w (List.mem_of_getElem? hw), hpos, hkey⟩

/-- a unit number read is used or a zero -/
theorem length_openUnits_add (ws : List UInt64) :
    ws.length = (openUnits ws : List F).length + ws.countP fun v => (unitOf v : F) == 0.0 := by
  rw [openUnits, ← List.countP_eq_length_filter, List.countP_map, List.length_eq_countP_add_countP]
  congr 1
  apply List.countP_congr
  intro v _
  simp [isNonzero]

section
variable [Entropy σ]

/-- **Weighted samples go by keys.** Let the request be accepted: items and weights pair up, the weights are finite and not below zero,
their sum is finite and above zero, and `k ≥ 1` is at most the number of positive weights.
- On every source, let `ws` be the words up to the one with the last unit number that is needed, which are as many other than zero as
  there are positive weights. The entries pair the positive positions, all of them and in order, with these numbers. The sample
  ends with the items at the positions of `k` entries, in increasing order of their keys, equal keys by position, and all
  other entries come after them. These positions are distinct and their weights positive. Eight bytes are read for every positive
  weight and for every zero that was passed over, and no more; the spare is left alone.
- Without the items whose weights are zeros, of either sign, the sample is the same program: on every machine it ends alike and
  reads the same. -/
theorem weightedSample_smallest_keys (hF : Weighing F) (hkeys : KeysOrdered F) (h : Samplable items weights k) (hk : 1 ≤ k) :
    (∀ (m : Machine F σ) (ws : List UInt64) (lines : List LogLine) (y : σ) (tries : ℕ),
      Provides F ws (weights.countP fun w => decide (0.0 < w)) → Serves m.source ws lines y → ws.length ≤ tries →
      (entries weights (openUnits ws)).map (·.2) = (positives weights).map (·.2) ∧
      ∃ taken chosen m', (weightedSample tries items weights k).run m = (.value taken, m') ∧
        Selects (entries weights (openUnits ws)) k chosen ∧ taken.map some = chosen.map (fun e => items[e.2]?) ∧
        (chosen.map (·.2)).Nodup ∧ (∀ e ∈ chosen, ∃ w, weights[e.2]? = some w ∧ 0.0 < w) ∧
        m'.source = y ∧ m'.spare = m.spare ∧
        m'.consumed = m.consumed +
          8 * ((weights.countP fun w => decide (0.0 < w)) + ws.countP fun v => (unitOf v : F) == 0.0)) ∧
    ∀ tries, (weightedSample tries ((withoutZeros items weights).map Prod.fst) ((withoutZeros items weights).map Prod.snd) k :
      Draw F (List α)) = weightedSample tries items weights k := by
  refine ⟨fun m ws lines y tries hws hserves htries => ?_, fun tries => weightedSample_without_zeros hF h hk tries⟩
  have hnumbers : (openUnits ws : List F).length = (positives weights).length := hws.count_eq.trans (length_positives weights).symm
  have hplaces := places_entries hnumbers
  have hlength : (entries weights (openUnits ws)).length = weights.countP fun w => decide (0.0 < w) := by
    rw [← length_positives, ← List.length_map, hplaces, List.length_map]
  have hsorted := pairwise_entries weights (openUnits ws)
  have hranked := pairwise_ranked hkeys (fun e he => isKey_of_mem_entries hF h.isWeight he) hsorted
  have hselects := selects_take_ranked hranked (h.enough.trans hlength.ge)
  -- the run: one key for every positive weight, then the ranking
  rw [← length_withoutZeros hF h] at hws
  obtain ⟨m', hturn, hsource, hconsumed, hspare⟩ := oneByOne_keyed hF hws hserves htries
  have hrun : (weightedSample tries items weights k).run m =
      (.value ((byKey (keysOf items weights (openUnits ws))).take k), m') := by
    rw [weightedSample_eq h hk, run_bind, hturn.run_each]
    rfl
  refine ⟨hplaces, _, (ranked (entries weights (openUnits ws))).take k, m', hrun, hselects, ?_, ?_, ?_, hsource, hspare, ?_⟩
  · rw [List.map_take, List.map_take, byKey_keysOf hF h.paired h.isWeight]
  · have hnodup : ((entries weights (openUnits ws)).map (·.2)).Nodup := (List.pairwise_map.2 hsorted).imp Nat.ne_of_lt
    have hperm := (ranked_perm (entries weights (openUnits ws))).map (·.2)
    exact (hperm.nodup_iff.2 hnodup).sublist ((List.take_sublist k _).map _)
  · intro e he
    obtain ⟨-, -, w, hw, hpos, -⟩ := mem_entries (hselects.subset he)
    exact ⟨w, hw, hpos⟩
  · rw [hconsumed, length_openUnits_add (F := F) ws, hws.count_eq, length_withoutZeros hF h]

end

/-- a negative zero has no number; the first item's number is redrawn for a zero, and its key is the smaller one -/
theorem weightedSample_smallest_keys_redrawn :
    letI : Arith Float := Binary64.withLn Binary64.lnOfQuarter
    let items := ["z", "a", "b"]
    let weights : List Float := [-0.0, 1.0, 1.0]
    let m : Machine Float Replay :=
      { source := Replay.ofWords [0, 0xc000000000000000, 0x4000000000000000], keepsSpare := true }
    Samplable items weights 2 ∧
      ∃ m', (weightedSample 3 items weights 2).run m = (.value ["a", "b"], m') ∧ m'.consumed = 24 := by
  let _ : Arith Float := Binary64.withLn Binary64.lnOfQuarter
  intro items weights m
  have hrequest : Samplable items weights 2 := by decide +kernel
  have hws : Provides Float [0, 0xc000000000000000, 0x4000000000000000] (weights.countP fun w => decide (0.0 < w)) := by
    refine ⟨?_, fun v hv => ?_⟩
    · decide +kernel
    · cases hv
      decide +kernel
  have hentries : entries weights (openUnits [0, 0xc000000000000000, 0x4000000000000000]) =
      [(0.2876820724517809, 1), (1.3862943611198906, 2)] := by
    decide +kernel
  have hbefore : ¬ Before ((1.3862943611198906, 2) : Float × ℕ) (0.2876820724517809, 1) := by
    unfold Before
    decide +kernel
  have hkeys := Binary64.keysOrdered Binary64.belowZero_lnOfQuarter
  obtain ⟨hsample, -⟩ := @weightedSample_smallest_keys Float Replay String (Binary64.withLn Binary64.lnOfQuarter) items weights 2 _
    (Binary64.weighing _) hkeys hrequest (by decide)
  obtain ⟨-, taken, chosen, m', hrun, hselects, htaken, hnodup, -, -, -, hconsumed⟩ :=
    hsample m _ _ _ 3 hws (Replay.serves_ofWords _) (by decide)
  rw [hentries] at hselects
  obtain ⟨c, c', rfl⟩ := List.length_eq_two.1 hselects.length_eq
  have hincreasing : Before c c' := List.pairwise_pair.1 hselects.increasing
  have hc := hselects.subset List.mem_cons_self
  have hc' := hselects.subset (List.mem_cons_of_mem c List.mem_cons_self)
  have hsame : taken = ["a", "b"] := by
    rcases List.mem_pair.1 hc with rfl | rfl <;> rcases List.mem_pair.1 hc' with rfl | rfl
    · cases hnodup with
      | cons h _ => exact absurd rfl (h _ List.mem_cons_self)
    · exact List.map_injective_iff.2 (Option.some_injective String) htaken
    · exact absurd hincreasing hbefore
    · cases hnodup with
      | cons h _ => exact absurd rfl (h _ List.mem_cons_self)
  rw [hsame] at hrun
  exact ⟨hrequest, m', hrun, hconsumed.trans (by decide +kernel)⟩

end Draw

end Sampling
