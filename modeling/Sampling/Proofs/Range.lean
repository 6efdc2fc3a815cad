/-
Ranges favour no value.

A range adds a bounded draw below its span to its lower end, all in wrapping 64-bit arithmetic. Two facts settle the arithmetic:
the span is the number of values, unless it wraps to zero on the full domain (`toNat_span_of_ne_zero`, `span_eq_zero_iff`), and an
offset below the span does not leave the range (`toInt_offset`). With them a range inherits what is known of bounded draws: its
values are in bounds (`ensures_between`), each is made of equally many words (`ncard_valueOf`), and as the draw sees the span only,
moving both ends moves the value (`run_between_shifted`).

`between_even`: all of it together, for every range.
-/
import Sampling.Proofs.Unbiased

namespace Sampling

variable {F σ α β : Type}

/-! ## Signed words -/

theorem toNat_toUInt64 (x : Int64) : (x.toUInt64.toNat : Int) = x.toInt % 2 ^ 64 := by
  have hword : x.toInt = if 2 * x.toUInt64.toNat < 2 ^ 64 then (x.toUInt64.toNat : Int) else x.toUInt64.toNat - 2 ^ 64 :=
    x.toBitVec.toInt_eq_toNat_cond
  have hlt := x.toUInt64.toNat_lt
  split at hword <;> omega

/-- a word is read as the signed number it is congruent to -/
theorem toInt_toInt64_of_mod {u : UInt64} {z : Int} (hlo : -2 ^ 63 ≤ z) (hhi : z < 2 ^ 63) (h : (u.toNat : Int) = z % 2 ^ 64) :
    u.toInt64.toInt = z := by
  have hu := toNat_toUInt64 u.toInt64
  rw [show u.toInt64.toUInt64 = u from rfl] at hu
  have hle := u.toInt64.le_toInt
  have hlt := u.toInt64.toInt_lt
  omega

namespace Draw

/-! ## The span -/

variable {min max min' max' : Int64}

theorem toNat_span (min max : Int64) : ((span min max).toNat : Int) = (max.toInt - min.toInt + 1) % 2 ^ 64 := by
  have hmin := toNat_toUInt64 min
  have hmax := toNat_toUInt64 max
  have hlt := min.toUInt64.toNat_lt
  rw [span, UInt64.toNat_add, UInt64.toNat_sub, UInt64.toNat_one]
  omega

theorem span_eq_zero_iff (h : min ≤ max) : span min max = 0 ↔ min = Int64.minValue ∧ max = Int64.maxValue := by
  have hspan := toNat_span min max
  have hle := Int64.le_iff_toInt_le.1 h
  have hmin := min.le_toInt
  have hmax := max.toInt_lt
  rw [← UInt64.toNat_inj, ← Int64.toInt_inj, ← Int64.toInt_inj, Int64.toInt_minValue, Int64.toInt_maxValue, UInt64.toNat_zero]
  omega

theorem toNat_span_of_ne_zero (h : min ≤ max) (hs : span min max ≠ 0) :
    ((span min max).toNat : Int) = max.toInt - min.toInt + 1 := by
  have hspan := toNat_span min max
  have hle := Int64.le_iff_toInt_le.1 h
  have hmin := min.le_toInt
  have hmax := max.toInt_lt
  have hpos : (span min max).toNat ≠ 0 := fun h0 => hs (UInt64.toNat_inj.1 h0)
  omega

theorem span_shifted {c : Int} (hmin : min'.toInt = min.toInt + c) (hmax : max'.toInt = max.toInt + c) :
    span min' max' = span min max := by
  have hspan := toNat_span min max
  have hspan' := toNat_span min' max'
  have hwidth : max'.toInt - min'.toInt + 1 = max.toInt - min.toInt + 1 := by omega
  rw [hwidth] at hspan'
  exact UInt64.toNat_inj.1 (Int.ofNat.inj (hspan'.trans hspan.symm))

/-! ## Offsets -/

theorem toInt_offset (h : min ≤ max) {offset : UInt64} (ho : offset < span min max) :
    (min.toUInt64 + offset).toInt64.toInt = min.toInt + offset.toNat ∧ min.toInt + offset.toNat ≤ max.toInt := by
  have hs : span min max ≠ 0 := fun h0 => UInt64.not_lt_zero (h0 ▸ ho)
  have hspan := toNat_span_of_ne_zero h hs
  have hlt := UInt64.lt_iff_toNat_lt.1 ho
  have hmin := min.le_toInt
  have hmax := max.toInt_lt
  have hword := toNat_toUInt64 min
  have hbound : min.toInt + offset.toNat ≤ max.toInt := by omega
  refine ⟨toInt_toInt64_of_mod (by omega) (by omega) ?_, hbound⟩
  rw [UInt64.toNat_add]
  omega

theorem offset_mem (h : min ≤ max) {offset : UInt64} (ho : offset < span min max) :
    min ≤ (min.toUInt64 + offset).toInt64 ∧ (min.toUInt64 + offset).toInt64 ≤ max := by
  obtain ⟨hvalue, hbound⟩ := toInt_offset h ho
  rw [Int64.le_iff_toInt_le, Int64.le_iff_toInt_le, hvalue]
  omega

theorem sub_lt_span {v : Int64} (hs : span min max ≠ 0) (hmin : min ≤ v) (hmax : v ≤ max) :
    v.toUInt64 - min.toUInt64 < span min max := by
  have hle := Int64.le_iff_toInt_le.1 hmin
  have hle' := Int64.le_iff_toInt_le.1 hmax
  have hspan := toNat_span_of_ne_zero (Int64.le_iff_toInt_le.2 (hle.trans hle')) hs
  have hword := toNat_toUInt64 min
  have hword' := toNat_toUInt64 v
  have hlt := min.toUInt64.toNat_lt
  have hlow := min.le_toInt
  have hhigh := max.toInt_lt
  rw [UInt64.lt_iff_toNat_lt, UInt64.toNat_sub]
  omega

/-! ## The words of a range -/

/-- is the value of a range made of this word? the full domain takes every word, other ranges redraw some -/
def Accepts (min max : Int64) (u : UInt64) : Prop := span min max = 0 ∨ u < acceptLimit (span min max)

/-- the value a range makes of a word it accepts -/
def valueOf (min max : Int64) (u : UInt64) : Int64 :=
  if span min max = 0 then u.toInt64 else (min.toUInt64 + u % span min max).toInt64

/-- how many words make each value of a range -/
def share (min max : Int64) : Nat :=
  if span min max = 0 then 1 else (acceptLimit (span min max)).toNat / (span min max).toNat

theorem full_mem (h : min ≤ max) (hs : span min max = 0) (v : Int64) : min ≤ v ∧ v ≤ max := by
  obtain ⟨rfl, rfl⟩ := (span_eq_zero_iff h).1 hs
  rw [Int64.le_iff_toInt_le, Int64.le_iff_toInt_le]
  exact ⟨v.minValue_le_toInt, v.toInt_le⟩

theorem valueOf_mem (h : min ≤ max) (u : UInt64) : min ≤ valueOf min max u ∧ valueOf min max u ≤ max := by
  unfold valueOf
  split
  · rename_i hs
    exact full_mem h hs _
  · rename_i hs
    exact offset_mem h (UInt64.mod_lt _ (UInt64.pos_iff_ne_zero.2 hs))

theorem share_pos (min max : Int64) : 0 < share min max := by
  unfold share
  split
  · exact Nat.one_pos
  · rename_i hs
    have hpos : 0 < (span min max).toNat := Nat.pos_of_ne_zero fun h0 => hs (UInt64.toNat_inj.1 h0)
    exact Nat.div_pos (Nat.le_of_dvd (acceptLimit_pos hs) (dvd_acceptLimit _)) hpos

/-- **No value is favoured.** Every value of a range is made of equally many accepted words. -/
theorem ncard_valueOf {v : Int64} (hmin : min ≤ v) (hmax : v ≤ max) :
    Set.ncard {u : UInt64 | Accepts min max u ∧ valueOf min max u = v} = share min max := by
  by_cases hs : span min max = 0
  · have hwords : {u : UInt64 | Accepts min max u ∧ valueOf min max u = v} = {v.toUInt64} := by
      ext u
      simp only [Accepts, valueOf, hs, if_true, true_or, true_and, Set.mem_ofPred_eq, Set.mem_singleton_iff]
      exact ⟨fun hu => hu ▸ rfl, fun hu => hu ▸ rfl⟩
    rw [hwords, Set.ncard_singleton, share, if_pos hs]
  · have hwords : {u : UInt64 | Accepts min max u ∧ valueOf min max u = v} =
        {u : UInt64 | u < acceptLimit (span min max) ∧ u % span min max = v.toUInt64 - min.toUInt64} := by
      ext u
      simp only [Accepts, valueOf, hs, if_false, false_or, Set.mem_ofPred_eq]
      refine and_congr_right fun _ => ⟨fun hu => ?_, fun hu => ?_⟩
      · rw [← hu, UInt64.toUInt64_toInt64, UInt64.add_comm, UInt64.add_sub_cancel]
      · rw [hu, UInt64.add_comm, UInt64.sub_add_cancel, Int64.toInt64_toUInt64]
    rw [hwords, ncard_residue (sub_lt_span hs hmin hmax), share, if_neg hs]

/-! ## Drawing from a range -/

theorem between_of_span_eq_zero (h : min ≤ max) (hs : span min max = 0) (tries : Nat) :
    (between tries min max : Draw F Int64) = word.bind fun u => done u.toInt64 := by
  rw [between, require, if_pos (decide_eq_true h), if_pos hs, map_eq]

theorem between_of_span_ne_zero (h : min ≤ max) (hs : span min max ≠ 0) (tries : Nat) :
    (between tries min max : Draw F Int64) =
      (belowFrom (span min max) tries 0).bind fun offset => done (min.toUInt64 + offset).toInt64 := by
  rw [between, require, if_pos (decide_eq_true h), if_neg hs, wordBelow_of_ne_zero hs, map_eq]

theorem ensures_between (h : min ≤ max) (tries : Nat) :
    (between tries min max : Draw F Int64).Ensures False (fun _ => False) fun v => min ≤ v ∧ v ≤ max := by
  by_cases hs : span min max = 0
  · have hword : (word : Draw F UInt64).Ensures False (fun _ => False) fun _ => True := .fill fun _ _ => .done trivial
    rw [between_of_span_eq_zero h hs]
    exact hword.bind fun u _ => .done (full_mem h hs _)
  · rw [between_of_span_ne_zero h hs]
    exact (ensures_belowFrom hs tries 0).bind fun offset ho => .done (offset_mem h ho)

variable [Entropy σ] [Arith F]

/-- **Drawing from a range.** Words that are not accepted are passed over; the first one that is makes the value. -/
theorem run_between (h : min ≤ max) {rejected : List UInt64} {w : UInt64} (hrejected : ∀ u ∈ rejected, ¬ Accepts min max u)
    (hw : Accepts min max w) {m : Machine F σ} {lines : List LogLine} {y : σ} (hserves : Serves m.source (rejected ++ [w]) lines y)
    {tries : Nat} (htries : rejected.length < tries) :
    ∃ m', (between tries min max).run m = (.value (valueOf min max w), m') ∧ m'.source = y ∧
      m'.consumed = m.consumed + 8 * (rejected.length + 1) ∧ m'.spare = m.spare := by
  by_cases hs : span min max = 0
  · -- the full domain passes over nothing
    obtain rfl : rejected = [] := List.eq_nil_iff_forall_not_mem.2 fun u hu => hrejected u hu (Or.inl hs)
    cases hserves with
    | cons first rest =>
      cases rest
      obtain ⟨m', hrun, hsource, huses⟩ := run_word first fun u => (done u.toInt64 : Draw F Int64)
      refine ⟨m', ?_, hsource, huses.consumed, huses.spare⟩
      rw [between_of_span_eq_zero h hs, hrun, valueOf, if_pos hs]
      rfl
  · have hlimit : ∀ u ∈ rejected, acceptLimit (span min max) ≤ u := fun u hu =>
      UInt64.not_lt.1 fun hlt => hrejected u hu (Or.inr hlt)
    obtain ⟨m', hrun, hsource, huses⟩ := run_belowFrom hlimit (hw.resolve_left hs) hserves htries 0
    refine ⟨m', ?_, hsource, huses.consumed, huses.spare⟩
    rw [between_of_span_ne_zero h hs, run_bind, hrun, valueOf, if_neg hs]
    rfl

end Draw

/-! ## Moving a range -/

/-- the same ending, a value moved by `c` -/
inductive Outcome.ShiftedBy (c : Int) : Outcome F Int64 → Outcome F Int64 → Prop where
  | value {v v' : Int64} (h : v'.toInt = v.toInt + c) : ShiftedBy c (.value v) (.value v')
  | failed (e : Error F) : ShiftedBy c (.failed e) (.failed e)
  | stuck : ShiftedBy c .stuck .stuck

namespace Draw

variable {min max min' max' : Int64} [Entropy σ] [Arith F]

/-- **Moving a range moves the value.** A range other than the full domain and the range moved by `c` end alike on every machine,
with the value moved by `c`, and leave the machine alike: the draw sees the span only. -/
theorem run_between_shifted (h : min ≤ max) (hs : span min max ≠ 0) {c : Int} (hmin : min'.toInt = min.toInt + c)
    (hmax : max'.toInt = max.toInt + c) (tries : Nat) (m : Machine F σ) :
    ((between tries min max).run m).1.ShiftedBy c ((between tries min' max').run m).1 ∧
      ((between tries min' max').run m).2 = ((between tries min max).run m).2 := by
  have hspan := span_shifted hmin hmax
  have h' : min' ≤ max' := by
    have hle := Int64.le_iff_toInt_le.1 h
    rw [Int64.le_iff_toInt_le]
    omega
  have hbelow := run_ensures (ensures_belowFrom (F := F) hs tries 0) m
  rw [between_of_span_ne_zero h hs, between_of_span_ne_zero h' (hspan ▸ hs), hspan, run_bind, run_bind]
  rcases hrun : (belowFrom (span min max) tries 0 : Draw F UInt64).run m with ⟨offset | e | _, m'⟩
  · rw [hrun] at hbelow
    refine ⟨.value ?_, rfl⟩
    rw [(toInt_offset h hbelow).1, (toInt_offset h' (hspan.symm ▸ hbelow)).1, hmin]
    omega
  · exact ⟨.failed e, rfl⟩
  · exact ⟨.stuck, rfl⟩

/-- **Ranges favour no value.** Let `min` be at most `max`.
- The span is zero only for the full domain; otherwise it is the number of values, `max - min + 1`.
- Whatever the source does, a value drawn is in bounds.
- On a source that serves any words that are not accepted and then one that is, the draw ends with the value of that last word,
  which is in bounds, and has read these words and no more. The tries only have to outnumber the words passed over.
- Every value of the range is made of equally many accepted words, and of at least one. On the full domain every word is accepted,
  and each value is made of one word.
- A range other than the full domain can be moved by any `c` that keeps both ends in 64 bits: on every machine, the draw from the
  range moved ends as the draw from the range does, with the value moved by `c`, and the same bytes are read. -/
theorem between_even (h : min ≤ max) :
    ((span min max = 0 ↔ min = Int64.minValue ∧ max = Int64.maxValue) ∧
      (span min max ≠ 0 → ((span min max).toNat : Int) = max.toInt - min.toInt + 1)) ∧
    (∀ (m : Machine F σ) (tries : Nat) (v : Int64), ((between tries min max).run m).1 = .value v → min ≤ v ∧ v ≤ max) ∧
    (∀ (m : Machine F σ) (rejected : List UInt64) (w : UInt64) (lines : List LogLine) (y : σ) (tries : Nat),
      (∀ u ∈ rejected, ¬ Accepts min max u) → Accepts min max w → Serves m.source (rejected ++ [w]) lines y →
      rejected.length < tries →
      (∃ m', (between tries min max).run m = (.value (valueOf min max w), m') ∧ m'.source = y ∧
        m'.consumed = m.consumed + 8 * (rejected.length + 1) ∧ m'.spare = m.spare) ∧
      min ≤ valueOf min max w ∧ valueOf min max w ≤ max) ∧
    (0 < share min max ∧
      (∀ v, min ≤ v → v ≤ max → Set.ncard {u : UInt64 | Accepts min max u ∧ valueOf min max u = v} = share min max) ∧
      (min = Int64.minValue ∧ max = Int64.maxValue → share min max = 1 ∧ ∀ u, Accepts min max u)) ∧
    ∀ (c : Int) (min' max' : Int64), ¬ (min = Int64.minValue ∧ max = Int64.maxValue) → min'.toInt = min.toInt + c →
      max'.toInt = max.toInt + c → ∀ (tries : Nat) (m : Machine F σ),
      ((between tries min max).run m).1.ShiftedBy c ((between tries min' max').run m).1 ∧
        ((between tries min' max').run m).2 = ((between tries min max).run m).2 := by
  refine ⟨⟨span_eq_zero_iff h, toNat_span_of_ne_zero h⟩, ?_, ?_, ⟨share_pos min max, ?_, ?_⟩, ?_⟩
  · intro m tries v hv
    have hsatisfies := run_ensures (ensures_between h tries) m
    rw [hv] at hsatisfies
    exact hsatisfies
  · intro m rejected w lines y tries hrejected hw hserves htries
    exact ⟨run_between h hrejected hw hserves htries, valueOf_mem h w⟩
  · intro v hmin hmax
    exact ncard_valueOf hmin hmax
  · intro hfull
    have hs := (span_eq_zero_iff h).2 hfull
    exact ⟨if_pos hs, fun u => Or.inl hs⟩
  · intro c min' max' hfull hmin hmax tries m
    have hs : span min max ≠ 0 := fun hs => hfull ((span_eq_zero_iff h).1 hs)
    exact run_between_shifted h hs hmin hmax tries m

/-- ten values around zero: the largest word is passed over, and the range moved by a hundred draws the value moved by a hundred -/
theorem between_even_around_zero :
    let m : Machine Float Replay := { source := Replay.ofWords [0xffffffffffffffff, 12], keepsSpare := true }
    (-5 : Int64) ≤ 4 ∧ (∃ m', (between 2 (-5) 4).run m = (.value (-3), m') ∧ m'.consumed = 16) ∧
      ((between 2 (-5) 4).run m).1.ShiftedBy 100 ((between 2 95 104).run m).1 ∧
      Set.ncard {u : UInt64 | Accepts (-5) 4 u ∧ valueOf (-5) 4 u = -3} = 1844674407370955161 := by
  intro m
  have h : (-5 : Int64) ≤ 4 := by decide
  obtain ⟨-, -, hserved, ⟨-, hshare, -⟩, hshifted⟩ := between_even (F := Float) (σ := Replay) h
  have hrejected : ∀ u ∈ [0xffffffffffffffff], ¬ Accepts (-5) 4 u := by
    intro u hu
    rw [List.mem_singleton.1 hu]
    exact not_or_intro (by decide) (by decide)
  obtain ⟨⟨m', hrun, -, hconsumed, -⟩, -⟩ :=
    hserved m _ 12 [] _ 2 hrejected (Or.inr (by decide)) (Replay.serves_ofWords _) (by decide)
  exact ⟨h, ⟨m', hrun, hconsumed⟩, (hshifted 100 95 104 (by decide) (by decide) (by decide) 2 m).1,
    hshare (-3) (by decide) (by decide)⟩

end Draw

end Sampling
