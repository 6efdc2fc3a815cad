/-
A clock shifted by a normal number of seconds is exact to the nanosecond.

An instant is shifted field by field, with a carry or a borrow between nanoseconds and seconds, and each of the two steps may leave
the 64-bit seconds. The exact count of nanoseconds decides both: shifting gives the instant of the exact count
(`later?_eq`, `earlier?_eq`), and a count has an instant exactly if its floored seconds are a 64-bit integer
(`ofTotal?_eq_none_iff`). No first step fails that the second would have made good, since the two fields move the same way.

The span of a number of seconds is its size in nanoseconds, rounded once to the nearest even (`total_of_ofSeconds?`); it is missing
for sizes of `2 ^ 64` seconds and more and for what is not finite (`ofSeconds?_eq_none_iff`).
-/
import Sampling.Distribution.Continuous
import Sampling.Source.Replay
import Sampling.Proofs.SignedNumbers
import Sampling.Proofs.WordStream

namespace Sampling

open Float.Model Float.Model.UnpackedFloat

/-! ## Counts of nanoseconds -/

namespace Instant

/-- are the floored seconds of a count of nanoseconds a 64-bit integer? -/
def InReach (n : ℤ) : Prop := Int64.minValue.toInt ≤ n / nanosPerSecond ∧ n / nanosPerSecond ≤ Int64.maxValue.toInt

instance (n : ℤ) : Decidable (InReach n) := inferInstanceAs (Decidable (_ ∧ _))

def ofTotal? (n : ℤ) : Option Instant := make? (n / nanosPerSecond) (n % nanosPerSecond).toNat

theorem seconds?_eq_some_iff {z : ℤ} {s : Int64} : seconds? z = some s ↔ s.toInt = z := by
  have hmin := Int64.le_toInt s
  have hmax := Int64.toInt_lt s
  constructor
  · intro h
    unfold seconds? at h
    split_ifs at h with hz
    cases h
    apply Int64.toInt_ofInt_of_le
    · exact hz.1
    · have hlt : Int64.maxValue.toInt < 2 ^ 63 := by decide
      exact hz.2.trans_lt hlt
  · rintro rfl
    have hz : Int64.minValue.toInt ≤ s.toInt ∧ s.toInt ≤ Int64.maxValue.toInt :=
      ⟨hmin, Int.le_of_lt_add_one hmax⟩
    rw [seconds?, if_pos hz, Int64.ofInt_toInt]

theorem seconds?_eq_none_iff {z : ℤ} : seconds? z = none ↔ ¬ (Int64.minValue.toInt ≤ z ∧ z ≤ Int64.maxValue.toInt) := by
  simp [seconds?]

theorem total_ediv (t : Instant) : t.total / nanosPerSecond = t.seconds.toInt := by
  have hn := t.nanos_lt
  simp only [total, nanosPerSecond] at hn ⊢
  omega

theorem total_emod (t : Instant) : t.total % nanosPerSecond = t.nanos := by
  have hn := t.nanos_lt
  simp only [total, nanosPerSecond] at hn ⊢
  omega

theorem ofTotal?_total (t : Instant) : ofTotal? t.total = some t := by
  rw [ofTotal?, total_ediv, total_emod, Int.toNat_natCast, make?, seconds?_eq_some_iff.2 rfl]
  exact dif_pos t.nanos_lt

theorem emod_toNat_lt (n : ℤ) : (n % nanosPerSecond).toNat < nanosPerSecond := by
  simp only [nanosPerSecond]
  omega

theorem ofTotal?_eq_some_iff {n : ℤ} {t : Instant} : ofTotal? n = some t ↔ t.total = n := by
  constructor
  · intro h
    unfold ofTotal? make? at h
    cases hs : seconds? (n / nanosPerSecond) with
    | none =>
      rw [hs] at h
      cases h
    | some s =>
      rw [hs] at h
      dsimp only at h
      rw [dif_pos (emod_toNat_lt n), Option.some.injEq] at h
      have hseconds := seconds?_eq_some_iff.1 hs
      rw [← h, total, hseconds]
      simp only [nanosPerSecond]
      omega
  · rintro rfl
    exact ofTotal?_total t

/-- **Every count in reach has its instant**, and no other has one. -/
theorem ofTotal?_eq_none_iff {n : ℤ} : ofTotal? n = none ↔ ¬ InReach n := by
  unfold InReach
  rw [← seconds?_eq_none_iff, ofTotal?, make?]
  cases seconds? (n / nanosPerSecond) with
  | none => simp
  | some s => simp [dif_pos (emod_toNat_lt n)]

theorem make?_eq_ofTotal? {n z : ℤ} {k : ℕ} (hk : k < nanosPerSecond) (h : n = z * nanosPerSecond + k) :
    make? z k = ofTotal? n := by
  have hdiv : n / nanosPerSecond = z := by
    simp only [nanosPerSecond] at h hk ⊢
    omega
  have hmod : (n % nanosPerSecond).toNat = k := by
    simp only [nanosPerSecond] at h hk ⊢
    omega
  rw [ofTotal?, hdiv, hmod]

/-! ## Shifts -/

/-- **A span later is the exact sum.** -/
theorem later?_eq (t : Instant) (d : Span) : t.later? d = ofTotal? (t.total + d.total) := by
  have ht : t.nanos < 1000000000 := t.nanos_lt
  have hd : d.nanos < 1000000000 := d.nanos_lt
  unfold later?
  cases hs : seconds? (t.seconds.toInt + d.seconds) with
  | none =>
    -- the seconds are too many already, and nanoseconds only add to them
    have hmin : Int64.minValue.toInt ≤ t.seconds.toInt := Int64.le_toInt t.seconds
    rw [seconds?_eq_none_iff] at hs
    symm
    rw [ofTotal?_eq_none_iff, InReach]
    simp only [total, Span.total, nanosPerSecond]
    omega
  | some s =>
    have hseconds := seconds?_eq_some_iff.1 hs
    dsimp only
    split_ifs with hcarry
    · apply make?_eq_ofTotal? hcarry
      simp only [total, Span.total, hseconds, nanosPerSecond]
      omega
    · apply make?_eq_ofTotal?
      · simp only [nanosPerSecond]
        omega
      · simp only [total, Span.total, hseconds, nanosPerSecond] at hcarry ⊢
        omega

/-- **A span earlier is the exact difference.** -/
theorem earlier?_eq (t : Instant) (d : Span) : t.earlier? d = ofTotal? (t.total - d.total) := by
  have ht : t.nanos < 1000000000 := t.nanos_lt
  have hd : d.nanos < 1000000000 := d.nanos_lt
  unfold earlier?
  cases hs : seconds? (t.seconds.toInt - d.seconds) with
  | none =>
    -- the seconds are too few already, and nanoseconds only take from them
    have hmax : t.seconds.toInt ≤ Int64.maxValue.toInt := Int.le_of_lt_add_one (Int64.toInt_lt t.seconds)
    rw [seconds?_eq_none_iff] at hs
    symm
    rw [ofTotal?_eq_none_iff, InReach]
    simp only [total, Span.total, nanosPerSecond]
    omega
  | some s =>
    have hseconds := seconds?_eq_some_iff.1 hs
    dsimp only
    split_ifs with hborrow
    · apply make?_eq_ofTotal?
      · simp only [nanosPerSecond]
        omega
      · simp only [total, Span.total, hseconds, nanosPerSecond]
        omega
    · apply make?_eq_ofTotal?
      · simp only [nanosPerSecond]
        omega
      · simp only [total, Span.total, hseconds, nanosPerSecond]
        omega

end Instant

/-! ## Spans -/

namespace Binary64

theorem fraction_den_pos (m : ℕ) (e : ℤ) : 0 < (Reading.fraction m e).2 := by
  unfold Reading.fraction
  split_ifs
  · exact one_pos
  · exact Nat.two_pow_pos _

theorem fraction_value (m : ℕ) (e : ℤ) :
    ((Reading.fraction m e).1 : ℚ) / (Reading.fraction m e).2 = m * 2 ^ e := by
  unfold Reading.fraction
  split_ifs with he
  · obtain ⟨k, rfl⟩ := Int.eq_ofNat_of_zero_le he
    simp
  · obtain ⟨k, hk⟩ := Int.eq_ofNat_of_zero_le (neg_nonneg.2 (not_le.1 he).le)
    obtain rfl : e = -(k : ℤ) := by omega
    simp [div_eq_mul_inv]

/-- a word below the sign bit reads as its magnitude, as infinity or as no number -/
theorem reading_of_magnitude {x : Float} {v : ℕ} (hx : x.toBits.toNat = v) (hv : v ≤ infinite) :
    reading x = if v < infinite then .finite false (mantissa v) (exponent v) else .infinite false := by
  have hle : v ≤ 2047 * 2 ^ 52 := hv
  have hsign : ¬ Nat.pow 2 63 ≤ v := by
    have : Nat.pow 2 63 = 2 ^ 63 := rfl
    omega
  have hfield : v / Nat.pow 2 52 % Nat.pow 2 11 = v / 2 ^ 52 := by
    have h52 : Nat.pow 2 52 = 2 ^ 52 := rfl
    have h11 : Nat.pow 2 11 = 2 ^ 11 := rfl
    rw [h52, h11]
    omega
  have hfraction : v % Nat.pow 2 52 = v % 2 ^ 52 := rfl
  unfold reading readingOfFields
  rw [hx]
  dsimp only
  rw [hfield, hfraction, decide_eq_false hsign]
  by_cases hfinite : v < infinite
  · have hlt : v < 2047 * 2 ^ 52 := hfinite
    rw [if_pos hfinite, if_neg (by omega), mantissa, exponent]
    by_cases hsmall : v < 2 ^ 52
    · rw [if_pos (Nat.div_eq_of_lt hsmall), if_pos hsmall, if_pos hsmall, Nat.mod_eq_of_lt hsmall]
    · rw [if_neg (by omega), if_neg hsmall, if_neg hsmall]
      rfl
  · have heq : v = 2047 * 2 ^ 52 := le_antisymm hle (not_lt.1 hfinite)
    rw [if_neg hfinite, heq]
    rfl

theorem reading_abs (x : Float) : reading x.abs =
    if x.isFinite then .finite false (mantissa (ordinal x).natAbs) (exponent (ordinal x).natAbs)
    else if x.isNaN then .nan else .infinite false := by
  cases hnan : x.isNaN with
  | true =>
    have hpacked : x.abs.toBits.toNat = (UnpackedFloat.pack Format.binary64 x.toModel.unpack.abs).toNat := rfl
    have hnumber : x.isFinite ≠ true := by
      intro hfinite
      rw [isNaN_of_isFinite hfinite] at hnan
      cases hnan
    obtain ⟨s, v, hx, hv⟩ := exists_signWord x
    have hlarge := (isNaN_iff x).1 hnan
    rw [ordinal_of_word hx hv, natAbs_apply] at hlarge
    have hu : x.toModel.unpack = .notANumber := unpack_nan hx hlarge hv
    have heq : x.abs = Arith.nan := eq_of_toNat (by rw [hpacked, hu]; rfl)
    rw [heq, if_neg hnumber, if_pos rfl]
    rfl
  | false =>
    have hle : (ordinal x).natAbs ≤ infinite := by
      rw [← not_lt, ← isNaN_iff, hnan]
      exact Bool.false_ne_true
    rw [reading_of_magnitude (toNat_abs hnan) hle]
    simp only [isFinite_iff, Bool.false_eq_true, if_false]

end Binary64

namespace Span

open Binary64

variable {x : Float}

/-- the span of a finite number's size, by its value -/
theorem ofSeconds?_of_isFinite (h : x.isFinite = true) : ofSeconds? (reading x.abs) =
    if 2 ^ 64 ≤ |value x| then none else some (ofTotal (nearestEven (|value x| * nanosPerSecond)).toNat) := by
  rw [reading_abs, if_pos h, abs_value, number, ← fraction_value]
  unfold ofSeconds?
  dsimp only
  generalize hnum : (Reading.fraction (mantissa (ordinal x).natAbs) (exponent (ordinal x).natAbs)).1 = num
  have hpos := fraction_den_pos (mantissa (ordinal x).natAbs) (exponent (ordinal x).natAbs)
  generalize hden : (Reading.fraction (mantissa (ordinal x).natAbs) (exponent (ordinal x).natAbs)).2 = den at hpos
  have hden0 : (0 : ℚ) < den := by exact_mod_cast hpos
  have hlarge : UInt64.size * den ≤ num ↔ (2 ^ 64 : ℚ) ≤ num / den := by
    rw [le_div_iff₀ hden0]
    exact_mod_cast Iff.rfl
  have hround : roundQuotient (num * nanosPerSecond) den = (nearestEven (num / den * nanosPerSecond)).toNat := by
    have hquotient : (num / den * nanosPerSecond : ℚ) = (num * nanosPerSecond : ℕ) / den := by
      rw [Nat.cast_mul, div_mul_eq_mul_div]
    rw [hquotient, ← roundQuotient_eq_nearestEven _ hpos, Int.toNat_natCast]
  rw [hround]
  exact if_congr hlarge rfl rfl

/-- **No span**: what is not finite, and sizes of `2 ^ 64` seconds and more. -/
theorem ofSeconds?_eq_none_iff : ofSeconds? (reading x.abs) = none ↔ x.isFinite = false ∨ 2 ^ 64 ≤ |value x| := by
  cases h : x.isFinite with
  | true => simp [ofSeconds?_of_isFinite h]
  | false =>
    rw [reading_abs, h]
    cases x.isNaN <;> simp [ofSeconds?]

/-- **A span is the size in nanoseconds**, rounded to the nearest even. -/
theorem total_of_ofSeconds? {d : Span} (h : ofSeconds? (reading x.abs) = some d) :
    (d.total : ℤ) = nearestEven (|value x| * nanosPerSecond) := by
  have hfinite : x.isFinite = true := by
    by_contra hnot
    rw [ofSeconds?_eq_none_iff.2 (Or.inl (Bool.not_eq_true _ ▸ hnot))] at h
    cases h
  rw [ofSeconds?_of_isFinite hfinite] at h
  split_ifs at h
  cases h
  rw [total_ofTotal]
  apply Int.toNat_of_nonneg
  apply le_nearestEven
  simpa using mul_nonneg (abs_nonneg _) (Nat.cast_nonneg _)

end Span

/-! ## The clock -/

open Binary64 Instant

/-- the exact nanoseconds of an instant shifted by a number of seconds whose size is a given span -/
def Instant.shiftedTotal (now : Instant) (jitter : Float) (d : Span) : ℤ :=
  if 0.0 ≤ jitter then now.total + d.total else now.total - d.total

theorem shift?_eq (now : Instant) (jitter : Float) : Draw.shift? now jitter =
    (Span.ofSeconds? (reading jitter.abs)).bind fun d => ofTotal? (now.shiftedTotal jitter d) := by
  have hsize : Arith.reading (Arith.abs jitter) = reading jitter.abs := rfl
  unfold Draw.shift? shiftedTotal
  rw [hsize]
  cases Span.ofSeconds? (reading jitter.abs) with
  | none => rfl
  | some d =>
    dsimp only [Option.bind_some]
    rw [later?_eq, earlier?_eq]
    split_ifs <;> rfl

theorem shift?_eq_some_iff {now t : Instant} {jitter : Float} : Draw.shift? now jitter = some t ↔
    ∃ d, Span.ofSeconds? (reading jitter.abs) = some d ∧ t.total = now.shiftedTotal jitter d := by
  simp only [shift?_eq, Option.bind_eq_some_iff, ofTotal?_eq_some_iff]

theorem shift?_eq_none_iff {now : Instant} {jitter : Float} : Draw.shift? now jitter = none ↔
    (jitter.isFinite = false ∨ 2 ^ 64 ≤ |value jitter|) ∨
      ∃ d, Span.ofSeconds? (reading jitter.abs) = some d ∧ ¬ InReach (now.shiftedTotal jitter d) := by
  rw [shift?_eq, ← Span.ofSeconds?_eq_none_iff]
  cases Span.ofSeconds? (reading jitter.abs) with
  | none => simp
  | some d => simp [ofTotal?_eq_none_iff]

section
variable {σ : Type} [Entropy σ] {now : Instant} {deviation jitter : Float} {m m' : Machine Float σ}

/-- once the number of seconds is drawn, only the shift is left -/
theorem run_clockNormal (h : (Draw.normal 0.0 deviation).run m = (.value jitter, m')) :
    (Draw.clockNormal now deviation).run m = match Draw.shift? now jitter with
      | some t => (.value t, m')
      | none => (.failed (.fault .outOfRange), m') := by
  rw [Draw.clockNormal, Draw.bind_eq, Draw.run_bind, h]
  dsimp only
  cases Draw.shift? now jitter <;> rfl

/-- **The shifted clock is exact.** Let a normal draw of mean zero give `jitter`. The shifted clock leaves the same machine, and
- it returns an instant whenever there is one at exactly `now` plus the span of `jitter`'s size, for a `jitter` that is not negative,
  or `now` minus that span, for a negative one, and it returns that instant, its nanosecond field below a second;
- the span is the size in nanoseconds, rounded to the nearest even;
- it fails, with a result out of range, exactly if the size has no span, that is `jitter` is not finite or its size is at least
  `2 ^ 64` seconds, or if the floored seconds of the exact result are no 64-bit integer.
If the normal draw fails or gets stuck, the shifted clock does so alike. -/
theorem clockNormal_exact (now : Instant) (deviation : Float) (m : Machine Float σ) :
    (∀ jitter m', (Draw.normal 0.0 deviation).run m = (.value jitter, m') →
      (∀ d, Span.ofSeconds? (reading jitter.abs) = some d →
        (d.total : ℤ) = nearestEven (|value jitter| * nanosPerSecond) ∧
        (InReach (now.shiftedTotal jitter d) → ∃ t, (Draw.clockNormal now deviation).run m = (.value t, m') ∧
          t.total = now.shiftedTotal jitter d ∧ t.nanos < nanosPerSecond)) ∧
      ((Draw.clockNormal now deviation).run m = (.failed (.fault .outOfRange), m') ↔
        (jitter.isFinite = false ∨ 2 ^ 64 ≤ |value jitter|) ∨
          ∃ d, Span.ofSeconds? (reading jitter.abs) = some d ∧ ¬ InReach (now.shiftedTotal jitter d)) ∧
      (Span.ofSeconds? (reading jitter.abs) = none ↔ jitter.isFinite = false ∨ 2 ^ 64 ≤ |value jitter|)) ∧
    (∀ e m', (Draw.normal 0.0 deviation).run m = (.failed e, m') → (Draw.clockNormal now deviation).run m = (.failed e, m')) ∧
    ∀ m', (Draw.normal 0.0 deviation).run m = (.stuck, m') → (Draw.clockNormal now deviation).run m = (.stuck, m') := by
  refine ⟨?_, ?_, ?_⟩
  · intro jitter m' hnormal
    have hrun : (Draw.clockNormal now deviation).run m = _ := run_clockNormal hnormal
    refine ⟨fun d hd => ⟨Span.total_of_ofSeconds? hd, fun hreach => ?_⟩, ?_, Span.ofSeconds?_eq_none_iff⟩
    · obtain ⟨t, ht⟩ := Option.ne_none_iff_exists'.1 (fun hnone => ofTotal?_eq_none_iff.1 hnone hreach)
      have htotal := ofTotal?_eq_some_iff.1 ht
      rw [shift?_eq_some_iff.2 ⟨d, hd, htotal⟩] at hrun
      exact ⟨t, hrun, htotal, t.nanos_lt⟩
    · rw [← shift?_eq_none_iff, hrun]
      cases Draw.shift? now jitter with
      | none => simp
      | some t => simp
  · intro e m' hnormal
    rw [Draw.clockNormal, Draw.bind_eq, Draw.run_bind, hnormal]
  · intro m' hnormal
    rw [Draw.clockNormal, Draw.bind_eq, Draw.run_bind, hnormal]

end

def Machine.ofSpare (z : Float) : Machine Float Replay :=
  { source := Replay.ofWords [], keepsSpare := true, spare := some z }

/-- three quarters of a second before the epoch, a borrow; a nanosecond after the last instant, no instant -/
theorem clockNormal_exact_at_borrow_and_limit :
    ((Draw.clockNormal epoch 1.0).run (Machine.ofSpare (-0.75))).1 = .value ⟨-1, 250000000, by decide⟩ ∧
    ((Draw.clockNormal ⟨Int64.maxValue, 999999999, by decide⟩ 1.0).run (Machine.ofSpare 1e-9)).1 =
      .failed (.fault .outOfRange) := by
  constructor
  · have hnormal : ((Draw.normal 0.0 1.0).run (Machine.ofSpare (-0.75))).1 = .value (-0.75) := by decide +kernel
    have hspan : Span.ofSeconds? (reading (-0.75 : Float).abs) = some ⟨0, 750000000, by decide⟩ := by decide +kernel
    have hshifted : epoch.shiftedTotal (-0.75) ⟨0, 750000000, by decide⟩ = -750000000 := by decide +kernel
    obtain ⟨hdrawn, -, -⟩ := clockNormal_exact epoch 1.0 (Machine.ofSpare (-0.75))
    obtain ⟨t, hrun, htotal, -⟩ := ((hdrawn _ _ (Prod.ext hnormal rfl)).1 _ hspan).2 (by rw [hshifted]; exact by decide)
    have ht := ofTotal?_eq_some_iff.2 (htotal.trans hshifted)
    have hfields : ofTotal? (-750000000) = some ⟨-1, 250000000, by decide⟩ := by decide
    rw [hfields, Option.some.injEq] at ht
    rw [hrun, ht]
  · have hnormal : ((Draw.normal 0.0 1.0).run (Machine.ofSpare 1e-9)).1 = .value 1e-9 := by decide +kernel
    have hspan : Span.ofSeconds? (reading (1e-9 : Float).abs) = some ⟨0, 1, by decide⟩ := by decide +kernel
    obtain ⟨hdrawn, -, -⟩ := clockNormal_exact ⟨Int64.maxValue, 999999999, by decide⟩ 1.0 (Machine.ofSpare 1e-9)
    obtain ⟨-, houtOfRange, -⟩ := hdrawn _ _ (Prod.ext hnormal rfl)
    rw [houtOfRange.2 (Or.inr ⟨_, hspan, by decide +kernel⟩)]

end Sampling
