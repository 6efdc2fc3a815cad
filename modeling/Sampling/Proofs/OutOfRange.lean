/-
What can be out of range.

The narrow integer operations check that their values fit, and none of these checks ever fails (`Call.Narrows`). What is left are the
faults that operations may raise late (`Call.LateFault`): a session answers with a result out of range only for a Poisson count and
for a shifted clock, as long as no list or bound is longer than there are words (`Session.late_of_outOfRange`). These two do raise
it: a Poisson candidate of `2 ^ 64` or more that is accepted (`Draw.run_poisson_overflow`), and a shift longer than any span of time.

`Session.out_of_range_only_late`: all of it together.
-/
import Sampling.Proofs.ParameterFault
import Sampling.Proofs.WordStream

namespace Sampling

variable {F σ : Type} [Entropy σ] [Arith F]

/-! ## Poisson counts -/

namespace Draw

theorem Hat.accepts_of_squeeze {h : Hat F} {us v : F} (hus : 0.07 ≤ us) (hv : v ≤ h.squeeze) (k : F) :
    h.accepts us v k = true := by
  simp [accepts, hus, hv]

/-- **A Poisson count that is no word is out of range.** On a source that serves two words whose candidate passes the squeeze and is
`2 ^ 64` or more, the draw fails so. -/
theorem run_poisson_overflow {mean : F} (hmean : isPositive mean = true) (hlarge : ¬ mean < rejectionThreshold) {w v : UInt64}
    {m : Machine F σ} {lines : List LogLine} {y : σ} (hserves : Serves m.source [w, v] lines y) {u us : F}
    (hu : unitOf w - 0.5 = u) (hus : 0.5 - Arith.abs u = us) (hedge : 0.07 ≤ us) (hsqueeze : unitOf v ≤ (Hat.ofMean mean).squeeze)
    (hcount : Arith.ofNat UInt64.size ≤ (Hat.ofMean mean).candidate u us) (tries : Nat) :
    ∃ m', (poisson (tries + 1) mean).run m = (.failed (.fault .outOfRange), m') := by
  subst hu hus
  cases hserves with
  | cons first rest =>
    cases rest with
    | cons second _ =>
      obtain ⟨m₁, hrun₁, rfl, -⟩ := run_unit first fun u0 => unit.bind fun v =>
        let u := u0 - 0.5
        let us := 0.5 - Arith.abs u
        let k := (Hat.ofMean mean).candidate u us
        if (Hat.ofMean mean).accepts us v k then count k else poissonFrom (Hat.ofMean mean) tries
      obtain ⟨m₂, hrun₂, -⟩ := run_unit second fun v =>
        let u := unitOf w - 0.5
        let us := 0.5 - Arith.abs u
        let k := (Hat.ofMean mean).candidate u us
        if (Hat.ofMean mean).accepts us v k then count k else poissonFrom (Hat.ofMean mean) tries
      refine ⟨m₂, ?_⟩
      rw [poisson, require, if_pos hmean, if_neg hlarge, poissonFrom, bind_eq]
      refine hrun₁.trans (hrun₂.trans ?_)
      dsimp only
      rw [if_pos (Hat.accepts_of_squeeze hedge hsqueeze _), count, require, if_neg (by simpa using hcount)]
      rfl

end Draw

namespace Binary64

abbrev withFloor (floor : Float → Float) : Arith Float := { (inferInstance : Arith Float) with floor := floor }

/-- a floor function that takes no number of `2 ^ 64` or more below that -/
def KeepsLarge (floor : Float → Float) : Prop := ∀ x, Float.ofNat UInt64.size ≤ x → Float.ofNat UInt64.size ≤ floor x

/-- at a mean of `1e30`, the words `2 ^ 63` and zero make the middle of the hat, which passes the squeeze -/
theorem middle_passes : (unitOf 0x8000000000000000 : Float) - 0.5 = 0.0 ∧ 0.5 - Float.abs 0.0 = 0.5 ∧ (0.07 : Float) ≤ 0.5 ∧
    (unitOf 0 : Float) ≤ (Draw.Hat.ofMean 1e30).squeeze := by
  decide +kernel

/-- and is no word before it is rounded -/
theorem middle_large : Float.ofNat UInt64.size ≤
    (2.0 * (Draw.Hat.ofMean 1e30).a / 0.5 + (Draw.Hat.ofMean 1e30).b) * 0.0 + (1e30 : Float) + 0.43 := by
  decide +kernel

/-- **Poisson counts can be out of range**, whatever the floor function does below `2 ^ 64`. -/
theorem poisson_out_of_range {floor : Float → Float} (hfloor : KeepsLarge floor) :
    ∃ (mean : Float) (m m' : Machine Float Replay),
      @Draw.run Float Replay Nat _ (withFloor floor) (@Draw.poisson Float (withFloor floor) 1 mean) m =
        (.failed (.fault .outOfRange), m') := by
  have hmean : Draw.isPositive (1e30 : Float) = true ∧ ¬ (1e30 : Float) < 30.0 := by decide +kernel
  obtain ⟨hu, hus, hedge, hsqueeze⟩ := middle_passes
  obtain ⟨m', hrun⟩ := @Draw.run_poisson_overflow Float Replay _ (withFloor floor) 1e30 hmean.1 hmean.2 0x8000000000000000 0
    { source := Replay.ofWords [0x8000000000000000, 0], keepsSpare := true } _ _ (Replay.serves_ofWords _) 0.0 0.5 hu hus hedge
    hsqueeze (hfloor _ middle_large) 0
  exact ⟨1e30, _, m', hrun⟩

/-- **Shifted clocks can be out of range.** A waiting deviate of one second, scaled beyond every span of time, is. -/
theorem clockNormal_out_of_range : ∃ (now : Instant) (deviation : Float) (m m' : Machine Float Replay),
    (Draw.clockNormal now deviation).run m = (.failed (.fault .outOfRange), m') := by
  let m : Machine Float Replay := { source := Replay.ofWords [], keepsSpare := true, spare := some 1.0 }
  have hrun : ((Draw.clockNormal Instant.epoch 1e20).run m).1 = .failed (.fault .outOfRange) := by decide +kernel
  exact ⟨Instant.epoch, 1e20, m, ((Draw.clockNormal Instant.epoch 1e20).run m).2, Prod.ext hrun rfl⟩

end Binary64

/-! ## Sessions -/

namespace Session

/-- **Only late faults are out of range.** A request answered with a result out of range is a Poisson draw, a shifted clock, or a
draw from more positions than there are words. -/
theorem late_of_outOfRange {s : Session F σ} {r : Request F} (h : (s.step r).1.ending.error? = some (.fault .outOfRange)) :
    ∃ g strict c, r = .call g strict c ∧
      (UInt64.size ≤ c.positions ∨ (∃ mean, c = .poisson mean) ∨ ∃ deviation, c = .clockNormal deviation) := by
  rcases fault_of_step h with ⟨hparameter, -⟩ | ⟨g, strict, c, hr, -, hover⟩
  · cases hparameter
  · refine ⟨g, strict, c, hr, ?_⟩
    cases c with
    | poisson mean => exact Or.inr (Or.inl ⟨mean, rfl⟩)
    | clockNormal deviation => exact Or.inr (Or.inr ⟨deviation, rfl⟩)
    | _ => exact Or.inl hover

/-- **Narrow operations lose nothing, and only late faults are out of range.**
- A narrow operation does on every machine what the wide one it stands for does: the same ending, the same bytes read, the same
  lines logged. A value it returns is an integer of the interval it states.
- In any session, a request answered with a result out of range is a Poisson draw or a shifted clock, as long as the positions drawn
  from are fewer than `2 ^ 64`.
- These two can be out of range. -/
theorem out_of_range_only_late :
    (∀ (narrow wide : Call F) (lo hi : Int), Call.Narrows narrow wide lo hi →
      ∀ (now : Instant) (tries : Nat) (m : Machine F σ),
        (narrow.program now tries).run m = (wide.program now tries).run m ∧
        ∀ v, ((narrow.program now tries).run m).1 = .value v → ∃ z, v = .integer z ∧ lo ≤ z ∧ z ≤ hi) ∧
    (∀ (s : Session F σ) (r : Request F), (s.step r).1.ending.error? = some (.fault .outOfRange) →
      ∃ g strict c, r = .call g strict c ∧
        (UInt64.size ≤ c.positions ∨ (∃ mean, c = .poisson mean) ∨ ∃ deviation, c = .clockNormal deviation)) ∧
    (∀ floor, Binary64.KeepsLarge floor → ∃ (mean : Float) (m m' : Machine Float Replay),
      @Draw.run Float Replay Nat _ (Binary64.withFloor floor) (@Draw.poisson Float (Binary64.withFloor floor) 1 mean) m =
        (.failed (.fault .outOfRange), m')) ∧
    ∃ (now : Instant) (deviation : Float) (m m' : Machine Float Replay),
      (Draw.clockNormal now deviation).run m = (.failed (.fault .outOfRange), m') := by
  refine ⟨?_, ?_, fun floor hfloor => Binary64.poisson_out_of_range hfloor, Binary64.clockNormal_out_of_range⟩
  · intro narrow wide lo hi h now tries m
    refine ⟨by rw [h.program_eq], fun v hv => ?_⟩
    have hsatisfies := Draw.run_ensures (h.ensures now tries) m
    rw [hv] at hsatisfies
    exact hsatisfies
  · intro s r h
    exact late_of_outOfRange h

/-- all 32-bit integers are drawn as a range is; a clock shifted beyond every span of time is the request at fault; counts of `1e30`
are out of range with a floor that takes nothing away -/
theorem out_of_range_only_late_shifted_clock :
    let m : Machine Float Replay := { source := Replay.ofWords [0xffffffff12345678], keepsSpare := true }
    let gen : Generator Float := { source := 0, keepsSpare := true, spare := some 1.0, tries := 5 }
    let s : Session Float Replay := { sources := #[Replay.ofWords []], generators := #[gen] }
    ((Call.any32 : Call Float).program Instant.epoch 5).run m =
        ((Call.between (-0x80000000) 0x7fffffff : Call Float).program Instant.epoch 5).run m ∧
      (s.step (.call 0 false (.clockNormal 1e20))).1.ending.error? = some (.fault .outOfRange) ∧
      (∃ g strict c, Request.call 0 false (.clockNormal (1e20 : Float)) = .call g strict c ∧
        (UInt64.size ≤ c.positions ∨ (∃ mean, c = .poisson mean) ∨ ∃ deviation, c = .clockNormal deviation)) ∧
      ∃ (mean : Float) (m m' : Machine Float Replay),
        @Draw.run Float Replay Nat _ (Binary64.withFloor id) (@Draw.poisson Float (Binary64.withFloor id) 1 mean) m =
          (.failed (.fault .outOfRange), m') := by
  intro m gen s
  obtain ⟨hnarrow, honly, hpoisson, -⟩ := @out_of_range_only_late Float Replay _ _
  have hstep : (s.step (.call 0 false (.clockNormal 1e20))).1.ending.error? = some (.fault .outOfRange) := by decide +kernel
  exact ⟨(hnarrow _ _ _ _ .any32 Instant.epoch 5 m).1, hstep, honly s _ hstep, hpoisson id fun _ h => h⟩

end Session

end Sampling
