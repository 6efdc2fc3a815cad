/-
Parameter errors come before anything is drawn.

A fault a request is answered with is a parameter fault that is all the request holds (`Request.Rejected`), or one its operation
may raise late, since every operation is vetted (`Session.fault_of_step`). Any session answers a request that holds nothing but a
fault alike and stays as it is.
-/
import Sampling.Arith.Binary64
import Sampling.Proofs.SessionStep
import Sampling.Proofs.Vetted
import Sampling.Source.Recorded
import Sampling.Source.Replay

namespace Sampling

variable {F : Type}

/-! ## Requests -/

section
variable [Arith F]

def Ending.error? : Ending F → Option (Error F)
  | .failed e | .aborted e => some e
  | _ => none

/-- a request that holds nothing but a fault -/
inductive Request.Rejected : Request F → Fault F → Prop where
  | call {g : Nat} {strict : Bool} {c : Call F} {f : Fault F} (h : ∀ now tries, c.program now tries = .fault f) :
    Rejected (.call g strict c) f
  | buildTable {g n : Nat} {a v : F} {f : Fault F} (h : Zipf.build? a v n = .error f) :
    Rejected (.buildTable g a v n) f

/-- the answer to a request that holds nothing but a fault -/
def Request.rejection (f : Fault F) : Request F → Answer F
  | .call _ strict c =>
    { ending := Session.ending (strict && c.hasStrictForm) (.failed (.fault f)), items := c.leftBehind? [] }
  | _ => { ending := .failed (.fault f) }

omit [Arith F] in
theorem Request.error?_rejection (f : Fault F) (r : Request F) : (r.rejection f).ending.error? = some (.fault f) := by
  cases r with
  | call g strict c =>
    show (Session.ending (strict && c.hasStrictForm) (.failed (.fault f))).error? = some (.fault f)
    cases strict && c.hasStrictForm <;> rfl
  | _ => rfl

namespace Session

/-- the session with its sources recorded, no call so far -/
def recorded {σ : Type} (s : Session F σ) : Session F (Recorded σ) :=
  { sources := s.sources.map fun source => ⟨source, []⟩, generators := s.generators, built := s.built, log := s.log }

variable {σ : Type} [Entropy σ] {s : Session F σ} {r : Request F} {e : Error F} {f : Fault F}

theorem step_call_of_fault {g : Nat} (hs : s.Holds g) {strict : Bool} {c : Call F}
    (hp : ∀ now tries, c.program now tries = .fault f) :
    s.step (.call g strict c) = ((Request.call g strict c).rejection f, s) := by
  obtain ⟨gen, source, hg, hs⟩ := hs
  rw [step_call hg hs, hp, Draw.run, keep_machine hg hs]
  rfl

theorem holds_of_step_call {g : Nat} {strict : Bool} {c : Call F}
    (h : (s.step (.call g strict c)).1.ending ≠ .absent) : s.Holds g := by
  by_contra hs
  exact h (by simp only [step, perform_of_absent hs])

/-- a session that answers a request holding nothing but a fault answers with that fault and stays as it is -/
theorem step_of_rejected (hr : r.Rejected f) (h : (s.step r).1.ending ≠ .absent) : s.step r = (r.rejection f, s) := by
  cases hr with
  | call hp => exact step_call_of_fault (holds_of_step_call h) hp
  | @buildTable g n a v f hb =>
    cases hg : s.generators[g]? with
    | none => exact absurd (by simp only [step, hg]) h
    | some gen => simp only [step, hg, hb, Request.rejection]

theorem step_recorded_of_rejected (hr : r.Rejected f) (h : (s.step r).1.ending ≠ .absent) :
    s.recorded.step r = (r.rejection f, s.recorded) := by
  cases hr with
  | @call g strict c f hp =>
    obtain ⟨gen, source, hg, hs⟩ := holds_of_step_call h
    have hheld : s.recorded.Holds g := ⟨gen, ⟨source, []⟩, hg, by simp [recorded, hs]⟩
    exact step_call_of_fault hheld hp
  | @buildTable g n a v f hb =>
    cases hg : s.generators[g]? with
    | none => exact absurd (by simp only [step, hg]) h
    | some gen => simp only [step, show s.recorded.generators[g]? = some gen from hg, hb, Request.rejection]

omit [Arith F] [Entropy σ] in
/-- both layers answer a failed run with its error, and only a failed run with an error -/
theorem error?_ending {strict : Bool} {o : Outcome F (Value F)} : (ending strict o).error? = some e ↔ o = .failed e := by
  cases o with
  | value v => exact iff_of_false nofun nofun
  | stuck => exact iff_of_false nofun nofun
  | failed e' =>
    have herror : (ending strict (.failed e')).error? = some e' := by cases strict <;> rfl
    rw [herror, Option.some.injEq, Outcome.failed.injEq]

theorem fault_of_blameless {D : Prop} {E : Fault F → Prop} {p : Draw F (Value F)} (hp : p.Blameless D E) {m : Machine F σ}
    {strict : Bool} (h : (ending strict (p.run m).1).error? = some (.fault f)) : E f := by
  have hout := Draw.run_ensures hp m
  rw [error?_ending.1 h] at hout
  exact hout

omit [Arith F] [Entropy σ] in
theorem ne_fault_of_throughGenerator {g n : Nat} {read : σ → Reply σ} {failed : Failure → Ending F}
    (hf : ∀ x, (failed x).error? ≠ some (.fault f)) :
    (s.throughGenerator g n read failed).1.ending.error? ≠ some (.fault f) := by
  intro h
  unfold throughGenerator at h
  cases hg : s.generators[g]? with
  | none => simp only [hg] at h; cases h
  | some gen =>
    simp only [hg] at h
    cases hs : s.sources[gen.source]? with
    | none => simp only [hs] at h; cases h
    | some source =>
      simp only [hs] at h
      cases ho : (read source).outcome with
      | ok b => simp only [ho] at h; cases h
      | error x => simp only [ho] at h; exact hf _ h

/-- **Where faults come from.** A fault a request is answered with is a parameter fault, and then all that the request holds, or
one that its operation may raise when it has drawn already. -/
theorem fault_of_step (h : (s.step r).1.ending.error? = some (.fault f)) :
    f.isParameter = true ∧ r.Rejected f ∨ ∃ g strict c, r = .call g strict c ∧ c.LateFault f := by
  have hpresent : (s.step r).1.ending ≠ .absent := fun habs => by rw [habs] at h; cases h
  have rejected : ∀ {f'}, f'.isParameter = true → r.Rejected f' → f.isParameter = true ∧ r.Rejected f := by
    intro f' hf' hr
    rw [step_of_rejected hr hpresent, Request.error?_rejection] at h
    cases h
    exact ⟨hf', hr⟩
  cases r with
  | call g strict c =>
    obtain ⟨gen, source, hg, hs⟩ := holds_of_step_call hpresent
    rcases c.fault_or_blameless with ⟨f', hf', hP⟩ | hP
    · exact Or.inl (rejected hf' (.call hP))
    · rw [step_call hg hs] at h
      exact Or.inr ⟨g, strict, c, rfl, fault_of_blameless (hP gen.clock gen.tries) h⟩
  | fill g n => exact absurd h (ne_fault_of_throughGenerator fun x hx => by cases hx)
  | read g n => exact absurd h (ne_fault_of_throughGenerator fun x hx => by cases hx)
  | readExact g n => exact absurd h (ne_fault_of_throughGenerator fun x hx => by cases hx)
  | fillFrom i n =>
    simp only [step] at h
    cases hs : s.sources[i]? with
    | none => simp only [hs] at h; cases h
    | some source =>
      simp only [hs] at h
      cases ho : (Entropy.fill source n).outcome <;> simp only [ho] at h <;> cases h
  | now g =>
    simp only [step] at h
    cases hg : s.generators[g]? <;> simp only [hg] at h <;> cases h
  | buildTable g a v n =>
    simp only [step] at h
    cases hg : s.generators[g]? with
    | none => simp only [hg] at h; cases h
    | some gen =>
      simp only [hg] at h
      cases hb : Zipf.build? a v n with
      | error f' => exact Or.inl (rejected (Draw.isParameter_of_build? hb) (.buildTable hb))
      | ok z => simp only [hb] at h; cases h
  | copyTable t =>
    simp only [step] at h
    cases hg : s.generators[t.generator]? with
    | none => simp only [hg] at h; cases h
    | some gen =>
      simp only [hg] at h
      cases hz : gen.tables[t.index]? <;> simp only [hz] at h <;> cases h
  | drawRank t =>
    simp only [step] at h
    cases hz : (s.generators[t.generator]?).bind fun gen => gen.tables[t.index]? with
    | none => simp only [hz] at h; cases h
    | some z =>
      simp only [hz] at h
      by_cases hs : s.Holds t.generator
      · obtain ⟨gen, source, hg, hs⟩ := hs
        rw [perform_eq hg hs] at h
        have hrank : (Draw.zipfRank z).Blameless False fun _ => False := Draw.blameless_zipfRank z
        exact (fault_of_blameless (hrank.map _) h).elim
      · rw [perform_of_absent hs] at h
        cases h

theorem rejected_of_parameter (h : (s.step r).1.ending.error? = some e) (he : e.isParameter = true) :
    ∃ f, r.Rejected f := by
  cases e with
  | source e => cases he
  | fault f =>
    rcases fault_of_step h with ⟨-, hr⟩ | ⟨g, strict, c, -, hlate, -⟩
    · exact ⟨f, hr⟩
    · rw [Error.isParameter, Fault.isParameter_iff] at he
      exact absurd hlate he

/-- **Parameter errors come before anything is drawn.** A request answered with a parameter error leaves the session as it was:
sources, spares, tables and log. It makes no fill call: with recorded sources the record stays empty. And its arguments alone
decided: every session that has what the request names, in whatever state, over whatever sources, gives the same answer and stays
as it is. -/
theorem parameter_error_draws_nothing (h : (s.step r).1.ending.error? = some e) (he : e.isParameter = true) :
    (s.step r).2 = s ∧ s.recorded.step r = ((s.step r).1, s.recorded) ∧
      ∀ {τ : Type} [Entropy τ] (s' : Session F τ), (s'.step r).1.ending ≠ .absent → s'.step r = ((s.step r).1, s') := by
  have hpresent : (s.step r).1.ending ≠ .absent := fun habs => by rw [habs] at h; cases h
  obtain ⟨f, hr⟩ := rejected_of_parameter h he
  rw [step_of_rejected hr hpresent]
  exact ⟨rfl, step_recorded_of_rejected hr hpresent, fun s' hs' => step_of_rejected hr hs'⟩

/-- a draw below zero is answered alike with and without a spare waiting, and takes neither the spare nor the script -/
theorem parameter_error_draws_nothing_zero_bound :
    let draw : Request Float := .call 0 false (.wordBelow 0)
    let gen : Generator Float := { source := 0, keepsSpare := true, tries := 5 }
    let s : Session Float Replay := { sources := #[⟨#[1, 2, 3], 0⟩], generators := #[gen] }
    let s' : Session Float Replay := { sources := #[⟨#[], 0⟩], generators := #[{ gen with spare := some 0.5 }] }
    (s.step draw).1.ending.error? = some (.fault .zeroBound) ∧ (s.step draw).2 = s ∧ s'.step draw = ((s.step draw).1, s') := by
  intro draw gen s s'
  have h : (s.step draw).1.ending.error? = some (.fault .zeroBound) := rfl
  have hpresent : (s'.step draw).1.ending ≠ .absent := fun habs => by cases habs
  obtain ⟨hself, -, hother⟩ := parameter_error_draws_nothing h rfl
  exact ⟨h, hself, hother s' hpresent⟩

end Session

end

end Sampling
