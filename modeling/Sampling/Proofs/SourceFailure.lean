/-
Failures of the source end a run at once and go through unchanged.

`Draw.calls p m` are the fill calls a run of `p` makes on the source of `m`, as the source itself saw them: the run is repeated over
the recorded source, which ends alike (`run_recorded`). `EndedBy` says of a list of calls that all of them were granted, but for
a last one where a failure ended the run; it is carried through a fill, a word, a pair, a deviate and, by induction on the program, a
run. Programs are arbitrary: rejection loops, nested draws and every operation of a generator are among them.

`failed_iff_call_refused`: a run reports a failure of its source exactly if one of its calls was refused; that call was the last,
and the failure reported is the one it was refused with. `Session.step_failed_iff_call_refused` says the same of what a session
answers to an operation of a generator, in the aborting layer or not, and to a draw from a table.
-/
import Sampling.Proofs.ParameterFault
import Sampling.Proofs.Run
import Sampling.Source.Metered
import Sampling.Source.Recorded

namespace Sampling

variable {F σ α : Type}

/-! ## The calls of a run -/

section
variable [Entropy σ]

/-- the machine with its source recorded, no call so far -/
def Machine.recorded (m : Machine F σ) : Machine F (Recorded σ) :=
  { source := ⟨m.source, []⟩, keepsSpare := m.keepsSpare, spare := m.spare, trace := m.trace }

/-- the fill calls a run makes on its source, oldest first -/
def Draw.calls [Arith F] (p : Draw F α) (m : Machine F σ) : List FillCall := (p.run m.recorded).2.source.calls

theorem Recorded.answerAlike : AnswerAlike fun (s : σ) (r : Recorded σ) => r.source = s where
  outcome {s r} h n := by
    subst h
    by_cases hn : n = 0
    · subst hn; rfl
    · unfold deliver
      rw [if_neg hn, if_neg hn]
      simp only [fill_outcome]
      cases (Entropy.fill r.source n).outcome <;> rfl
  next {s r} h n := by
    subst h
    by_cases hn : n = 0
    · subst hn; rfl
    · rw [deliver_next _ hn, deliver_next _ hn, fill_source]

theorem run_recorded [Arith F] (p : Draw F α) (m : Machine F σ) : (p.run m).1 = (p.run m.recorded).1 := by
  have h : m.Alike (fun s r => r.source = s) m.recorded := ⟨rfl, rfl, rfl, rfl⟩
  exact (p.run_alike Recorded.answerAlike h).1

end

deriving instance DecidableEq for FillCall

/-! ## Calls that a failure ended -/

/-- all calls were granted, but for a last one if there was a failure -/
def EndedBy : Option Failure → List FillCall → Prop
  | none, calls => ∀ c ∈ calls, c.Granted
  | some e, calls => ∃ granted n written, calls = granted ++ [⟨n, .error ⟨written, e⟩⟩] ∧ ∀ c ∈ granted, c.Granted

theorem EndedBy.append {earlier later : List FillCall} {e : Option Failure} (he : EndedBy none earlier)
    (hl : EndedBy e later) : EndedBy e (earlier ++ later) := by
  have join : ∀ granted : List FillCall, (∀ c ∈ granted, c.Granted) → ∀ c ∈ earlier ++ granted, c.Granted := by
    intro granted hg c hc
    rcases List.mem_append.1 hc with hc | hc
    · exact he c hc
    · exact hg c hc
  cases e with
  | none => exact join later hl
  | some e =>
    obtain ⟨granted, n, written, rfl, hg⟩ := hl
    exact ⟨earlier ++ granted, n, written, by simp, join granted hg⟩

theorem EndedBy.some_of_refused {calls : List FillCall} {e : Option Failure} (h : EndedBy e calls)
    (hc : ∃ c ∈ calls, ¬ c.Granted) : ∃ f, e = some f := by
  cases e with
  | none =>
    obtain ⟨c, hc, hn⟩ := hc
    exact absurd (h c hc) hn
  | some f => exact ⟨f, rfl⟩

theorem EndedBy.refused {calls : List FillCall} {f : Failure} (h : EndedBy (some f) calls) :
    ∃ c ∈ calls, ¬ c.Granted := by
  obtain ⟨granted, n, written, rfl, -⟩ := h
  refine ⟨⟨n, .error ⟨written, f⟩⟩, by simp, ?_⟩
  rintro ⟨b, hb⟩
  cases hb

theorem EndedBy.unique {calls : List FillCall} {e f : Failure} (he : EndedBy (some e) calls) (hf : EndedBy (some f) calls) :
    e = f := by
  obtain ⟨granted, n, written, hcalls, -⟩ := he
  obtain ⟨granted', n', written', hcalls', -⟩ := hf
  have hlast := (List.append_inj' (hcalls.symm.trans hcalls') rfl).2
  simp only [List.cons.injEq, FillCall.mk.injEq, Except.error.injEq, Refusal.mk.injEq] at hlast
  exact hlast.1.2.2

def failureOf? : Except Failure α → Option Failure
  | .ok _ => none
  | .error e => some e

def Outcome.failure? : Outcome F α → Option Failure
  | .failed (.source e) => some e
  | _ => none

theorem Outcome.failure?_eq_some {o : Outcome F α} {e : Failure} : o.failure? = some e ↔ o = .failed (.source e) := by
  unfold failure?
  split <;> simp_all

/-! ## Steps and runs -/

/-- from one machine to the other, calls were made that `e` ended -/
def Makes (e : Option Failure) (m m' : Machine F (Recorded σ)) : Prop :=
  ∃ made, m'.source.calls = m.source.calls ++ made ∧ EndedBy e made

theorem Makes.refl (m : Machine F (Recorded σ)) : Makes none m m := ⟨[], by simp, by simp [EndedBy]⟩

theorem Makes.trans {e : Option Failure} {m₁ m₂ m₃ : Machine F (Recorded σ)} (h₁ : Makes none m₁ m₂) (h₂ : Makes e m₂ m₃) :
    Makes e m₁ m₃ := by
  obtain ⟨made₁, hc₁, he₁⟩ := h₁
  obtain ⟨made₂, hc₂, he₂⟩ := h₂
  exact ⟨made₁ ++ made₂, by rw [hc₂, hc₁, List.append_assoc], he₁.append he₂⟩

variable [Entropy σ]

namespace Machine

theorem makes_fill (m : Machine F (Recorded σ)) (n : Nat) : Makes (failureOf? (m.fill n).1) m (m.fill n).2 := by
  by_cases hn : n = 0
  · subst hn
    exact Makes.refl m
  · have hcalls : (deliver m.source n).next.calls =
        m.source.calls ++ [⟨n, (Entropy.fill m.source.source n).outcome⟩] := by
      rw [deliver_next _ hn, Recorded.fill_calls]
    cases ho : (Entropy.fill m.source.source n).outcome with
    | ok b =>
      have hd : (deliver m.source n).outcome = .ok b := by
        unfold deliver
        simp only [if_neg hn, Recorded.fill_outcome, ho]
      rw [fill_of_ok hn hd]
      exact ⟨_, hcalls, by simp [EndedBy, failureOf?, FillCall.Granted, ho]⟩
    | error e =>
      have hd : (deliver m.source n).outcome = .error ⟨List.replicate n 0, e.failure⟩ := by
        unfold deliver
        simp only [if_neg hn, Recorded.fill_outcome, ho]
      rw [fill_of_error hn hd]
      exact ⟨_, hcalls, [], n, e.written, by simp [ho], by simp⟩

theorem makes_word (m : Machine F (Recorded σ)) : Makes (failureOf? m.word.1) m m.word.2 := by
  have h := m.makes_fill 8
  unfold word
  rcases hf : m.fill 8 with ⟨_ | b, m'⟩ <;> rw [hf] at h <;> exact h

variable [Arith F]

/-- a pair stops at the first of its two words that fails -/
theorem makes_pair (m : Machine F (Recorded σ)) : Makes (failureOf? m.pair.1) m m.pair.2 := by
  have h₁ := m.makes_word
  unfold pair
  rcases hf : m.word with ⟨_ | first, m₁⟩ <;> rw [hf] at h₁
  · exact h₁
  · have h₂ := m₁.makes_word
    rcases hg : m₁.word with ⟨_ | second, m₂⟩ <;> simp only [hg] at h₂ ⊢
    · exact h₁.trans h₂
    · exact h₁.trans h₂

theorem makes_deviate (m : Machine F (Recorded σ)) : Makes (failureOf? m.deviate.1) m m.deviate.2 := by
  unfold deviate
  cases m.waiting? with
  | some z => exact Makes.refl m
  | none =>
    have h := m.makes_pair
    rcases hf : m.pair with ⟨_ | z, m'⟩ <;> rw [hf] at h <;> exact h

end Machine

theorem Draw.makes_run [Arith F] (p : Draw F α) (m : Machine F (Recorded σ)) :
    Makes (p.run m).1.failure? m (p.run m).2 := by
  induction p generalizing m with
  | done a => exact Makes.refl m
  | fault f => exact Makes.refl m
  | stuck => exact Makes.refl m
  | fill n next ih =>
    have h := m.makes_fill n
    simp only [run]
    rcases hf : m.fill n with ⟨e | b, m'⟩ <;> rw [hf] at h
    · exact h
    · exact h.trans (ih b m')
  | deviate next ih =>
    have h := m.makes_deviate
    simp only [run]
    rcases hf : m.deviate with ⟨e | z, m'⟩ <;> rw [hf] at h
    · exact h
    · exact h.trans (ih z m')
  | settled bound value redraws next ih => exact ih _

theorem Draw.endedBy_calls [Arith F] (p : Draw F α) (m : Machine F σ) : EndedBy (p.run m).1.failure? (p.calls m) := by
  obtain ⟨made, hmade, hended⟩ := p.makes_run m.recorded
  have hcalls : p.calls m = made := by rw [Draw.calls, hmade]; rfl
  rwa [hcalls, run_recorded]

theorem Draw.failed_iff_endedBy [Arith F] (p : Draw F α) (m : Machine F σ) (e : Failure) :
    (p.run m).1 = .failed (.source e) ↔ EndedBy (some e) (p.calls m) := by
  have hended := p.endedBy_calls m
  rw [← Outcome.failure?_eq_some]
  constructor
  · intro he
    rwa [he] at hended
  · intro he
    obtain ⟨f, hf⟩ := hended.some_of_refused he.refused
    rw [hf] at hended ⊢
    rw [he.unique hended]

theorem Draw.failed_iff_refused [Arith F] (p : Draw F α) (m : Machine F σ) :
    (∃ e, (p.run m).1 = .failed (.source e)) ↔ ∃ c ∈ p.calls m, ¬ c.Granted := by
  constructor
  · rintro ⟨e, he⟩
    exact ((p.failed_iff_endedBy m e).1 he).refused
  · intro hc
    obtain ⟨e, he⟩ := (p.endedBy_calls m).some_of_refused hc
    exact ⟨e, Outcome.failure?_eq_some.1 he⟩

/-- **A run fails with its source, at once and with its source's words.** For every program and every machine over every source:
the run ends in the failure `e` of the source exactly if its last fill call was refused with `e` and all earlier ones were
granted; and it ends in some failure of the source exactly if one of its calls was refused. -/
theorem failed_iff_call_refused [Arith F] (p : Draw F α) (m : Machine F σ) :
    (∀ e, (p.run m).1 = .failed (.source e) ↔ ∃ granted n written,
      p.calls m = granted ++ [⟨n, .error ⟨written, e⟩⟩] ∧ ∀ c ∈ granted, c.Granted) ∧
    ((∃ e, (p.run m).1 = .failed (.source e)) ↔ ∃ c ∈ p.calls m, ¬ c.Granted) := by
  refine ⟨?_, p.failed_iff_refused m⟩
  intro e
  exact p.failed_iff_endedBy m e

/-! ## Requests -/

/-- is the request an operation of a generator, or a draw from a table? -/
def Request.draws : Request F → Bool
  | .call _ _ _ | .drawRank _ => true
  | _ => false

namespace Session

variable [Arith F]

/-- the fill calls the program of a request makes on its generator's source, oldest first -/
def callsOf (s : Session F σ) (r : Request F) : List FillCall :=
  match s.program? r with
  | none => []
  | some (g, p) =>
    ((s.generators[g]?).bind fun gen => (s.sources[gen.source]?).map fun source => (p gen).calls (gen.machine source)).getD []

variable {s : Session F σ} {r : Request F}

theorem callsOf_of_program {g : Nat} {p : Generator F → Draw F (Value F)} {gen : Generator F} {source : σ}
    (hp : s.program? r = some (g, p)) (hg : s.generators[g]? = some gen) (hs : s.sources[gen.source]? = some source) :
    s.callsOf r = (p gen).calls (gen.machine source) := by
  simp [callsOf, hp, hg, hs]

theorem callsOf_of_absent {g : Nat} {p : Generator F → Draw F (Value F)} (hp : s.program? r = some (g, p)) (h : ¬ s.Holds g) :
    s.callsOf r = [] := by
  rcases absent_cases h with hg | ⟨gen, hg, hs⟩
  · simp [callsOf, hp, hg]
  · simp [callsOf, hp, hg, hs]

/-- a request that draws is answered with the end of a run, whose calls are its calls, or has nothing to run on -/
theorem answer_cases (hr : r.draws = true) :
    (∃ (p : Draw F (Value F)) (m : Machine F σ) (strict : Bool),
      (s.step r).1.ending = ending strict (p.run m).1 ∧ s.callsOf r = p.calls m) ∨
    (s.step r).1.ending = .absent ∧ s.callsOf r = [] := by
  cases r with
  | call g strict c =>
    by_cases hs : s.Holds g
    · obtain ⟨gen, source, hg, hs⟩ := hs
      refine Or.inl ⟨_, gen.machine source, strict && c.hasStrictForm, ?_, callsOf_of_program rfl hg hs⟩
      rw [step_call hg hs]
    · refine Or.inr ⟨?_, callsOf_of_absent rfl hs⟩
      simp only [step, perform_of_absent hs]
  | drawRank t =>
    cases hz : (s.generators[t.generator]?).bind fun gen => gen.tables[t.index]? with
    | none => exact Or.inr ⟨by simp only [step, hz], by simp only [callsOf, program?, hz, Option.map_none]⟩
    | some z =>
      have hp : s.program? (.drawRank t) =
          some (t.generator, fun _ => (fun rank : Nat => Value.integer rank) <$> Draw.zipfRank z) := by
        simp only [program?, hz, Option.map_some]
      by_cases hs : s.Holds t.generator
      · obtain ⟨gen, source, hg, hs⟩ := hs
        refine Or.inl ⟨_, gen.machine source, false, ?_, callsOf_of_program hp hg hs⟩
        simp only [step, hz, perform_eq hg hs]
      · exact Or.inr ⟨by simp only [step, hz, perform_of_absent hs], callsOf_of_absent hp hs⟩
  | _ => cases hr

/-- **A request fails with its generator's source, at once and with its words.** Every operation with its arguments, rejection loops
and nested draws included, in the aborting layer or not, and every draw from a table: the answer is the failure `e` of the source
exactly if the last fill call made was refused with `e` and all earlier ones were granted; and it is some failure of the source
exactly if a call was refused. -/
theorem step_failed_iff_call_refused (hr : r.draws = true) :
    (∀ e, (s.step r).1.ending.error? = some (.source e) ↔ ∃ granted n written,
      s.callsOf r = granted ++ [⟨n, .error ⟨written, e⟩⟩] ∧ ∀ c ∈ granted, c.Granted) ∧
    ((∃ e, (s.step r).1.ending.error? = some (.source e)) ↔ ∃ c ∈ s.callsOf r, ¬ c.Granted) := by
  rcases answer_cases (s := s) hr with ⟨p, m, strict, hending, hcalls⟩ | ⟨hending, hcalls⟩
  · simp only [hending, hcalls, error?_ending]
    exact ⟨fun e => p.failed_iff_endedBy m e, p.failed_iff_refused m⟩
  · rw [hending, hcalls]
    refine ⟨fun e => iff_of_false nofun ?_, iff_of_false ?_ ?_⟩
    · rintro ⟨granted, n, written, h, -⟩
      exact List.append_ne_nil_of_right_ne_nil granted (List.cons_ne_nil _ _) h.symm
    · rintro ⟨e, he⟩
      cases he
    · rintro ⟨c, hc, -⟩
      cases hc

/-- a shuffle of three items draws its second position again, since the word it read is not accepted, and is refused while it does:
the error is the source's, and one swap was made -/
theorem step_failed_iff_call_refused_in_loop :
    let unplugged : Failure := ⟨.brokenPipe, "unplugged"⟩
    let source : Metered Replay :=
      ⟨{ failCalls := [2], failure := unplugged }, Replay.ofWords [6, 0xffffffffffffffff]⟩
    let gen : Generator Float := { source := 0, keepsSpare := true, tries := 9 }
    let s : Session Float (Metered Replay) := { sources := #[source], generators := #[gen] }
    let shuffle : Request Float := .call 0 true (.shuffle ["a", "b", "c"])
    acceptLimit 2 ≤ 0xffffffffffffffff ∧ shuffle.draws = true ∧
      (s.step shuffle).1.ending.error? = some (.source unplugged) ∧ (s.step shuffle).1.items = some ["c", "b", "a"] := by
  intro unplugged source gen s shuffle
  have hcalls : s.callsOf shuffle = [⟨8, .ok (Bytes.ofWord 6)⟩, ⟨8, .ok (Bytes.ofWord 0xffffffffffffffff)⟩] ++
      [⟨8, .error ⟨Meter.overwritten 8, unplugged⟩⟩] := by decide +kernel
  refine ⟨by decide, rfl, ((step_failed_iff_call_refused rfl).1 unplugged).2 ⟨_, 8, _, hcalls, ?_⟩, by decide +kernel⟩
  intro c hc
  rcases List.mem_pair.1 hc with rfl | rfl
  · exact ⟨_, rfl⟩
  · exact ⟨_, rfl⟩

end Session

end Sampling
