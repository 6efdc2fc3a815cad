/-
What one request does to a session.

A request carries out at most one program, on one generator (`Session.program?`). If it carries one out, the step is a run on the
generator's machine, whose source and spare are then put back (`step_of_program`); if its generator or its source is missing,
nothing moves; without a program, generators keep everything but their tables. Proofs about runs of sessions open a step through
these lemmas only.
-/
import Sampling.Session

namespace Sampling

variable {F σ : Type}

/-! ## Machines of a session -/

/-- the machine a generator's programs run on -/
def Generator.machine (gen : Generator F) (source : σ) : Machine F σ :=
  { source, keepsSpare := gen.keepsSpare, spare := gen.spare }

namespace Session

/-- is there a generator with this number, with its source? -/
def Holds (s : Session F σ) (g : Nat) : Prop :=
  ∃ gen source, s.generators[g]? = some gen ∧ s.sources[gen.source]? = some source

theorem absent_cases {s : Session F σ} {g : Nat} (h : ¬ s.Holds g) :
    s.generators[g]? = none ∨ ∃ gen, s.generators[g]? = some gen ∧ s.sources[gen.source]? = none := by
  cases hg : s.generators[g]? with
  | none => exact Or.inl rfl
  | some gen =>
    cases hs : s.sources[gen.source]? with
    | none => exact Or.inr ⟨gen, rfl, hs⟩
    | some source => exact absurd ⟨gen, source, hg, hs⟩ h

/-- put back what a machine left of a generator and its source -/
def keep (s : Session F σ) (g : Nat) (gen : Generator F) (m : Machine F σ) : Session F σ :=
  (s.withSource gen.source m.source m.log).withGenerator g { gen with spare := m.spare }

theorem setIfInBounds_of_getElem? {α : Type} {xs : Array α} {i : Nat} {x : α} (h : xs[i]? = some x) :
    xs.setIfInBounds i x = xs := by
  obtain ⟨hi, rfl⟩ := Array.getElem?_eq_some_iff.1 h
  rw [Array.setIfInBounds, dif_pos hi, Array.set_getElem_self]

theorem withSource_self {s : Session F σ} {i : Nat} {source : σ} (h : s.sources[i]? = some source) :
    s.withSource i source [] = s := by
  simp [withSource, setIfInBounds_of_getElem? h]

theorem withGenerator_self {s : Session F σ} {g : Nat} {gen : Generator F} (h : s.generators[g]? = some gen) :
    s.withGenerator g gen = s := by
  simp [withGenerator, setIfInBounds_of_getElem? h]

theorem keep_machine {s : Session F σ} {g : Nat} {gen : Generator F} {source : σ} (hg : s.generators[g]? = some gen)
    (hs : s.sources[gen.source]? = some source) : s.keep g gen (gen.machine source) = s := by
  have hsource : s.withSource gen.source source [] = s := withSource_self hs
  have hgen : s.withGenerator g gen = s := withGenerator_self hg
  show (s.withSource gen.source source []).withGenerator g gen = s
  rw [hsource, hgen]

theorem generators_keep_of_ne {s : Session F σ} {g g' : Nat} (h : g' ≠ g) (gen : Generator F) (m : Machine F σ) :
    (s.keep g' gen m).generators[g]? = s.generators[g]? :=
  Array.getElem?_setIfInBounds_ne h

theorem generators_keep_self {s : Session F σ} {g : Nat} {gen : Generator F} (hg : s.generators[g]? = some gen)
    (m : Machine F σ) : (s.keep g gen m).generators[g]? = some { gen with spare := m.spare } := by
  obtain ⟨hlt, -⟩ := Array.getElem?_eq_some_iff.1 hg
  exact Array.getElem?_setIfInBounds_self_of_lt hlt

theorem generators_withTable {s : Session F σ} {g g' : Nat} {gen gen' : Generator F} (hg' : s.generators[g']? = some gen')
    (z : Zipf F) (hg : s.generators[g]? = some gen) :
    ∃ tables, (s.withTable g' gen' z).generators[g]? = some { gen with tables } := by
  by_cases h : g' = g
  · subst h
    rw [hg] at hg'
    cases hg'
    obtain ⟨hlt, -⟩ := Array.getElem?_eq_some_iff.1 hg
    exact ⟨gen.tables.push z, Array.getElem?_setIfInBounds_self_of_lt hlt⟩
  · refine ⟨gen.tables, ?_⟩
    rw [← hg]
    exact Array.getElem?_setIfInBounds_ne h

/-! ## Programs of requests -/

variable [Arith F]

/-- the program a request carries out, and the generator it runs on -/
def program? (s : Session F σ) : Request F → Option (Nat × (Generator F → Draw F (Value F)))
  | .call g _ c => some (g, fun gen => c.program gen.clock gen.tries)
  | .drawRank t =>
    ((s.generators[t.generator]?).bind fun gen => gen.tables[t.index]?).map fun z =>
      (t.generator, fun _ => (fun rank : Nat => Value.integer rank) <$> Draw.zipfRank z)
  | _ => none

variable [Entropy σ]

section
variable {s : Session F σ} {g : Nat} {gen : Generator F} {source : σ}

theorem perform_eq {α : Type} (hg : s.generators[g]? = some gen) (hs : s.sources[gen.source]? = some source)
    (p : Generator F → Draw F α) :
    s.perform g p = some (((p gen).run (gen.machine source)).1, ((p gen).run (gen.machine source)).2.accepted,
      s.keep g gen ((p gen).run (gen.machine source)).2) := by
  unfold perform
  rw [hg, Option.bind_eq_bind, Option.bind_some, hs, Option.bind_eq_bind, Option.bind_some]
  rfl

theorem perform_of_absent {α : Type} (h : ¬ s.Holds g) (p : Generator F → Draw F α) : s.perform g p = none := by
  rcases absent_cases h with hg | ⟨gen, hg, hs⟩
  · simp [perform, hg]
  · simp [perform, hg, hs]

/-! ## Steps -/

theorem step_call (hg : s.generators[g]? = some gen) (hs : s.sources[gen.source]? = some source) (strict : Bool) (c : Call F) :
    s.step (.call g strict c) =
      ({ ending := ending (strict && c.hasStrictForm) ((c.program gen.clock gen.tries).run (gen.machine source)).1,
         items := c.leftBehind? (((c.program gen.clock gen.tries).run (gen.machine source)).2.accepted.map (·.2.toNat)) },
       s.keep g gen ((c.program gen.clock gen.tries).run (gen.machine source)).2) := by
  simp only [step, perform_eq hg hs]

theorem step_of_program {r : Request F} {p : Generator F → Draw F (Value F)} (hp : s.program? r = some (g, p))
    (hg : s.generators[g]? = some gen) (hs : s.sources[gen.source]? = some source) :
    (s.step r).2 = s.keep g gen ((p gen).run (gen.machine source)).2 := by
  cases r with
  | call g' strict c =>
    cases hp
    rw [step_call hg hs]
  | drawRank t =>
    simp only [program?, Option.map_eq_some_iff] at hp
    obtain ⟨z, hz, heq⟩ := hp
    cases heq
    simp only [step, hz, perform_eq hg hs]
  | _ => cases hp

theorem step_of_absent {r : Request F} {p : Generator F → Draw F (Value F)} (hp : s.program? r = some (g, p))
    (h : ¬ s.Holds g) : (s.step r).2 = s := by
  cases r with
  | call g' strict c =>
    cases hp
    simp only [step, perform_of_absent h]
  | drawRank t =>
    simp only [program?, Option.map_eq_some_iff] at hp
    obtain ⟨z, hz, heq⟩ := hp
    cases heq
    simp only [step, hz, perform_of_absent h]
  | _ => cases hp

omit [Arith F] [Entropy σ] in
theorem throughGenerator_eq (hg : s.generators[g]? = some gen) (hs : s.sources[gen.source]? = some source) {n : Nat}
    {read : σ → Reply σ} {failed : Failure → Ending F} :
    s.throughGenerator g n read failed =
      (match (read source).outcome with
        | .ok b => { ending := .transferred n, buffer := some b }
        | .error e => { ending := failed e.failure, buffer := some (overlay n e.written) },
       s.withSource gen.source (read source).next (read source).log) := by
  simp only [throughGenerator, hg, hs]
  cases (read source).outcome <;> rfl

omit [Arith F] [Entropy σ] in
theorem throughGenerator_of_absent (h : ¬ s.Holds g) {n : Nat} {read : σ → Reply σ} {failed : Failure → Ending F} :
    s.throughGenerator g n read failed = ({ ending := .absent }, s) := by
  rcases absent_cases h with hg | ⟨gen, hg, hs⟩
  · simp only [throughGenerator, hg]
  · simp only [throughGenerator, hg, hs]

omit [Arith F] [Entropy σ] in
theorem generators_throughGenerator (s : Session F σ) (g n : Nat) (read : σ → Reply σ) (failed : Failure → Ending F) :
    (s.throughGenerator g n read failed).2.generators = s.generators := by
  unfold throughGenerator
  cases s.generators[g]? with
  | none => rfl
  | some gen =>
    dsimp only
    cases s.sources[gen.source]? with
    | none => rfl
    | some source =>
      dsimp only
      cases (read source).outcome <;> rfl

theorem generators_step_of_no_program {r : Request F} (hp : s.program? r = none) (hg : s.generators[g]? = some gen) :
    ∃ tables, (s.step r).2.generators[g]? = some { gen with tables } := by
  have still : s.generators[g]? = some { gen with tables := gen.tables } := hg
  cases r with
  | call g' strict c => cases hp
  | fill g' n => exact ⟨_, (congrArg (·[g]?) (generators_throughGenerator s g' n _ _)).trans still⟩
  | read g' n => exact ⟨_, (congrArg (·[g]?) (generators_throughGenerator s g' n _ _)).trans still⟩
  | readExact g' n => exact ⟨_, (congrArg (·[g]?) (generators_throughGenerator s g' n _ _)).trans still⟩
  | fillFrom i n =>
    refine ⟨_, Eq.trans ?_ still⟩
    simp only [step]
    cases s.sources[i]? with
    | none => rfl
    | some source =>
      dsimp only
      cases (Entropy.fill source n).outcome <;> rfl
  | now g' =>
    refine ⟨_, Eq.trans ?_ still⟩
    simp only [step]
    cases s.generators[g']? <;> rfl
  | buildTable g' a v n =>
    simp only [step]
    cases hg' : s.generators[g']? with
    | none => exact ⟨_, still⟩
    | some gen' =>
      cases Zipf.build? a v n with
      | error f => exact ⟨_, still⟩
      | ok z => exact generators_withTable hg' z hg
  | copyTable t =>
    simp only [step]
    cases hg' : s.generators[t.generator]? with
    | none => exact ⟨_, still⟩
    | some gen' =>
      dsimp only
      cases gen'.tables[t.index]? with
      | none => exact ⟨_, still⟩
      | some z => exact generators_withTable hg' z hg
  | drawRank t =>
    simp only [program?, Option.map_eq_none_iff] at hp
    exact ⟨_, by simpa only [step, hp] using still⟩

end

/-! ## Lists of requests -/

theorem run_append (s : Session F σ) (rs rs' : List (Request F)) :
    s.run (rs ++ rs') = ((s.run rs).1 ++ ((s.run rs).2.run rs').1, ((s.run rs).2.run rs').2) := by
  induction rs generalizing s with
  | nil => rfl
  | cons r rest ih =>
    simp only [List.cons_append, run]
    rw [ih]

/-! ## Histories -/

/-- the machine a program leaves when it is run on a generator -/
def after? (s : Session F σ) (g : Nat) (p : Generator F → Draw F (Value F)) : Option (Machine F σ) := do
  let gen ← s.generators[g]?
  let source ← s.sources[gen.source]?
  some ((p gen).run (gen.machine source)).2

/-- what happens on a generator while a request is answered, oldest first -/
def eventsOf (s : Session F σ) (g : Nat) (r : Request F) : List (Event F) :=
  match s.program? r with
  | none => []
  | some (g', p) => if g' = g then ((s.after? g p).map (·.trace.reverse)).getD [] else []

/-- what happens on a generator while a list of requests is answered, oldest first -/
def history (s : Session F σ) (g : Nat) : List (Request F) → List (Event F)
  | [] => []
  | r :: rest => s.eventsOf g r ++ (s.step r).2.history g rest

section
variable {s : Session F σ} {g : Nat} {r : Request F}

theorem eventsOf_of_no_program (hp : s.program? r = none) : s.eventsOf g r = [] := by
  simp only [eventsOf, hp]

theorem eventsOf_of_ne {g' : Nat} {p : Generator F → Draw F (Value F)} (hp : s.program? r = some (g', p)) (h : g' ≠ g) :
    s.eventsOf g r = [] := by
  simp only [eventsOf, hp, if_neg h]

theorem eventsOf_of_program {p : Generator F → Draw F (Value F)} {gen : Generator F} {source : σ}
    (hp : s.program? r = some (g, p)) (hg : s.generators[g]? = some gen) (hs : s.sources[gen.source]? = some source) :
    s.eventsOf g r = ((p gen).run (gen.machine source)).2.trace.reverse := by
  simp [eventsOf, hp, after?, hg, hs]

theorem eventsOf_of_absent {p : Generator F → Draw F (Value F)} (hp : s.program? r = some (g, p)) (h : ¬ s.Holds g) :
    s.eventsOf g r = [] := by
  rcases absent_cases h with hg | ⟨gen, hg, hs⟩
  · simp [eventsOf, hp, after?, hg]
  · simp [eventsOf, hp, after?, hg, hs]

end

end Session

end Sampling
