/-
Sources do not interfere.

A request touches at most one source: the one it is made to, or the one its generator is bound to. All it can do is move that source
and put back the generator it is made to (`Session.Effect`), so whoever looks at another source sees nothing of it
(`Effect.sameOn`); and what it does there is decided by that source and its generators alone (`SameOn.step`). The bindings never
change, so both facts carry over to lists of requests (`SameOn.run`, by induction on the requests).

`sources_do_not_interfere`: the requests to other sources can be deleted, neighbouring requests to different sources can be
exchanged, and a request leaves every generator but its own alone, also one on the same source.
-/
import Sampling.Arith.Binary64
import Sampling.Proofs.SessionStep
import Sampling.Source.Replay

namespace Sampling

variable {F σ : Type}

def Request.generator? : Request F → Option Nat
  | .call g _ _ | .fill g _ | .read g _ | .readExact g _ | .now g | .buildTable g _ _ _ => some g
  | .copyTable t | .drawRank t => some t.generator
  | .fillFrom _ _ => none

namespace Session

/-! ## What a request touches -/

/-- the source a request touches: the one it is made to, or the one its generator is bound to -/
def touched? (s : Session F σ) : Request F → Option Nat
  | .fillFrom i _ => some i
  | r => r.generator?.bind fun g => (s.generators[g]?).map (·.source)

/-- requests without those that touch another source than `i` -/
def only (s : Session F σ) (i : Nat) (rs : List (Request F)) : List (Request F) :=
  rs.filter fun r => (s.touched? r).all (· == i)

/-- the same at source `i`: the source itself, and the generators bound to it, with their spares and tables -/
structure SameOn (i : Nat) (s s' : Session F σ) : Prop where
  source : s.sources[i]? = s'.sources[i]?
  generators : ∀ (g : Nat) (gen : Generator F), gen.source = i → (s.generators[g]? = some gen ↔ s'.generators[g]? = some gen)

variable {s s' s'' : Session F σ} {i g : Nat} {gen : Generator F} {r : Request F}

theorem touched?_of_generator (hr : r.generator? = some g) (hg : s.generators[g]? = some gen) :
    s.touched? r = some gen.source := by
  cases r <;> cases hr <;> simp [touched?, Request.generator?, hg]

theorem touched?_cases (hr : s.touched? r = some i) :
    (∃ n, r = .fillFrom i n) ∨ ∃ g gen, r.generator? = some g ∧ s.generators[g]? = some gen ∧ gen.source = i := by
  have through : (r.generator?.bind fun g => (s.generators[g]?).map (·.source)) = some i →
      ∃ g gen, r.generator? = some g ∧ s.generators[g]? = some gen ∧ gen.source = i := by
    intro h
    obtain ⟨g, hg, h⟩ := Option.bind_eq_some_iff.1 h
    obtain ⟨gen, hgen, hi⟩ := Option.map_eq_some_iff.1 h
    exact ⟨g, gen, hg, hgen, hi⟩
  cases r with
  | fillFrom j n =>
    cases hr
    exact Or.inl ⟨n, rfl⟩
  | _ => exact Or.inr (through hr)

namespace SameOn

theorem refl (i : Nat) (s : Session F σ) : s.SameOn i s := ⟨rfl, fun _ _ _ => Iff.rfl⟩

theorem symm (h : s.SameOn i s') : s'.SameOn i s := ⟨h.source.symm, fun g gen hi => (h.generators g gen hi).symm⟩

theorem trans (h : s.SameOn i s') (h' : s'.SameOn i s'') : s.SameOn i s'' :=
  ⟨h.source.trans h'.source, fun g gen hi => (h.generators g gen hi).trans (h'.generators g gen hi)⟩

theorem touched? (h : s.SameOn i s') (hr : s.touched? r = some i) : s'.touched? r = some i := by
  rcases touched?_cases hr with ⟨n, rfl⟩ | ⟨g, gen, hr, hg, hi⟩
  · rfl
  · rw [touched?_of_generator hr ((h.generators g gen hi).1 hg), hi]

theorem all (h : ∀ i, s.SameOn i s') : s.sources = s'.sources ∧ s.generators = s'.generators := by
  refine ⟨Array.ext_getElem? fun i => (h i).source, Array.ext_getElem? fun g => ?_⟩
  exact Option.ext fun gen => (h gen.source).generators g gen rfl

end SameOn

/-! ## What a request can do -/

/-- all a request can do: nothing, move the source it touches, or put back the generator it is made to -/
inductive Effect (s : Session F σ) (r : Request F) : Session F σ → Prop where
  | none : Effect s r s
  | source {i : Nat} {x : σ} {lines : List LogLine} (hr : s.touched? r = some i) : Effect s r (s.withSource i x lines)
  | program {g : Nat} {gen : Generator F} {m : Machine F σ} (hr : r.generator? = some g) (hg : s.generators[g]? = some gen) :
    Effect s r (s.keep g gen m)
  | table {g : Nat} {gen : Generator F} {z : Zipf F} (hr : r.generator? = some g) (hg : s.generators[g]? = some gen) :
    Effect s r (s.withTable g gen z)

theorem effect_throughGenerator (hr : r.generator? = some g) (n : Nat) (read : σ → Reply σ) (failed : Failure → Ending F) :
    s.Effect r (s.throughGenerator g n read failed).2 := by
  by_cases hs : s.Holds g
  · obtain ⟨gen, x, hg, hs⟩ := hs
    rw [throughGenerator_eq hg hs]
    exact .source (touched?_of_generator hr hg)
  · rw [throughGenerator_of_absent hs]
    exact .none

theorem generator?_of_program [Arith F] {p : Generator F → Draw F (Value F)} (hp : s.program? r = some (g, p)) :
    r.generator? = some g := by
  cases r with
  | call g' strict c =>
    cases hp
    rfl
  | drawRank t =>
    simp only [program?, Option.map_eq_some_iff] at hp
    obtain ⟨z, -, heq⟩ := hp
    cases heq
    rfl
  | _ => cases hp

/-- **One request** does what a request can do, and no more. -/
theorem effect_step [Arith F] [Entropy σ] (s : Session F σ) (r : Request F) : s.Effect r (s.step r).2 := by
  cases hp : s.program? r with
  | some gp =>
    obtain ⟨g, p⟩ := gp
    by_cases hs : s.Holds g
    · obtain ⟨gen, x, hg, hs⟩ := hs
      rw [step_of_program hp hg hs]
      exact .program (generator?_of_program hp) hg
    · rw [step_of_absent hp hs]
      exact .none
  | none =>
    cases r with
    | call g strict c => cases hp
    | fill g n => exact effect_throughGenerator rfl n _ _
    | read g n => exact effect_throughGenerator rfl n _ _
    | readExact g n => exact effect_throughGenerator rfl n _ _
    | fillFrom i n =>
      simp only [step]
      cases s.sources[i]? with
      | none => exact .none
      | some x =>
        dsimp only
        cases (Entropy.fill x n).outcome <;> exact .source rfl
    | now g =>
      simp only [step]
      cases s.generators[g]? <;> exact .none
    | buildTable g a v n =>
      simp only [step]
      cases hg : s.generators[g]? with
      | none => exact .none
      | some gen =>
        cases Zipf.build? a v n with
        | error f => exact .none
        | ok z => exact .table rfl hg
    | copyTable t =>
      simp only [step]
      cases hg : s.generators[t.generator]? with
      | none => exact .none
      | some gen =>
        dsimp only
        cases gen.tables[t.index]? with
        | none => exact .none
        | some z => exact .table rfl hg
    | drawRank t =>
      simp only [program?, Option.map_eq_none_iff] at hp
      simp only [step, hp]
      exact .none

/-! ## What others see of it -/

theorem sameOn_withSource_of_ne {j : Nat} (hne : j ≠ i) (s : Session F σ) (x : σ) (lines : List LogLine) :
    s.SameOn i (s.withSource j x lines) :=
  ⟨(Array.getElem?_setIfInBounds_ne hne).symm, fun _ _ _ => Iff.rfl⟩

theorem sameOn_withGenerator_of_ne (hg : s.generators[g]? = some gen) (gen' : Generator F)
    (hsource : gen'.source = gen.source) (hne : gen.source ≠ i) : s.SameOn i (s.withGenerator g gen') := by
  refine ⟨rfl, fun g' other ho => ?_⟩
  by_cases heq : g = g'
  · subst heq
    obtain ⟨hlt, -⟩ := Array.getElem?_eq_some_iff.1 hg
    simp only [withGenerator, Array.getElem?_setIfInBounds_self_of_lt hlt, hg, Option.some.injEq]
    constructor
    · rintro rfl
      exact absurd ho hne
    · rintro rfl
      exact absurd (hsource.symm.trans ho) hne
  · simp only [withGenerator, Array.getElem?_setIfInBounds_ne heq]

theorem bound_withGenerator (hg : s.generators[g]? = some gen) (gen' : Generator F) (hsource : gen'.source = gen.source)
    (g' : Nat) : ((s.withGenerator g gen').generators[g']?).map (·.source) = (s.generators[g']?).map (·.source) := by
  by_cases heq : g = g'
  · subst heq
    obtain ⟨hlt, -⟩ := Array.getElem?_eq_some_iff.1 hg
    simp only [withGenerator, Array.getElem?_setIfInBounds_self_of_lt hlt, hg, Option.map_some, hsource]
  · simp only [withGenerator, Array.getElem?_setIfInBounds_ne heq]

namespace Effect

/-- **The frame.** A request that does not touch a source leaves everything on it as it was. -/
theorem sameOn (h : s.Effect r s') (hr : s.touched? r ≠ some i) : s.SameOn i s' := by
  cases h with
  | none => exact .refl i s
  | @source j x lines hj =>
    have hne : j ≠ i := fun heq => hr (heq ▸ hj)
    exact sameOn_withSource_of_ne hne s x lines
  | @program g gen m hgr hg =>
    have hne : gen.source ≠ i := fun heq => hr (heq ▸ touched?_of_generator hgr hg)
    have hsource := sameOn_withSource_of_ne hne s m.source m.log
    have hg' : (s.withSource gen.source m.source m.log).generators[g]? = some gen := hg
    exact hsource.trans (sameOn_withGenerator_of_ne hg' { gen with spare := m.spare } rfl hne)
  | @table g gen z hgr hg =>
    have hne : gen.source ≠ i := fun heq => hr (heq ▸ touched?_of_generator hgr hg)
    have hgen : s.SameOn i (s.withGenerator g { gen with tables := gen.tables.push z }) :=
      sameOn_withGenerator_of_ne hg _ rfl hne
    exact ⟨hgen.source, hgen.generators⟩

theorem touched? (h : s.Effect r s') (r' : Request F) : s'.touched? r' = s.touched? r' := by
  have hbound : ∀ g' : Nat, (s'.generators[g']?).map Generator.source = (s.generators[g']?).map Generator.source := by
    intro g'
    cases h with
    | none => rfl
    | source _ => rfl
    | @program g gen m _ hg =>
      exact bound_withGenerator hg { gen with spare := m.spare } rfl g'
    | @table g gen z _ hg =>
      exact bound_withGenerator hg { gen with tables := gen.tables.push z } rfl g'
  cases r' <;> simp only [Session.touched?, Request.generator?, Option.bind_some, hbound]

theorem generator (h : s.Effect r s') (hr : r.generator? ≠ some g) : s'.generators[g]? = s.generators[g]? := by
  cases h with
  | none => rfl
  | source _ => rfl
  | @program g' gen m hgr _ =>
    have hne : g' ≠ g := fun heq => hr (heq ▸ hgr)
    exact generators_keep_of_ne hne gen m
  | @table g' gen z hgr _ =>
    have hne : g' ≠ g := fun heq => hr (heq ▸ hgr)
    exact Array.getElem?_setIfInBounds_ne hne

end Effect

/-! ## What a request does where it is made -/

namespace SameOn

theorem withSource (h : s.SameOn i s') (x : σ) (lines lines' : List LogLine) :
    (s.withSource i x lines).SameOn i (s'.withSource i x lines') := by
  refine ⟨?_, h.generators⟩
  have hsize : s.sources.size ≤ i ↔ s'.sources.size ≤ i := by
    rw [← Array.getElem?_eq_none_iff, ← Array.getElem?_eq_none_iff, h.source]
  simp only [Session.withSource, Array.getElem?_setIfInBounds_self, ← Nat.not_le, hsize]

theorem withGenerator (h : s.SameOn i s') (hg : s.generators[g]? = some gen) (hi : gen.source = i) (gen' : Generator F) :
    (s.withGenerator g gen').SameOn i (s'.withGenerator g gen') := by
  refine ⟨h.source, fun g' other ho => ?_⟩
  by_cases heq : g = g'
  · subst heq
    obtain ⟨hlt, -⟩ := Array.getElem?_eq_some_iff.1 hg
    obtain ⟨hlt', -⟩ := Array.getElem?_eq_some_iff.1 ((h.generators g gen hi).1 hg)
    simp only [Session.withGenerator, Array.getElem?_setIfInBounds_self_of_lt hlt,
      Array.getElem?_setIfInBounds_self_of_lt hlt']
  · simp only [Session.withGenerator, Array.getElem?_setIfInBounds_ne heq]
    exact h.generators g' other ho

theorem keep (h : s.SameOn i s') (hg : s.generators[g]? = some gen) (hi : gen.source = i) (m : Machine F σ) :
    (s.keep g gen m).SameOn i (s'.keep g gen m) := by
  subst hi
  exact (h.withSource m.source m.log m.log).withGenerator hg rfl _

theorem withTable (h : s.SameOn i s') (hg : s.generators[g]? = some gen) (hi : gen.source = i) (z : Zipf F) :
    (s.withTable g gen z).SameOn i (s'.withTable g gen z) :=
  have hgen := h.withGenerator hg hi { gen with tables := gen.tables.push z }
  ⟨hgen.source, hgen.generators⟩

theorem holds (h : s.SameOn i s') (hg : s.generators[g]? = some gen) (hi : gen.source = i) :
    (¬ s.Holds g ∧ ¬ s'.Holds g) ∨ ∃ x, s.sources[gen.source]? = some x ∧ s'.sources[gen.source]? = some x := by
  subst hi
  have hg' := (h.generators g gen rfl).1 hg
  cases hs : s.sources[gen.source]? with
  | some x => exact Or.inr ⟨x, rfl, h.source ▸ hs⟩
  | none =>
    have hs' : s'.sources[gen.source]? = none := h.source ▸ hs
    refine Or.inl ⟨?_, ?_⟩
    · rintro ⟨gen', x, hgen, hx⟩
      cases hg.symm.trans hgen
      cases hs.symm.trans hx
    · rintro ⟨gen', x, hgen, hx⟩
      cases hg'.symm.trans hgen
      cases hs'.symm.trans hx

theorem throughGenerator (h : s.SameOn i s') (hg : s.generators[g]? = some gen) (hi : gen.source = i) (n : Nat)
    (read : σ → Reply σ) (failed : Failure → Ending F) :
    (s.throughGenerator g n read failed).1 = (s'.throughGenerator g n read failed).1 ∧
      (s.throughGenerator g n read failed).2.SameOn i (s'.throughGenerator g n read failed).2 := by
  have hg' := (h.generators g gen hi).1 hg
  rcases h.holds hg hi with ⟨hs, hs'⟩ | ⟨x, hs, hs'⟩
  · rw [throughGenerator_of_absent hs, throughGenerator_of_absent hs']
    exact ⟨rfl, h⟩
  · rw [throughGenerator_eq hg hs, throughGenerator_eq hg' hs', hi]
    exact ⟨rfl, h.withSource _ _ _⟩

variable [Arith F] [Entropy σ]

theorem perform (h : s.SameOn i s') (hg : s.generators[g]? = some gen) (hi : gen.source = i)
    (p : Generator F → Draw F (Value F)) :
    (s.perform g p = none ∧ s'.perform g p = none) ∨
      ∃ o draws t t', s.perform g p = some (o, draws, t) ∧ s'.perform g p = some (o, draws, t') ∧ t.SameOn i t' := by
  have hg' := (h.generators g gen hi).1 hg
  rcases h.holds hg hi with ⟨hs, hs'⟩ | ⟨x, hs, hs'⟩
  · exact Or.inl ⟨perform_of_absent hs p, perform_of_absent hs' p⟩
  · exact Or.inr ⟨_, _, _, _, perform_eq hg hs p, perform_eq hg' hs' p, h.keep hg hi _⟩

/-- **What a request does where it is made** is decided by what is there. -/
theorem step (h : s.SameOn i s') (hr : s.touched? r = some i) :
    (s.step r).1 = (s'.step r).1 ∧ (s.step r).2.SameOn i (s'.step r).2 := by
  rcases touched?_cases hr with ⟨n, rfl⟩ | ⟨g, gen, hr, hg, hi⟩
  · simp only [Session.step, ← h.source]
    cases s.sources[i]? with
    | none => exact ⟨rfl, h⟩
    | some x =>
      dsimp only
      cases (Entropy.fill x n).outcome <;> exact ⟨rfl, h.withSource _ _ _⟩
  · have hg' := (h.generators g gen hi).1 hg
    cases r with
    | fillFrom j n => cases hr
    | call g' strict c =>
      cases hr
      simp only [Session.step]
      rcases h.perform hg hi fun gen => c.program gen.clock gen.tries with
        ⟨hp, hp'⟩ | ⟨o, draws, t, t', hp, hp', ht⟩
      · simp only [hp, hp']
        exact ⟨trivial, h⟩
      · simp only [hp, hp']
        exact ⟨trivial, ht⟩
    | fill g' n =>
      cases hr
      exact h.throughGenerator hg hi n _ _
    | read g' n =>
      cases hr
      exact h.throughGenerator hg hi n _ _
    | readExact g' n =>
      cases hr
      exact h.throughGenerator hg hi n _ _
    | now g' =>
      cases hr
      simp only [Session.step, hg, hg']
      exact ⟨trivial, h⟩
    | buildTable g' a v n =>
      cases hr
      simp only [Session.step, hg, hg']
      cases Zipf.build? a v n with
      | error f => exact ⟨rfl, h⟩
      | ok z => exact ⟨rfl, h.withTable hg hi z⟩
    | copyTable t =>
      cases hr
      simp only [Session.step, hg, hg']
      cases gen.tables[t.index]? with
      | none => exact ⟨rfl, h⟩
      | some z => exact ⟨rfl, h.withTable hg hi z⟩
    | drawRank t =>
      cases hr
      simp only [Session.step, hg, hg', Option.bind_some]
      cases gen.tables[t.index]? with
      | none => exact ⟨rfl, h⟩
      | some z =>
        dsimp only
        rcases h.perform hg hi fun _ => (fun rank : Nat => Value.integer rank) <$> Draw.zipfRank z with
          ⟨hp, hp'⟩ | ⟨o, draws, t, t', hp, hp', ht⟩
        · simp only [hp, hp']
          exact ⟨trivial, h⟩
        · simp only [hp, hp']
          exact ⟨trivial, ht⟩

end SameOn

/-! ## Runs -/

variable [Arith F] [Entropy σ]

theorem touched?_step (s : Session F σ) (r r' : Request F) : (s.step r).2.touched? r' = s.touched? r' :=
  (effect_step s r).touched? r'

theorem step_of_untouched (hr : s.touched? r = none) : s.step r = ({ ending := .absent }, s) := by
  cases r with
  | fillFrom i n => cases hr
  | _ =>
    simp only [touched?, Request.generator?, Option.bind_some, Option.map_eq_none_iff] at hr
    simp [step, perform, throughGenerator, hr]

/-- the answers of a run to the requests that touch a source -/
def answersOn (s : Session F σ) (i : Nat) (rs : List (Request F)) : List (Answer F) :=
  ((rs.zip (s.run rs).1).filter fun ra => s.touched? ra.1 == some i).map Prod.snd

theorem answersOn_cons (s : Session F σ) (i : Nat) (r : Request F) (rs : List (Request F)) :
    s.answersOn i (r :: rs) =
      if s.touched? r = some i then (s.step r).1 :: (s.step r).2.answersOn i rs else (s.step r).2.answersOn i rs := by
  simp only [answersOn, touched?_step]
  by_cases hr : s.touched? r = some i
  · simp [run, hr]
  · simp [run, hr]

/-- **Deletion.** Requests that do not touch a source can be left out, any of them: what is answered there, and what is left
there, stays the same. -/
theorem SameOn.run (h : s.SameOn i s') {kept : Request F → Bool} (hkept : ∀ r, s.touched? r = some i → kept r = true)
    (rs : List (Request F)) :
    s.answersOn i rs = s'.answersOn i (rs.filter kept) ∧ (s.run rs).2.SameOn i (s'.run (rs.filter kept)).2 := by
  induction rs generalizing s s' with
  | nil => exact ⟨rfl, h⟩
  | cons r rs ih =>
    have hkept' : ∀ r', (s.step r).2.touched? r' = some i → kept r' = true := fun r' hr' =>
      hkept r' (touched?_step s r r' ▸ hr')
    by_cases hr : s.touched? r = some i
    · obtain ⟨hanswer, hnext⟩ := h.step hr
      obtain ⟨hanswers, hend⟩ := ih hnext hkept'
      rw [List.filter_cons_of_pos (hkept r hr), answersOn_cons, answersOn_cons, if_pos hr, if_pos (h.touched? hr), hanswer,
        hanswers]
      exact ⟨rfl, hend⟩
    · have hframe := (effect_step s r).sameOn hr
      rw [answersOn_cons, if_neg hr]
      by_cases hk : kept r = true
      · have hr' : s'.touched? r ≠ some i := fun h' => hr (h.symm.touched? h')
        have hframe' := (effect_step s' r).sameOn hr'
        rw [List.filter_cons_of_pos hk, answersOn_cons, if_neg hr']
        exact ih ((hframe.symm.trans h).trans hframe') hkept'
      · rw [List.filter_cons_of_neg hk]
        exact ih (hframe.symm.trans h) hkept'

theorem step_congr (h : ∀ i, s.SameOn i s') (r : Request F) :
    (s.step r).1 = (s'.step r).1 ∧ ∀ i, (s.step r).2.SameOn i (s'.step r).2 := by
  have untouched : ∀ {s s' : Session F σ}, (∀ i, s.SameOn i s') → s.touched? r = none → s'.touched? r = none := by
    intro s s' h hr
    refine Option.eq_none_iff_forall_ne_some.2 fun j hj => ?_
    cases hr.symm.trans ((h j).symm.touched? hj)
  cases hr : s.touched? r with
  | none =>
    rw [step_of_untouched hr, step_of_untouched (untouched h hr)]
    exact ⟨rfl, h⟩
  | some j =>
    have hr' := (h j).touched? hr
    refine ⟨((h j).step hr).1, fun i => ?_⟩
    by_cases hj : j = i
    · subst hj
      exact ((h j).step hr).2
    · have hne : s.touched? r ≠ some i := fun h' => hj (Option.some.inj (hr.symm.trans h'))
      have hne' : s'.touched? r ≠ some i := fun h' => hj (Option.some.inj (hr'.symm.trans h'))
      exact (((effect_step s r).sameOn hne).symm.trans (h i)).trans ((effect_step s' r).sameOn hne')

theorem run_congr (h : ∀ i, s.SameOn i s') (rs : List (Request F)) :
    (s.run rs).1 = (s'.run rs).1 ∧ ∀ i, (s.run rs).2.SameOn i (s'.run rs).2 := by
  induction rs generalizing s s' with
  | nil => exact ⟨rfl, h⟩
  | cons r rs ih =>
    obtain ⟨hanswer, hnext⟩ := step_congr h r
    obtain ⟨hanswers, hend⟩ := ih hnext
    simp only [Session.run, hanswer, hanswers]
    exact ⟨trivial, hend⟩

/-- what one request does on the source another one does not touch -/
theorem step_after_step {r' : Request F} (hne : s.touched? r ≠ s.touched? r') :
    ((s.step r).2.step r').1 = (s.step r').1 ∧
      ∀ i, s.touched? r ≠ some i → ((s.step r).2.step r').2.SameOn i (s.step r').2 := by
  cases hr' : s.touched? r' with
  | none =>
    rw [step_of_untouched hr', step_of_untouched ((touched?_step s r r').trans hr')]
    exact ⟨rfl, fun i hi => ((effect_step s r).sameOn hi).symm⟩
  | some j =>
    have hj := ((effect_step s r).sameOn (hr' ▸ hne)).symm.step ((touched?_step s r r').trans hr')
    refine ⟨hj.1, fun i hi => ?_⟩
    by_cases hij : j = i
    · subst hij
      exact hj.2
    · have hi' : s.touched? r' ≠ some i := fun h' => hij (Option.some.inj (hr'.symm.trans h'))
      have hframe := (effect_step (s.step r).2 r').sameOn ((touched?_step s r r').symm ▸ hi')
      exact (hframe.symm.trans ((effect_step s r).sameOn hi).symm).trans ((effect_step s r').sameOn hi')

/-- **Exchange.** Two requests that touch different sources are answered alike in either order, and leave the same behind. -/
theorem step_comm {r' : Request F} (hne : s.touched? r ≠ s.touched? r') :
    ((s.step r).2.step r').1 = (s.step r').1 ∧ ((s.step r').2.step r).1 = (s.step r).1 ∧
      ∀ i, ((s.step r).2.step r').2.SameOn i ((s.step r').2.step r).2 := by
  obtain ⟨hanswer, hafter⟩ := step_after_step hne
  obtain ⟨hanswer', hafter'⟩ := step_after_step hne.symm
  refine ⟨hanswer, hanswer', fun i => ?_⟩
  by_cases hr : s.touched? r = some i
  · have hr' : s.touched? r' ≠ some i := fun h' => hne (hr.trans h'.symm)
    have hframe := (effect_step (s.step r).2 r').sameOn ((touched?_step s r r').symm ▸ hr')
    exact (hafter' i hr' |>.trans hframe).symm
  · have hframe := (effect_step (s.step r').2 r).sameOn ((touched?_step s r' r).symm ▸ hr)
    exact (hafter i hr).trans hframe

theorem touched?_run (s : Session F σ) (rs : List (Request F)) (r : Request F) : (s.run rs).2.touched? r = s.touched? r := by
  induction rs generalizing s with
  | nil => rfl
  | cons r' rs ih => exact (ih _).trans (touched?_step s r' r)

theorem length_run (s : Session F σ) (rs : List (Request F)) : (s.run rs).1.length = rs.length := by
  induction rs generalizing s with
  | nil => rfl
  | cons r rs ih => exact congrArg (· + 1) (ih _)

/-- neighbouring requests to different sources, anywhere in a list, can be exchanged -/
theorem run_exchange {r' : Request F} (hne : s.touched? r ≠ s.touched? r') (front back : List (Request F)) :
    ∃ before a a' behind, before.length = front.length ∧
      (s.run (front ++ r :: r' :: back)).1 = before ++ a :: a' :: behind ∧
      (s.run (front ++ r' :: r :: back)).1 = before ++ a' :: a :: behind ∧
      ∀ i, (s.run (front ++ r :: r' :: back)).2.SameOn i (s.run (front ++ r' :: r :: back)).2 := by
  have hne' : (s.run front).2.touched? r ≠ (s.run front).2.touched? r' := by
    rw [touched?_run, touched?_run]
    exact hne
  obtain ⟨hfirst, hsecond, hend⟩ := step_comm hne'
  obtain ⟨hback, hbackend⟩ := run_congr hend back
  refine ⟨(s.run front).1, ((s.run front).2.step r).1, ((s.run front).2.step r').1,
    ((((s.run front).2.step r').2.step r).2.run back).1, length_run s front, ?_, ?_, ?_⟩
  · rw [run_append]
    simp only [Session.run, hfirst, hback]
  · rw [run_append]
    simp only [Session.run, hsecond]
  · rw [run_append, run_append]
    exact hbackend

/-- **Sources do not interfere.** For every list of requests to a session, and every source: the requests that touch the source
are answered as in the list without the requests that touch another one, and after both lists the source is the same, and so
are its generators, with their spares and tables. Neighbouring requests that touch different sources can be exchanged: each
keeps its answer, so do all others, and the sources and generators are the same after both lists. And a request changes no
generator but the one it is made to, even if they share a source. (The log and the numbering of the tables, which no request
reads, list what happened in its order.) -/
theorem sources_do_not_interfere (s : Session F σ) :
    (∀ i rs, s.answersOn i rs = s.answersOn i (s.only i rs) ∧ (s.run rs).2.SameOn i (s.run (s.only i rs)).2) ∧
    (∀ front r r' back, s.touched? r ≠ s.touched? r' →
      ∃ before a a' behind, before.length = front.length ∧
        (s.run (front ++ r :: r' :: back)).1 = before ++ a :: a' :: behind ∧
        (s.run (front ++ r' :: r :: back)).1 = before ++ a' :: a :: behind ∧
        (s.run (front ++ r :: r' :: back)).2.sources = (s.run (front ++ r' :: r :: back)).2.sources ∧
        (s.run (front ++ r :: r' :: back)).2.generators = (s.run (front ++ r' :: r :: back)).2.generators) ∧
    ∀ r g, r.generator? ≠ some g → (s.step r).2.generators[g]? = s.generators[g]? := by
  refine ⟨fun i rs => ?_, fun front r r' back hne => ?_, fun r g hr => (effect_step s r).generator hr⟩
  · have hkept : ∀ r, s.touched? r = some i → ((s.touched? r).all (· == i)) = true := by
      intro r hr
      simp [hr]
    exact (SameOn.refl i s).run hkept rs
  · obtain ⟨before, a, a', behind, hlength, hanswers, hanswers', hend⟩ := run_exchange hne front back
    obtain ⟨hsources, hgenerators⟩ := SameOn.all hend
    exact ⟨before, a, a', behind, hlength, hanswers, hanswers', hsources, hgenerators⟩

/-- two sources and three generators, two of them on the first source: a deviate on the second source, drawn between two uses of
the first, is not noticed there, and not by the third generator -/
theorem sources_do_not_interfere_deviates :
    let s : Session Float Replay :=
      { sources := #[Replay.ofWords [1, 2, 3], Replay.ofWords [4, 5, 6]]
        generators := #[{ source := 0, keepsSpare := true, tries := 3 }, { source := 1, keepsSpare := true, tries := 3 },
          { source := 0, keepsSpare := true, tries := 3 }] }
    let rs : List (Request Float) :=
      [.call 0 false .standardNormal, .call 1 false .standardNormal, .buildTable 2 1.0 1.0 5, .fillFrom 1 3, .call 2 true .word]
    s.only 0 rs = [.call 0 false .standardNormal, .buildTable 2 1.0 1.0 5, .call 2 true .word] ∧
      s.answersOn 0 rs = s.answersOn 0 (s.only 0 rs) ∧
      (s.run [.call 0 false .standardNormal, .call 1 false .standardNormal]).2.generators =
        (s.run [.call 1 false .standardNormal, .call 0 false .standardNormal]).2.generators ∧
      (s.step (.call 0 false .standardNormal)).2.generators[2]? = s.generators[2]? := by
  intro s rs
  obtain ⟨honly, hexchange, hothers⟩ := sources_do_not_interfere s
  have htouched : s.touched? (.call 0 false .standardNormal) ≠ s.touched? (.call 1 false .standardNormal) := by decide
  obtain ⟨-, -, -, -, -, -, -, -, hgenerators⟩ := hexchange [] _ _ [] htouched
  exact ⟨rfl, (honly 0 rs).1, hgenerators, hothers (.call 0 false .standardNormal) 2 (by decide)⟩

end Session

end Sampling
