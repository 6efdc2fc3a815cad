/-
Sessions over sources that answer alike.

Two sessions with the same generators, over sources that are related one by one (`Session.Alike`), answer every request made to a
generator alike and stay so. The sources may be of different types, log differently and refuse what they like, as long as they
answer checked fills alike and without interruptions (`Undisturbed`): an exact read is then one checked fill, however patient
the reader. As for single runs, the relation need only last while the first session's sources stay within a region `W`:
- `moves_run`: requests move sources by fills alone;
- `Alike.step`: one request, `Alike.run`: a list of requests.
-/
import Sampling.Proofs.Run
import Sampling.Proofs.SessionStep

namespace Sampling

variable {F σ τ : Type}

def Request.ofGenerator : Request F → Bool
  | .fillFrom _ _ => false
  | _ => true

/-! ## Exact reads through a generator -/

section
variable [Entropy σ]

theorem reaches_readExact (x : σ) (n : Nat) : Reaches x (readExact (Tap.mk x) n).next.source := by
  have hpast : ∀ again (t : Tap σ), Reaches t.source (readPast again t n).next.source := by
    intro again
    induction again with
    | zero => exact fun t => reaches_deliver t.source n
    | succ again ih =>
      intro t
      simp only [readPast]
      split
      · exact (reaches_deliver t.source n).trans (ih (Reader.read t n).next)
      · exact reaches_deliver t.source n
  by_cases hn : n = 0
  · subst hn
    exact .refl
  · rw [Tap.readExact_eq _ hn]
    exact hpast _ (Tap.mk x)

theorem readExact_of_not_interrupted {x : σ} {n : Nat} (h : (deliver x n).interrupted = false) :
    (readExact (Tap.mk x) n).map Tap.source = deliver x n := by
  by_cases hn : n = 0
  · subst hn
    rfl
  · have hread : (Reader.read (Tap.mk x) n).interrupted = false := by
      rw [Tap.read_eq]
      exact h
    rw [Tap.readExact_eq _ hn]
    cases Reader.patience (Tap.mk x) with
    | zero =>
      rw [readPast, Tap.read_eq]
      rfl
    | succ again =>
      rw [readPast, hread, Tap.read_eq]
      rfl

end

/-- related sources never answer with an interruption -/
structure Undisturbed [Entropy σ] [Entropy τ] (R : σ → τ → Prop) : Prop where
  first : ∀ {x y}, R x y → ∀ n, (deliver x n).interrupted = false
  second : ∀ {x y}, R x y → ∀ n, (deliver y n).interrupted = false

theorem Undisturbed.symm [Entropy σ] [Entropy τ] {R : σ → τ → Prop} (hu : Undisturbed R) : Undisturbed fun y x => R x y where
  first h := hu.second h
  second h := hu.first h

namespace Session

/-! ## Where requests leave the sources -/

/-- every source of the first session is in the second, moved by fills alone, and no other is -/
def Moves [Entropy σ] (s s' : Session F σ) : Prop := ∀ i : Nat, Option.Rel Reaches s.sources[i]? s'.sources[i]?

def Within (W : σ → Prop) (s : Session F σ) : Prop := ∀ (i : Nat) (x : σ), s.sources[i]? = some x → W x

section
variable [Entropy σ] {s s' s'' : Session F σ}

theorem Moves.refl (s : Session F σ) : s.Moves s := by
  intro i
  cases s.sources[i]? with
  | none => exact .none
  | some x => exact .some .refl

theorem Moves.trans (h : s.Moves s') (h' : s'.Moves s'') : s.Moves s'' := by
  intro i
  have hi := h i
  have hi' := h' i
  generalize s.sources[i]? = x at hi ⊢
  generalize s'.sources[i]? = y at hi hi'
  generalize s''.sources[i]? = z at hi' ⊢
  cases hi with
  | none => exact hi'
  | some hxy =>
    cases hi' with
    | some hyz => exact .some (hxy.trans hyz)

theorem moves_withSource {i : Nat} {x y : σ} (hs : s.sources[i]? = some x) (h : Reaches x y) (lines : List LogLine) :
    s.Moves (s.withSource i y lines) := by
  intro j
  by_cases hj : i = j
  · subst hj
    obtain ⟨hlt, -⟩ := Array.getElem?_eq_some_iff.1 hs
    simp only [withSource, Array.getElem?_setIfInBounds_self, if_pos hlt, hs]
    exact .some h
  · simp only [withSource, Array.getElem?_setIfInBounds_ne hj]
    exact Moves.refl s j

theorem moves_throughGenerator (s : Session F σ) (g n : Nat) (read : σ → Reply σ) (failed : Failure → Ending F)
    (hread : ∀ x, Reaches x (read x).next) : s.Moves (s.throughGenerator g n read failed).2 := by
  by_cases hs : s.Holds g
  · obtain ⟨gen, x, hg, hs⟩ := hs
    rw [throughGenerator_eq hg hs]
    exact moves_withSource hs (hread x) _
  · rw [throughGenerator_of_absent hs]
    exact Moves.refl s

variable [Arith F]

theorem moves_step (s : Session F σ) (r : Request F) : s.Moves (s.step r).2 := by
  cases hp : s.program? r with
  | some gp =>
    obtain ⟨g, p⟩ := gp
    by_cases hs : s.Holds g
    · obtain ⟨gen, x, hg, hs⟩ := hs
      rw [step_of_program hp hg hs]
      have hmoves := moves_withSource hs ((p gen).reaches_run (gen.machine x)) ((p gen).run (gen.machine x)).2.log
      exact hmoves
    · rw [step_of_absent hp hs]
      exact Moves.refl s
  | none =>
    cases r with
    | call g strict c => cases hp
    | fill g n => exact moves_throughGenerator s g n _ _ fun x => reaches_deliver x n
    | read g n => exact moves_throughGenerator s g n _ _ fun x => reaches_deliver x n
    | readExact g n => exact moves_throughGenerator s g n _ _ fun x => reaches_readExact x n
    | fillFrom i n =>
      simp only [step]
      cases hs : s.sources[i]? with
      | none => exact Moves.refl s
      | some x =>
        dsimp only
        cases (Entropy.fill x n).outcome <;> exact moves_withSource hs (.fill n .refl) _
    | now g =>
      simp only [step]
      cases s.generators[g]? <;> exact Moves.refl s
    | buildTable g a v n =>
      simp only [step]
      cases s.generators[g]? with
      | none => exact Moves.refl s
      | some gen => cases Zipf.build? a v n <;> exact Moves.refl s
    | copyTable t =>
      simp only [step]
      cases s.generators[t.generator]? with
      | none => exact Moves.refl s
      | some gen =>
        dsimp only
        cases gen.tables[t.index]? <;> exact Moves.refl s
    | drawRank t =>
      simp only [program?, Option.map_eq_none_iff] at hp
      simp only [step, hp]
      exact Moves.refl s

theorem moves_run (s : Session F σ) (rs : List (Request F)) : s.Moves (s.run rs).2 := by
  induction rs generalizing s with
  | nil => exact Moves.refl s
  | cons r rest ih => exact (s.moves_step r).trans (ih _)

end

/-! ## Sessions alike -/

/-- the same generators, over sources related one by one -/
structure Alike (R : σ → τ → Prop) (s : Session F σ) (t : Session F τ) : Prop where
  generators : s.generators = t.generators
  sources : ∀ i : Nat, Option.Rel R s.sources[i]? t.sources[i]?

variable [Arith F] [Entropy σ] [Entropy τ] {W : σ → Prop} {R : σ → τ → Prop} {s : Session F σ} {t : Session F τ}

omit [Arith F] in
/-- a session whose sources end within `W` has had them within it before -/
theorem within_of_moves (hR : AnswerAlikeWithin W R) {s s' : Session F σ} (h : s.Moves s')
    (hW : s'.Within W) : s.Within W := by
  intro i x hx
  have hi := h i
  rw [hx] at hi
  generalize hy : s'.sources[i]? = y at hi
  cases hi with
  | some hxy => exact hR.of_reaches hxy (hW i _ hy)

namespace Alike

section
omit [Arith F] [Entropy σ] [Entropy τ]

theorem symm (h : s.Alike R t) : t.Alike (fun y x => R x y) s where
  generators := h.generators.symm
  sources i := by
    have hi := h.sources i
    generalize s.sources[i]? = x at hi ⊢
    generalize t.sources[i]? = y at hi ⊢
    cases hi with
    | none => exact .none
    | some hxy => exact .some hxy

/-- both sessions have a source with this number, and they are related, or neither has -/
theorem source_cases (h : s.Alike R t) (i : Nat) : (s.sources[i]? = none ∧ t.sources[i]? = none) ∨
    ∃ x y, s.sources[i]? = some x ∧ t.sources[i]? = some y ∧ R x y := by
  have hi := h.sources i
  cases hs : s.sources[i]? <;> cases ht : t.sources[i]? <;> rw [hs, ht] at hi <;> cases hi
  · exact Or.inl ⟨rfl, rfl⟩
  · rename_i x y hxy
    exact Or.inr ⟨x, y, rfl, rfl, hxy⟩

theorem source_of_some (h : s.Alike R t) {i : Nat} {y : τ} (ht : t.sources[i]? = some y) :
    ∃ x, s.sources[i]? = some x ∧ R x y := by
  rcases h.source_cases i with ⟨-, hnone⟩ | ⟨x, y', hs, ht', hxy⟩
  · cases hnone.symm.trans ht
  · cases ht.symm.trans ht'
    exact ⟨x, hs, hxy⟩

theorem holds_cases (h : s.Alike R t) (g : Nat) : (¬ s.Holds g ∧ ¬ t.Holds g) ∨
    ∃ gen x y, s.generators[g]? = some gen ∧ t.generators[g]? = some gen ∧
      s.sources[gen.source]? = some x ∧ t.sources[gen.source]? = some y ∧ R x y := by
  have hgen : t.generators[g]? = s.generators[g]? := by rw [h.generators]
  cases hg : s.generators[g]? with
  | none =>
    refine Or.inl ⟨?_, ?_⟩
    · rintro ⟨gen, x, hg', -⟩
      cases hg.symm.trans hg'
    · rintro ⟨gen, x, hg', -⟩
      cases (hgen.trans hg).symm.trans hg'
  | some gen =>
    rcases h.source_cases gen.source with ⟨hs, ht⟩ | ⟨x, y, hs, ht, hxy⟩
    · refine Or.inl ⟨?_, ?_⟩
      · rintro ⟨gen', x, hg', hs'⟩
        cases hg.symm.trans hg'
        cases hs.symm.trans hs'
      · rintro ⟨gen', x, hg', ht'⟩
        cases (hgen.trans hg).symm.trans hg'
        cases ht.symm.trans ht'
    · exact Or.inr ⟨gen, x, y, rfl, hgen.trans hg, hs, ht, hxy⟩

theorem withSource (h : s.Alike R t) {x : σ} {y : τ} (hxy : R x y) (i : Nat) (lines lines' : List LogLine) :
    (s.withSource i x lines).Alike R (t.withSource i y lines') where
  generators := h.generators
  sources j := by
    by_cases hij : i = j
    · subst hij
      rcases h.source_cases i with ⟨hs, ht⟩ | ⟨x', y', hs, ht, -⟩
      · have hs' : ¬ i < s.sources.size := Nat.not_lt.2 (Array.getElem?_eq_none_iff.1 hs)
        have ht' : ¬ i < t.sources.size := Nat.not_lt.2 (Array.getElem?_eq_none_iff.1 ht)
        simp only [Session.withSource, Array.getElem?_setIfInBounds_self, if_neg hs', if_neg ht']
        exact .none
      · obtain ⟨hs', -⟩ := Array.getElem?_eq_some_iff.1 hs
        obtain ⟨ht', -⟩ := Array.getElem?_eq_some_iff.1 ht
        simp only [Session.withSource, Array.getElem?_setIfInBounds_self, if_pos hs', if_pos ht']
        exact .some hxy
    · simp only [Session.withSource, Array.getElem?_setIfInBounds_ne hij]
      exact h.sources j

theorem withGenerator (h : s.Alike R t) (g : Nat) (gen : Generator F) :
    (s.withGenerator g gen).Alike R (t.withGenerator g gen) where
  generators := congrArg (·.setIfInBounds g gen) h.generators
  sources := h.sources

theorem withTable (h : s.Alike R t) (g : Nat) (gen : Generator F) (z : Zipf F) :
    (s.withTable g gen z).Alike R (t.withTable g gen z) where
  generators := (h.withGenerator g { gen with tables := gen.tables.push z }).generators
  sources := h.sources

theorem keep (h : s.Alike R t) (g : Nat) (gen : Generator F) {m : Machine F σ} {m' : Machine F τ} (hm : m.Alike R m') :
    (s.keep g gen m).Alike R (t.keep g gen m') := by
  unfold Session.keep
  rw [hm.spare]
  exact (h.withSource hm.source gen.source m.log m'.log).withGenerator g _

end

omit [Arith F] in
theorem throughGenerator (hR : AnswerAlikeWithin W R) (h : s.Alike R t) {g n : Nat} {failed : Failure → Ending F}
    (hW : (s.throughGenerator g n (deliver · n) failed).2.Within W) :
    (s.throughGenerator g n (deliver · n) failed).1 = (t.throughGenerator g n (deliver · n) failed).1 ∧
      (s.throughGenerator g n (deliver · n) failed).2.Alike R (t.throughGenerator g n (deliver · n) failed).2 := by
  rcases h.holds_cases g with ⟨hs, ht⟩ | ⟨gen, x, y, hg, hg', hs, ht, hxy⟩
  · rw [throughGenerator_of_absent hs, throughGenerator_of_absent ht]
    exact ⟨rfl, h⟩
  · rw [throughGenerator_eq hg hs] at hW ⊢
    rw [throughGenerator_eq hg' ht]
    obtain ⟨hlt, -⟩ := Array.getElem?_eq_some_iff.1 hs
    have hnext : W (deliver x n).next := hW gen.source _ (Array.getElem?_setIfInBounds_self_of_lt hlt)
    rw [hR.outcome hxy n hnext]
    exact ⟨rfl, h.withSource (hR.next hxy n hnext) gen.source _ _⟩

theorem program (hR : AnswerAlikeWithin W R) (h : s.Alike R t) {g : Nat} {gen : Generator F} {x : σ} {y : τ}
    (hs : s.sources[gen.source]? = some x) (hxy : R x y) (p : Draw F (Value F))
    (hW : (s.keep g gen (p.run (gen.machine x)).2).Within W) :
    (p.run (gen.machine x)).1 = (p.run (gen.machine y)).1 ∧
      (p.run (gen.machine x)).2.accepted = (p.run (gen.machine y)).2.accepted ∧
      (s.keep g gen (p.run (gen.machine x)).2).Alike R (t.keep g gen (p.run (gen.machine y)).2) := by
  obtain ⟨hlt, -⟩ := Array.getElem?_eq_some_iff.1 hs
  have hend : W (p.run (gen.machine x)).2.source := hW gen.source _ (Array.getElem?_setIfInBounds_self_of_lt hlt)
  have hm : (gen.machine x).Alike R (gen.machine y) := ⟨hxy, rfl, rfl, rfl⟩
  obtain ⟨ho, hm⟩ := p.run_alike_within hR hm hend
  exact ⟨ho, hm.accepted, h.keep g gen hm⟩

/-- **One request.** Sessions alike answer a request made to a generator alike and stay alike, if the first stays within `W`. -/
theorem step (hR : AnswerAlikeWithin W R) (hu : Undisturbed R) (h : s.Alike R t) {r : Request F} (hr : r.ofGenerator = true)
    (hW : (s.step r).2.Within W) : (s.step r).1 = (t.step r).1 ∧ (s.step r).2.Alike R (t.step r).2 := by
  cases r with
  | call g strict c =>
    rcases h.holds_cases g with ⟨hs, ht⟩ | ⟨gen, x, y, hg, hg', hs, ht, hxy⟩
    · simp only [Session.step, perform_of_absent hs, perform_of_absent ht]
      exact ⟨trivial, h⟩
    · rw [step_call hg hs] at hW ⊢
      rw [step_call hg' ht]
      obtain ⟨ho, hdraws, hkeep⟩ := h.program hR hs hxy _ hW
      rw [ho, hdraws]
      exact ⟨rfl, hkeep⟩
  | fill g n => exact h.throughGenerator hR hW
  | read g n => exact h.throughGenerator hR hW
  | readExact g n =>
    rcases h.holds_cases g with ⟨hs, ht⟩ | ⟨gen, x, y, hg, hg', hs, ht, hxy⟩
    · simp only [Session.step, throughGenerator_of_absent hs, throughGenerator_of_absent ht]
      exact ⟨trivial, h⟩
    · -- an exact read is one checked fill in either session
      have hread : s.step (.readExact g n) = s.throughGenerator g n (deliver · n) .refused := by
        simp only [Session.step, throughGenerator_eq hg hs, readExact_of_not_interrupted (hu.first hxy n)]
      have hread' : t.step (.readExact g n) = t.throughGenerator g n (deliver · n) .refused := by
        simp only [Session.step, throughGenerator_eq hg' ht, readExact_of_not_interrupted (hu.second hxy n)]
      rw [hread] at hW ⊢
      rw [hread']
      exact h.throughGenerator hR hW
  | fillFrom i n => cases hr
  | now g =>
    simp only [Session.step, ← h.generators]
    cases s.generators[g]? <;> exact ⟨rfl, h⟩
  | buildTable g a v n =>
    simp only [Session.step, ← h.generators]
    cases s.generators[g]? with
    | none => exact ⟨rfl, h⟩
    | some gen =>
      cases Zipf.build? a v n with
      | error f => exact ⟨rfl, h⟩
      | ok z => exact ⟨rfl, h.withTable g gen z⟩
  | copyTable table =>
    simp only [Session.step, ← h.generators]
    cases s.generators[table.generator]? with
    | none => exact ⟨rfl, h⟩
    | some gen =>
      dsimp only
      cases gen.tables[table.index]? with
      | none => exact ⟨rfl, h⟩
      | some z => exact ⟨rfl, h.withTable table.generator gen z⟩
  | drawRank table =>
    simp only [Session.step, ← h.generators] at hW ⊢
    cases hz : (s.generators[table.generator]?).bind fun gen => gen.tables[table.index]? with
    | none => exact ⟨rfl, h⟩
    | some z =>
      simp only [hz] at hW ⊢
      rcases h.holds_cases table.generator with ⟨hs, ht⟩ | ⟨gen, x, y, hg, hg', hs, ht, hxy⟩
      · rw [perform_of_absent hs, perform_of_absent ht]
        exact ⟨rfl, h⟩
      · rw [perform_eq hg hs] at hW ⊢
        rw [perform_eq hg' ht]
        obtain ⟨ho, -, hkeep⟩ := h.program hR hs hxy _ hW
        rw [ho]
        exact ⟨rfl, hkeep⟩

/-- **A list of requests.** Sessions alike answer all requests made to generators alike and stay alike, if the first ends within
`W`. -/
theorem run (hR : AnswerAlikeWithin W R) (hu : Undisturbed R) (h : s.Alike R t) {rs : List (Request F)}
    (hrs : ∀ r ∈ rs, r.ofGenerator = true) (hW : (s.run rs).2.Within W) :
    (s.run rs).1 = (t.run rs).1 ∧ (s.run rs).2.Alike R (t.run rs).2 := by
  induction rs generalizing s t with
  | nil => exact ⟨rfl, h⟩
  | cons r rest ih =>
    have hrest : ∀ r' ∈ rest, r'.ofGenerator = true := fun r' hr' => hrs r' (List.mem_cons_of_mem r hr')
    have hstep : (s.step r).2.Within W := within_of_moves hR ((s.step r).2.moves_run rest) hW
    obtain ⟨ho, hs⟩ := h.step hR hu (hrs r List.mem_cons_self) hstep
    obtain ⟨hos, hend⟩ := ih hs hrest hW
    refine ⟨?_, hend⟩
    show (s.step r).1 :: ((s.step r).2.run rest).1 = (t.step r).1 :: ((t.step r).2.run rest).1
    rw [ho, hos]

end Alike

end Session

end Sampling
