/-
What a run does to its machine.

`Machine.fill_of_ok` and `Machine.fill_of_error` say all that one fill can do; nothing below them opens a fill again. Three
principles follow the programs from there:
- `Draw.run_preserves`: what fills, handed-out deviates and settled draws keep, a run keeps;
- `Draw.reaches_run`: a run moves its source by fills alone (`Reaches`), so it keeps of the source what fills keep;
- `Draw.run_alike`: machines over sources that keep answering alike end every run alike. It compares outcomes, spares, accepted
  draws and sources and leaves the rest of the traces aside, since sources that answer alike may log differently.
  `Draw.run_alike_within` asks the sources to answer alike only as long as one of them has not left a region, and speaks of runs
  that end within it.
-/
import Sampling.Machine

namespace Sampling

variable {F σ τ : Type}

/-! ## The bytes of events -/

namespace Event

def total (es : List (Event F)) : Nat := es.foldr (fun e n => e.size + n) 0

@[simp] theorem total_nil : total ([] : List (Event F)) = 0 := rfl

@[simp] theorem total_cons (e : Event F) (es : List (Event F)) : total (e :: es) = e.size + total es := rfl

@[simp] theorem total_append (es es' : List (Event F)) : total (es ++ es') = total es + total es' := by
  induction es with
  | nil => rw [List.nil_append, total_nil, Nat.zero_add]
  | cons e es ih => rw [List.cons_append, total_cons, total_cons, ih, Nat.add_assoc]

@[simp] theorem total_reverse (es : List (Event F)) : total es.reverse = total es := by
  induction es with
  | nil => rfl
  | cons e es ih => rw [List.reverse_cons, total_append, ih, total_cons, total_cons, total_nil, Nat.add_zero, Nat.add_comm]

@[simp] theorem total_logged (lines : List LogLine) : total (lines.map logged : List (Event F)) = 0 := by
  induction lines with
  | nil => rfl
  | cons line lines ih =>
    rw [List.map_cons, total_cons, ih]
    rfl

end Event

/-! ## The parts of a machine -/

namespace Machine

@[simp] theorem record_source (m : Machine F σ) (es : List (Event F)) : (m.record es).source = m.source := rfl

@[simp] theorem record_keepsSpare (m : Machine F σ) (es : List (Event F)) : (m.record es).keepsSpare = m.keepsSpare := rfl

@[simp] theorem record_spare (m : Machine F σ) (es : List (Event F)) : (m.record es).spare = m.spare := rfl

@[simp] theorem record_trace (m : Machine F σ) (es : List (Event F)) : (m.record es).trace = es.reverse ++ m.trace := rfl

@[simp] theorem accepted_record (m : Machine F σ) (es : List (Event F)) :
    (m.record es).accepted = m.accepted ++ es.filterMap Event.settled? := by
  simp [accepted]

@[simp] theorem log_record (m : Machine F σ) (es : List (Event F)) :
    (m.record es).log = m.log ++ es.filterMap Event.line? := by
  simp [log]

@[simp] theorem consumed_record (m : Machine F σ) (es : List (Event F)) :
    (m.record es).consumed = m.consumed + Event.total es := by
  show Event.total (es.reverse ++ m.trace) = Event.total m.trace + Event.total es
  rw [Event.total_append, Event.total_reverse, Nat.add_comm]

theorem settled_logged_append (lines : List LogLine) (es : List (Event F)) :
    (lines.map Event.logged ++ es).filterMap Event.settled? = es.filterMap Event.settled? := by
  simp [List.filterMap_map, Function.comp_def, Event.settled?]

variable [Entropy σ]

theorem fill_of_ok {m : Machine F σ} {n : Nat} {b : Bytes} (hn : n ≠ 0) (h : (deliver m.source n).outcome = .ok b) :
    m.fill n = (.ok b, { m with source := (deliver m.source n).next }.record
      ((deliver m.source n).log.map Event.logged ++ [Event.served b])) := by
  simp only [fill, if_neg hn, h]

theorem fill_of_error {m : Machine F σ} {n : Nat} {e : Refusal} (hn : n ≠ 0)
    (h : (deliver m.source n).outcome = .error e) :
    m.fill n = (.error e.failure, { m with source := (deliver m.source n).next }.record
      ((deliver m.source n).log.map Event.logged ++ [Event.refused n e.failure])) := by
  simp only [fill, if_neg hn, h]

end Machine

/-! ## What every step keeps -/

/-- **Invariants of runs.** A property of machines that fills, handed-out deviates and settled draws keep holds at the end of
every run that starts with it, however the run ends. -/
theorem Draw.run_preserves [Entropy σ] [Arith F] {P : Machine F σ → Prop} (hfill : ∀ m n, P m → P (m.fill n).2)
    (hdeviate : ∀ m, P m → P m.deviate.2)
    (hsettled : ∀ m bound value redraws, P m → P (m.record [.settled bound value redraws]))
    {α : Type} (p : Draw F α) {m : Machine F σ} (h : P m) : P (p.run m).2 := by
  induction p generalizing m with
  | done a => exact h
  | fault f => exact h
  | stuck => exact h
  | fill n next ih =>
    have hm := hfill m n h
    simp only [run]
    rcases hf : m.fill n with ⟨_ | b, m'⟩ <;> rw [hf] at hm
    · exact hm
    · exact ih b hm
  | deviate next ih =>
    have hm := hdeviate m h
    simp only [run]
    rcases hf : m.deviate with ⟨_ | z, m'⟩ <;> rw [hf] at hm
    · exact hm
    · exact ih z hm
  | settled bound value redraws next ih => exact ih (hsettled m bound value redraws h)

/-! ## Where a run leaves its source -/

/-- from one state of a source to another by fills alone -/
inductive Reaches [Entropy σ] (x : σ) : σ → Prop where
  | refl : Reaches x x
  | fill {y : σ} (n : Nat) (h : Reaches x y) : Reaches x (Entropy.fill y n).next

section
variable [Entropy σ]

theorem Reaches.trans {x y z : σ} (h : Reaches x y) (h' : Reaches y z) : Reaches x z := by
  induction h' with
  | refl => exact h
  | fill n _ ih => exact ih.fill n

theorem Reaches.keeps {Q : σ → Prop} (hQ : ∀ x n, Q x → Q (Entropy.fill x n).next) {x y : σ} (h : Reaches x y) (hx : Q x) :
    Q y := by
  induction h with
  | refl => exact hx
  | fill n _ ih => exact hQ _ n ih

theorem reaches_deliver (x : σ) (n : Nat) : Reaches x (deliver x n).next := by
  by_cases hn : n = 0
  · subst hn
    exact .refl
  · rw [deliver_next x hn]
    exact .fill n .refl

namespace Machine

theorem reaches_fill (m : Machine F σ) (n : Nat) : Reaches m.source (m.fill n).2.source := by
  by_cases hn : n = 0
  · subst hn
    exact .refl
  · have h := reaches_deliver m.source n
    cases ho : (deliver m.source n).outcome with
    | ok b => rwa [fill_of_ok hn ho]
    | error e => rwa [fill_of_error hn ho]

theorem reaches_word (m : Machine F σ) : Reaches m.source m.word.2.source := by
  have h := m.reaches_fill 8
  unfold word
  rcases hf : m.fill 8 with ⟨_ | b, m'⟩ <;> rw [hf] at h <;> exact h

variable [Arith F]

theorem reaches_pair (m : Machine F σ) : Reaches m.source m.pair.2.source := by
  have h₁ := m.reaches_word
  unfold pair
  rcases hf : m.word with ⟨_ | first, m₁⟩ <;> rw [hf] at h₁
  · exact h₁
  · have h₂ := m₁.reaches_word
    dsimp only
    rcases hg : m₁.word with ⟨_ | second, m₂⟩ <;> rw [hg] at h₂ <;> exact h₁.trans h₂

theorem reaches_deviate (m : Machine F σ) : Reaches m.source m.deviate.2.source := by
  unfold deviate
  cases m.waiting? with
  | some z => exact .refl
  | none =>
    have h := m.reaches_pair
    rcases hf : m.pair with ⟨_ | z, m'⟩ <;> rw [hf] at h <;> exact h

end Machine

theorem Draw.reaches_run [Arith F] {α : Type} (p : Draw F α) (m : Machine F σ) : Reaches m.source (p.run m).2.source :=
  p.run_preserves (P := fun m' => Reaches m.source m'.source) (fun m' n h => h.trans (m'.reaches_fill n))
    (fun m' h => h.trans m'.reaches_deviate) (fun _ _ _ _ h => h) .refl

end

/-! ## Sources that answer alike -/

/-- related sources answer checked fills alike, and are related afterwards -/
structure AnswerAlike [Entropy σ] [Entropy τ] (R : σ → τ → Prop) : Prop where
  outcome : ∀ {s t}, R s t → ∀ n, (deliver s n).outcome = (deliver t n).outcome
  next : ∀ {s t}, R s t → ∀ n, R (deliver s n).next (deliver t n).next

/-- the same as long as the first source stays within `W`, which it does not enter again once it has left it -/
structure AnswerAlikeWithin [Entropy σ] [Entropy τ] (W : σ → Prop) (R : σ → τ → Prop) : Prop where
  left : ∀ s n, ¬ W s → ¬ W (Entropy.fill s n).next
  outcome : ∀ {s t}, R s t → ∀ n, W (deliver s n).next → (deliver s n).outcome = (deliver t n).outcome
  next : ∀ {s t}, R s t → ∀ n, W (deliver s n).next → R (deliver s n).next (deliver t n).next

theorem AnswerAlikeWithin.of_reaches [Entropy σ] [Entropy τ] {W : σ → Prop} {R : σ → τ → Prop} (hR : AnswerAlikeWithin W R)
    {x y : σ} (h : Reaches x y) (hy : W y) : W x :=
  Classical.byContradiction fun hx => h.keeps (Q := fun x => ¬ W x) hR.left hx hy

theorem AnswerAlike.within [Entropy σ] [Entropy τ] {R : σ → τ → Prop} (hR : AnswerAlike R) :
    AnswerAlikeWithin (fun _ => True) R where
  left _ _ h := absurd trivial h
  outcome h n _ := hR.outcome h n
  next h n _ := hR.next h n

/-- machines with related sources, the same spare and the same accepted draws -/
structure Machine.Alike (R : σ → τ → Prop) (m : Machine F σ) (m' : Machine F τ) : Prop where
  source : R m.source m'.source
  keepsSpare : m.keepsSpare = m'.keepsSpare
  spare : m.spare = m'.spare
  accepted : m.accepted = m'.accepted

section
variable [Entropy σ] [Entropy τ] {W : σ → Prop} {R : σ → τ → Prop}

namespace Machine.Alike

variable {m : Machine F σ} {m' : Machine F τ}

omit [Entropy σ] [Entropy τ] in
/-- the same state and the same draws on top, whatever else is recorded -/
theorem record (h : m.Alike R m') {x : σ} {y : τ} (hxy : R x y) {z z' : Option F} (hz : z = z') {es es' : List (Event F)}
    (hes : es.filterMap Event.settled? = es'.filterMap Event.settled?) :
    ({ m with source := x, spare := z }.record es).Alike R ({ m' with source := y, spare := z' }.record es') where
  source := hxy
  keepsSpare := h.keepsSpare
  spare := hz
  accepted := by
    rw [accepted_record, accepted_record, hes]
    exact congrArg (· ++ _) h.accepted

theorem fill (hR : AnswerAlikeWithin W R) (h : m.Alike R m') (n : Nat) (hW : W (m.fill n).2.source) :
    (m.fill n).1 = (m'.fill n).1 ∧ (m.fill n).2.Alike R (m'.fill n).2 := by
  by_cases hn : n = 0
  · subst hn
    exact ⟨rfl, h⟩
  · cases ho : (deliver m.source n).outcome with
    | ok b =>
      rw [fill_of_ok hn ho] at hW ⊢
      have heq := hR.outcome h.source n hW
      rw [fill_of_ok hn (heq ▸ ho)]
      exact ⟨rfl, h.record (hR.next h.source n hW) h.spare (by rw [settled_logged_append, settled_logged_append])⟩
    | error e =>
      rw [fill_of_error hn ho] at hW ⊢
      have heq := hR.outcome h.source n hW
      rw [fill_of_error hn (heq ▸ ho)]
      exact ⟨rfl, h.record (hR.next h.source n hW) h.spare (by rw [settled_logged_append, settled_logged_append])⟩

theorem word (hR : AnswerAlikeWithin W R) (h : m.Alike R m') (hW : W m.word.2.source) :
    m.word.1 = m'.word.1 ∧ m.word.2.Alike R m'.word.2 := by
  have hfill : W (m.fill 8).2.source → (m.fill 8).1 = (m'.fill 8).1 ∧ (m.fill 8).2.Alike R (m'.fill 8).2 := h.fill hR 8
  unfold Machine.word at hW ⊢
  rcases hf : m.fill 8 with ⟨r, m₁⟩
  rcases hf' : m'.fill 8 with ⟨r', m₁'⟩
  simp only [hf, hf'] at hfill hW ⊢
  cases r with
  | error e =>
    obtain ⟨rfl, hm⟩ := hfill hW
    exact ⟨rfl, hm⟩
  | ok b =>
    obtain ⟨rfl, hm⟩ := hfill hW
    exact ⟨rfl, hm⟩

variable [Arith F]

theorem pair (hR : AnswerAlikeWithin W R) (h : m.Alike R m') (hW : W m.pair.2.source) :
    m.pair.1 = m'.pair.1 ∧ m.pair.2.Alike R m'.pair.2 := by
  have hfirst : W m.word.2.source → m.word.1 = m'.word.1 ∧ m.word.2.Alike R m'.word.2 := h.word hR
  unfold Machine.pair at hW ⊢
  rcases hf : m.word with ⟨r, m₁⟩
  rcases hf' : m'.word with ⟨r', m₁'⟩
  simp only [hf, hf'] at hfirst hW ⊢
  cases r with
  | error e =>
    obtain ⟨rfl, hm⟩ := hfirst hW
    exact ⟨rfl, hm⟩
  | ok first =>
    have hW₂ : W m₁.word.2.source := by
      rcases hg : m₁.word with ⟨_ | second, m₂⟩ <;> simp only [hg] at hW <;> exact hW
    obtain ⟨rfl, hm⟩ := hfirst (hR.of_reaches m₁.reaches_word hW₂)
    obtain ⟨ho, hm⟩ := hm.word hR hW₂
    rcases hg : m₁.word with ⟨r, m₂⟩
    rcases hg' : m₁'.word with ⟨r', m₂'⟩
    simp only [hg, hg'] at ho hm ⊢
    subst ho
    cases r with
    | error e => exact ⟨rfl, hm⟩
    | ok second => exact ⟨rfl, hm.record hm.source hm.spare rfl⟩

theorem deviate (hR : AnswerAlikeWithin W R) (h : m.Alike R m') (hW : W m.deviate.2.source) :
    m.deviate.1 = m'.deviate.1 ∧ m.deviate.2.Alike R m'.deviate.2 := by
  have hwaiting : m.waiting? = m'.waiting? := by unfold waiting?; rw [h.keepsSpare, h.spare]
  unfold Machine.deviate at hW ⊢
  rw [← hwaiting]
  cases hw : m.waiting? with
  | some z => exact ⟨rfl, h.record h.source rfl rfl⟩
  | none =>
    simp only [hw] at hW ⊢
    have hpair : W m.pair.2.source := by
      rcases hf : m.pair with ⟨_ | z, m₁⟩ <;> simp only [hf] at hW <;> exact hW
    obtain ⟨ho, hm⟩ := h.pair hR hpair
    rcases hf : m.pair with ⟨r, m₁⟩
    rcases hf' : m'.pair with ⟨r', m₁'⟩
    simp only [hf, hf'] at ho hm ⊢
    subst ho
    cases r with
    | error e => exact ⟨rfl, hm⟩
    | ok z => exact ⟨rfl, hm.record hm.source (by simp [hm.keepsSpare, hm.spare]) rfl⟩

end Machine.Alike

/-- **Runs over sources that answer alike within `W` end alike if they end within `W`**, with the same spare left and the sources
related again. -/
theorem Draw.run_alike_within [Arith F] {α : Type} (hR : AnswerAlikeWithin W R) (p : Draw F α) {m : Machine F σ}
    {m' : Machine F τ} (h : m.Alike R m') (hW : W (p.run m).2.source) :
    (p.run m).1 = (p.run m').1 ∧ (p.run m).2.Alike R (p.run m').2 := by
  induction p generalizing m m' with
  | done a => exact ⟨rfl, h⟩
  | fault f => exact ⟨rfl, h⟩
  | stuck => exact ⟨rfl, h⟩
  | fill n next ih =>
    simp only [run] at hW ⊢
    have hfill : W (m.fill n).2.source → (m.fill n).1 = (m'.fill n).1 ∧ (m.fill n).2.Alike R (m'.fill n).2 := h.fill hR n
    rcases hf : m.fill n with ⟨r, m₁⟩
    rcases hf' : m'.fill n with ⟨r', m₁'⟩
    simp only [hf, hf'] at hfill hW ⊢
    cases r with
    | error e =>
      obtain ⟨rfl, hm⟩ := hfill hW
      exact ⟨rfl, hm⟩
    | ok b =>
      obtain ⟨rfl, hm⟩ := hfill (hR.of_reaches ((next b).reaches_run m₁) hW)
      exact ih b hm hW
  | deviate next ih =>
    simp only [run] at hW ⊢
    have hdeviate : W m.deviate.2.source → m.deviate.1 = m'.deviate.1 ∧ m.deviate.2.Alike R m'.deviate.2 := h.deviate hR
    rcases hf : m.deviate with ⟨r, m₁⟩
    rcases hf' : m'.deviate with ⟨r', m₁'⟩
    simp only [hf, hf'] at hdeviate hW ⊢
    cases r with
    | error e =>
      obtain ⟨rfl, hm⟩ := hdeviate hW
      exact ⟨rfl, hm⟩
    | ok z =>
      obtain ⟨rfl, hm⟩ := hdeviate (hR.of_reaches ((next z).reaches_run m₁) hW)
      exact ih z hm hW
  | settled bound value redraws next ih => exact ih (h.record h.source h.spare rfl) hW

/-- **Runs over sources that answer alike end alike**, with the same spare left and the sources related again. -/
theorem Draw.run_alike [Arith F] {α : Type} (hR : AnswerAlike R) (p : Draw F α) {m : Machine F σ} {m' : Machine F τ}
    (h : m.Alike R m') : (p.run m).1 = (p.run m').1 ∧ (p.run m).2.Alike R (p.run m').2 :=
  p.run_alike_within hR.within h trivial

end

end Sampling
