/-
What a program ensures, whatever its source answers.

`p.Ensures D E Q`: every value `p` can end with satisfies `Q`, every fault it can raise satisfies `E`, and it asks for deviates only
if `D`, over all buffers of the lengths asked for and all deviates. The rules follow the ways programs are put together:
sequencing, guards, one program per item. `run_ensures` turns the judgement into a fact about runs on any machine.
-/
import Mathlib.Data.List.Forall2
import Sampling.Machine

namespace Sampling

variable {F σ α β : Type}

namespace Draw

/-- deviates are asked for only if `D`, faults satisfy `E` and values satisfy `Q`, whatever is drawn -/
inductive Ensures (D : Prop) (E : Fault F → Prop) (Q : α → Prop) : Draw F α → Prop where
  | done {a : α} (h : Q a) : Ensures D E Q (done a)
  | fault {f : Fault F} (h : E f) : Ensures D E Q (fault f)
  | stuck : Ensures D E Q stuck
  | fill {n : Nat} {next : Bytes → Draw F α} (h : ∀ b, b.length = n → Ensures D E Q (next b)) : Ensures D E Q (fill n next)
  | deviate {next : F → Draw F α} (hD : D) (h : ∀ z, Ensures D E Q (next z)) : Ensures D E Q (deviate next)
  | settled {bound value : UInt64} {redraws : UInt32} {next : Draw F α} (h : Ensures D E Q next) :
    Ensures D E Q (settled bound value redraws next)

variable {D : Prop} {E E' : Fault F → Prop} {Q Q' : α → Prop} {R : β → Prop}

theorem Ensures.mono {p : Draw F α} (h : p.Ensures D E Q) (hE : ∀ f, E f → E' f) (hQ : ∀ a, Q a → Q' a) :
    p.Ensures D E' Q' := by
  induction h with
  | done h => exact .done (hQ _ h)
  | fault h => exact .fault (hE _ h)
  | stuck => exact .stuck
  | fill _ ih => exact .fill ih
  | deviate hD _ ih => exact .deviate hD ih
  | settled _ ih => exact .settled ih

theorem Ensures.bind {p : Draw F α} {k : α → Draw F β} (hp : p.Ensures D E Q) (hk : ∀ a, Q a → (k a).Ensures D E R) :
    (p.bind k).Ensures D E R := by
  induction hp with
  | done h => exact hk _ h
  | fault h => exact .fault h
  | stuck => exact .stuck
  | fill _ ih => exact .fill ih
  | deviate hD _ ih => exact .deviate hD ih
  | settled _ ih => exact .settled ih

theorem Ensures.map {p : Draw F α} {g : α → β} (hp : p.Ensures D E Q) (hg : ∀ a, Q a → R (g a)) :
    (g <$> p).Ensures D E R :=
  hp.bind fun a ha => .done (hg a ha)

theorem Ensures.require {ok : Bool} {f : Fault F} {p : Draw F α} (hf : ok = false → E f)
    (hp : ok = true → p.Ensures D E Q) : (require ok f p).Ensures D E Q := by
  cases ok with
  | true => exact hp rfl
  | false => exact .fault (hf rfl)

/-- the results of one program per item satisfy what each program ensures, item by item -/
theorem Ensures.each {p : α → Draw F β} {P : α → β → Prop} {items : List α}
    (h : ∀ x ∈ items, (p x).Ensures D E (P x)) : (each p items).Ensures D E (List.Forall₂ P items) := by
  induction items with
  | nil => exact .done List.Forall₂.nil
  | cons x rest ih =>
    rw [each_cons]
    refine (h x List.mem_cons_self).bind fun y hy => ?_
    refine (ih fun x hx => h x (List.mem_cons_of_mem _ hx)).bind fun ys hys => ?_
    exact .done (List.Forall₂.cons hy hys)

end Draw

/-! ## Runs -/

/-- a value satisfies `Q`, a fault `E`; nothing is asked of other endings -/
def Outcome.Satisfies (E : Fault F → Prop) (Q : α → Prop) : Outcome F α → Prop
  | .value a => Q a
  | .failed (.fault f) => E f
  | _ => True

section
variable [Entropy σ]

theorem Machine.length_fill {m m' : Machine F σ} {n : Nat} {b : Bytes} (h : m.fill n = (.ok b, m')) : b.length = n := by
  unfold Machine.fill at h
  split at h
  · rename_i hn
    simp only [Prod.mk.injEq, Except.ok.injEq] at h
    rw [← h.1, hn, List.length_nil]
  · cases ho : (deliver m.source n).outcome with
    | ok c =>
      simp only [ho, Prod.mk.injEq, Except.ok.injEq] at h
      exact h.1 ▸ length_of_deliver ho
    | error e => simp [ho] at h

variable [Arith F] {D : Prop} {E : Fault F → Prop} {Q : α → Prop}

/-- **A run keeps to what its program ensures.** -/
theorem Draw.run_ensures {p : Draw F α} (h : p.Ensures D E Q) (m : Machine F σ) : (p.run m).1.Satisfies E Q := by
  induction h generalizing m with
  | done h => exact h
  | fault h => exact h
  | stuck => trivial
  | @fill n next _ ih =>
    simp only [run]
    rcases hf : m.fill n with ⟨e | b, m'⟩
    · trivial
    · exact ih b (Machine.length_fill hf) m'
  | deviate _ _ ih =>
    simp only [run]
    rcases m.deviate with ⟨e | z, m'⟩
    · trivial
    · exact ih z m'
  | settled _ ih => exact ih _

end

end Sampling
