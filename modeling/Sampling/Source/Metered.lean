/-
A meter in front of a source.

The meter counts calls and the bytes of granted fills. It refuses the calls it was told to refuse, and any fill that would bring
the count above its limit, overwriting the whole buffer and leaving the source behind it unread. The limit is what ends a
rejection loop over a source that never offers an acceptable word.
-/
import Sampling.Entropy

namespace Sampling

structure Meter where
  limit : Nat := 1048576
  failCalls : List Nat := []
  failure : Failure := ⟨.other, "source unplugged"⟩
  calls : Nat := 0
  served : Nat := 0
deriving DecidableEq, Repr

namespace Meter

def limitReached : Failure := ⟨.other, "read limit reached"⟩

/-- the buffer a meter leaves behind when it refuses -/
def overwritten (n : Nat) : Bytes := List.replicate n 0xee

/-- the reason to refuse the next fill of `n` bytes, if there is one -/
def refusal? (m : Meter) (n : Nat) : Option Failure :=
  if m.calls ∈ m.failCalls then some m.failure
  else if m.limit < m.served + n then some limitReached
  else none

/-- calls still to be refused on order -/
def ordersLeft (m : Meter) : Nat := m.failCalls.countP (m.calls ≤ ·)

theorem countP_le_succ (l : List Nat) (k : Nat) : l.countP (k + 1 ≤ ·) ≤ l.countP (k ≤ ·) :=
  List.countP_mono_left fun x _ h => by simp at h ⊢; omega

theorem countP_lt_of_mem {l : List Nat} {k : Nat} (h : k ∈ l) : l.countP (k + 1 ≤ ·) < l.countP (k ≤ ·) := by
  induction l with
  | nil => cases h
  | cons x l ih =>
    have hl := countP_le_succ l k
    rcases List.mem_cons.1 h with rfl | h
    · have hx : ¬ k + 1 ≤ k := Nat.not_succ_le_self k
      simp only [List.countP_cons, decide_eq_true_eq, if_neg hx, Nat.le_refl, if_true]
      omega
    · have := ih h
      simp only [List.countP_cons, decide_eq_true_eq]
      split <;> split <;> omega

end Meter

/-- a source behind a meter -/
structure Metered (σ : Type) where
  meter : Meter
  source : σ
deriving DecidableEq, Repr

namespace Metered

variable {σ : Type} [Entropy σ]

/-- count the call; refuse it on order or over the limit, pass it on otherwise -/
def fill (s : Metered σ) (n : Nat) : Reply (Metered σ) :=
  let m := { s.meter with calls := s.meter.calls + 1 }
  match s.meter.refusal? n with
  | some e => ⟨.error ⟨Meter.overwritten n, e⟩, ⟨m, s.source⟩, []⟩
  | none =>
    let r := Entropy.fill s.source n
    match r.outcome with
    | .ok b => ⟨.ok b, ⟨{ m with served := m.served + b.length }, r.next⟩, r.log⟩
    | .error e => ⟨.error e, ⟨m, r.next⟩, r.log⟩

/-- interruptions to come: the ordered refusals and those of the source behind -/
def patience (s : Metered σ) : Nat := s.meter.ordersLeft + Entropy.patience s.source

theorem fill_of_refusal {s : Metered σ} {n : Nat} {e : Failure} (h : s.meter.refusal? n = some e) :
    s.fill n = ⟨.error ⟨Meter.overwritten n, e⟩, ⟨{ s.meter with calls := s.meter.calls + 1 }, s.source⟩, []⟩ := by
  simp only [fill, h]

theorem fill_of_ok {s : Metered σ} {n : Nat} {b : Bytes} (h : s.meter.refusal? n = none)
    (hb : (Entropy.fill s.source n).outcome = .ok b) :
    s.fill n = ⟨.ok b, ⟨{ s.meter with calls := s.meter.calls + 1, served := s.meter.served + b.length },
      (Entropy.fill s.source n).next⟩, (Entropy.fill s.source n).log⟩ := by
  simp only [fill, h, hb]

theorem fill_of_error {s : Metered σ} {n : Nat} {e : Refusal} (h : s.meter.refusal? n = none)
    (he : (Entropy.fill s.source n).outcome = .error e) :
    s.fill n = ⟨.error e, ⟨{ s.meter with calls := s.meter.calls + 1 }, (Entropy.fill s.source n).next⟩,
      (Entropy.fill s.source n).log⟩ := by
  simp only [fill, h, he]

theorem length_of_fill {s : Metered σ} {n : Nat} {b : Bytes} (h : (s.fill n).outcome = .ok b) : b.length = n := by
  cases hr : s.meter.refusal? n with
  | some e => rw [fill_of_refusal hr] at h; cases h
  | none =>
    cases ho : (Entropy.fill s.source n).outcome with
    | error e => rw [fill_of_error hr ho] at h; cases h
    | ok c =>
      rw [fill_of_ok hr ho] at h
      injection h with h
      exact h ▸ Entropy.length_of_ok ho

theorem patience_fill_lt [Entropy.Patient σ] (s : Metered σ) (n : Nat) (h : (s.fill n).interrupted = true) :
    patience (s.fill n).next < patience s := by
  have hm := Meter.countP_le_succ s.meter.failCalls s.meter.calls
  cases hr : s.meter.refusal? n with
  | some e =>
    rw [fill_of_refusal hr] at h ⊢
    unfold Meter.refusal? at hr
    split at hr
    · rename_i hc
      exact Nat.add_lt_add_right (Meter.countP_lt_of_mem hc) _
    · split at hr
      · injection hr with hr
        subst hr
        cases h
      · cases hr
  | none =>
    cases ho : (Entropy.fill s.source n).outcome with
    | error e =>
      rw [fill_of_error hr ho] at h ⊢
      exact Nat.add_lt_add_of_le_of_lt hm (Entropy.Patient.patience_lt s.source n (by simpa [Reply.interrupted, ho] using h))
    | ok b => rw [fill_of_ok hr ho] at h; cases h

instance : Entropy (Metered σ) where
  info s := Entropy.info s.source
  fill := fill
  patience := patience
  length_of_ok := length_of_fill

instance [Entropy.Patient σ] : Entropy.Patient (Metered σ) where
  patience_lt := patience_fill_lt

def served (s : Metered σ) : Nat := s.meter.served

end Metered

end Sampling
