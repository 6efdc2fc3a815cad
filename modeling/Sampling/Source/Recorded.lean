/-
A source with a record of the calls made to it.

Recording changes no answer: a recorded source grants, refuses and logs what the source it records does. The calls are kept at the
source's side, oldest first, each with the length asked for and the outcome, so what a program did to its source can be read
off without trusting the account of the machine that ran it.
-/
import Sampling.Entropy

namespace Sampling

/-- one fill call: the length asked for and how it ended -/
structure FillCall where
  length : Nat
  outcome : Except Refusal Bytes

def FillCall.Granted (c : FillCall) : Prop := ∃ b, c.outcome = .ok b

def FillCall.granted (b : Bytes) : FillCall := ⟨b.length, .ok b⟩

/-- a source and the calls made to it, oldest first -/
structure Recorded (σ : Type) where
  source : σ
  calls : List FillCall := []

namespace Recorded

variable {σ : Type} [Entropy σ]

/-- pass a call on and write it down -/
def fill (s : Recorded σ) (n : Nat) : Reply (Recorded σ) :=
  let r := Entropy.fill s.source n
  ⟨r.outcome, ⟨r.next, s.calls ++ [⟨n, r.outcome⟩]⟩, r.log⟩

instance : Entropy (Recorded σ) where
  info s := Entropy.info s.source
  fill := fill
  patience s := Entropy.patience s.source
  length_of_ok {s n _} h := Entropy.length_of_ok (s := s.source) (n := n) h

theorem fill_source (s : Recorded σ) (n : Nat) : (Entropy.fill s n).next.source = (Entropy.fill s.source n).next := rfl

theorem fill_outcome (s : Recorded σ) (n : Nat) : (Entropy.fill s n).outcome = (Entropy.fill s.source n).outcome := rfl

theorem fill_calls (s : Recorded σ) (n : Nat) :
    (Entropy.fill s n).next.calls = s.calls ++ [⟨n, (Entropy.fill s.source n).outcome⟩] := rfl

theorem deliver_calls (s : Recorded σ) {n : Nat} (hn : n ≠ 0) :
    (deliver s n).next.calls = s.calls ++ [⟨n, (Entropy.fill s.source n).outcome⟩] := by
  rw [deliver_next s hn, fill_calls]

theorem deliver_of_ok {s : Recorded σ} {n : Nat} {b : Bytes} {next : σ} {log : List LogLine} (hn : n ≠ 0)
    (h : Entropy.fill s.source n = ⟨.ok b, next, log⟩) :
    deliver s n = ⟨.ok b, ⟨next, s.calls ++ [FillCall.granted b]⟩, log⟩ := by
  have hfill : Entropy.fill s n = ⟨.ok b, ⟨next, s.calls ++ [⟨n, .ok b⟩]⟩, log⟩ := by
    show Recorded.fill s n = _
    simp only [fill, h]
  have hlen : b.length = n := Entropy.length_of_ok (s := s.source) (by rw [h])
  have hok : (Entropy.fill s n).outcome = .ok b := by rw [hfill]
  rw [Sampling.deliver_of_ok hn hok, hfill, ← hlen]
  rfl

end Recorded

end Sampling
