/-
A generator as a reader, and as a source for another generator.

Read through `Tap`, a generator over a source delivers whole requests or fails with the source's own failure, its buffer zeroed
and a warning logged. A reader would also report errors that are the generator's own, as failures of kind `other`; a fill ends in
none (`exists_source_of_filled`). `Relay σ` puts such a reader behind exact reads again, so generators can be stacked to any depth.
-/
import Sampling.Fault
import Sampling.Source.Locked

namespace Sampling

/-- a generator over a source, seen as a reader -/
structure Tap (σ : Type) where
  source : σ
deriving DecidableEq, Repr

namespace Tap

variable {σ : Type} [Entropy σ]

/-- how a generator ends a checked fill: an error is one of its own, here with all numbers written out, and comes with what the
buffer then holds -/
def filled : Except Refusal Bytes → Except (Bytes × Error String) Bytes
  | .ok b => .ok b
  | .error e => .error (e.written, .source e.failure)

/-- how a reader ends where its generator ended so: failures of the source go through, other errors become failures -/
def passedOn : Except (Bytes × Error String) Bytes → Except Refusal Bytes
  | .ok b => .ok b
  | .error (written, .source e) => .error ⟨written, e⟩
  | .error (written, e) => .error ⟨written, ⟨.other, e.message id⟩⟩

/-- one read is one checked fill -/
def read (t : Tap σ) (n : Nat) : Reply (Tap σ) :=
  let r := deliver t.source n
  ⟨passedOn (filled r.outcome), ⟨r.next⟩, r.log⟩

/-- fills end in no errors but failures of the source -/
theorem exists_source_of_filled {o : Except Refusal Bytes} {written : Bytes} {e : Error String}
    (h : filled o = .error (written, e)) : ∃ f, e = .source f := by
  cases o with
  | ok b => cases h
  | error r =>
    cases h
    exact ⟨r.failure, rfl⟩

/-- so what is passed on is what the fill ended with -/
theorem passedOn_filled (o : Except Refusal Bytes) : passedOn (filled o) = o := by
  cases o <;> rfl

instance : Reader (Tap σ) where
  read := read
  patience t := Entropy.patience t.source
  length_le {t n _} h := by
    rw [read, passedOn_filled] at h
    exact Nat.le_of_eq (length_of_deliver h)

theorem read_eq (t : Tap σ) (n : Nat) : Reader.read t n = (deliver t.source n).map mk := by
  show t.read n = _
  rw [read, passedOn_filled]
  rfl

instance [Entropy.Patient σ] : Reader.Patient (Tap σ) where
  patience_lt t n h := by
    rw [read_eq] at h ⊢
    exact deliver_patience_lt t.source n h

/-- a tap serves whole requests: an exact read is one request, made again while it is interrupted -/
theorem readExact_eq (t : Tap σ) {n : Nat} (h : n ≠ 0) : readExact t n = readPast (Reader.patience t) t n := by
  obtain ⟨k, rfl⟩ := Nat.exists_eq_succ_of_ne_zero h
  have hlen : ∀ {b : Bytes}, (readPast (Reader.patience t) t (k + 1)).outcome = .ok b → b.length = k + 1 := by
    intro b hb
    obtain ⟨t', ht⟩ := exists_read_of_readPast (Reader.patience t) t (k + 1)
    rw [ht, read_eq] at hb
    exact length_of_deliver (s := t'.source) hb
  simp only [readExact, readOn]
  cases ho : (readPast (Reader.patience t) t (k + 1)).outcome with
  | error e => simp [← ho]
  | ok b =>
    cases b with
    | nil => cases hlen ho
    | cons x b =>
      have hmissing : k - b.length = 0 := by
        have := hlen ho
        simp only [List.length_cons] at this
        omega
      cases k <;> simp [hmissing, readOn, ← ho]

end Tap

/-- a source over a generator over a source -/
abbrev Relay (σ : Type) := Locked (Tap σ)

def Relay.over {σ : Type} (s : σ) : Relay σ := ⟨⟨s⟩⟩

end Sampling
