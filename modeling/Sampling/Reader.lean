/-
Readers and exact reads.

A reader may answer a request with fewer bytes than asked. `readExact` asks again until the buffer is full: it passes over
interruptions, takes an empty answer for the end of the input, and stops at any other failure, leaving in the buffer what it
had read. The bytes already taken are lost. Each answer that is no interruption shortens what is missing, so `n` of them are
enough; before each of them the reader is asked as often as it has patience.
-/
import Sampling.Entropy

namespace Sampling

/-- something bytes can be read from, a few at a time -/
class Reader (ρ : Type) where
  /-- answer with at most the number of bytes asked for -/
  read : ρ → Nat → Reply ρ
  /-- how many interruptions in a row are to be passed over -/
  patience : ρ → Nat
  /-- no answer is longer than the request -/
  length_le : ∀ {r : ρ} {n : Nat} {b : Bytes}, (read r n).outcome = .ok b → b.length ≤ n

/-- readers with finitely many interruptions in a row: each of them uses up patience -/
class Reader.Patient (ρ : Type) [Reader ρ] : Prop where
  patience_lt : ∀ (r : ρ) (n : Nat), (Reader.read r n).interrupted = true →
    Reader.patience (Reader.read r n).next < Reader.patience r

/-- read, and read again while interrupted, `again` times at most -/
def readPast {ρ : Type} [Reader ρ] : (again : Nat) → ρ → Nat → Reply ρ
  | 0, r, n => Reader.read r n
  | again + 1, r, n =>
    let reply := Reader.read r n
    if reply.interrupted then (readPast again reply.next n).after reply.log else reply

/-- read until `missing` more bytes are there; `got` and `log` are what earlier requests brought -/
def readOn {ρ : Type} [Reader ρ] : (requests : Nat) → ρ → (missing : Nat) → (got : Bytes) → List LogLine → Reply ρ
  | _, r, 0, got, log => ⟨.ok got, r, log⟩
  | 0, r, _ + 1, got, log => ⟨.error ⟨got, .endOfInput⟩, r, log⟩
  | requests + 1, r, missing + 1, got, log =>
    let reply := readPast (Reader.patience r) r (missing + 1)
    match reply.outcome with
    | .ok [] => ⟨.error ⟨got, .endOfInput⟩, reply.next, log ++ reply.log⟩
    | .ok (x :: b) => readOn requests reply.next (missing - b.length) (got ++ x :: b) (log ++ reply.log)
    | .error e => ⟨.error ⟨got ++ e.written, e.failure⟩, reply.next, log ++ reply.log⟩

def readExact {ρ : Type} [Reader ρ] (r : ρ) (n : Nat) : Reply ρ := readOn n r n [] []

/-! ## Laws of exact reads -/

section
variable {ρ : Type} [Reader ρ]

/-- reading on past interruptions ends with an answer of the reader -/
theorem exists_read_of_readPast (again : Nat) (r : ρ) (n : Nat) :
    ∃ r' : ρ, (readPast again r n).outcome = (Reader.read r' n).outcome := by
  induction again generalizing r with
  | zero => exact ⟨r, rfl⟩
  | succ again ih =>
    simp only [readPast]
    split
    · exact ih _
    · exact ⟨r, rfl⟩

theorem length_readPast (again : Nat) (r : ρ) (n : Nat) {b : Bytes} (h : (readPast again r n).outcome = .ok b) :
    b.length ≤ n := by
  obtain ⟨r', hr⟩ := exists_read_of_readPast again r n
  exact Reader.length_le (hr ▸ h)

theorem readPast_not_interrupted [Reader.Patient ρ] (again : Nat) (r : ρ) (n : Nat) (h : Reader.patience r ≤ again) :
    (readPast again r n).interrupted = false := by
  induction again generalizing r with
  | zero =>
    cases hi : (Reader.read r n).interrupted with
    | false => exact hi
    | true => have := Reader.Patient.patience_lt r n hi; omega
  | succ again ih =>
    simp only [readPast]
    split
    · rename_i hi
      have := Reader.Patient.patience_lt r n hi
      exact ih _ (by omega)
    · rename_i hi; simpa using hi

theorem length_readOn (requests : Nat) (r : ρ) (missing : Nat) (got : Bytes) (log : List LogLine) {b : Bytes}
    (h : (readOn requests r missing got log).outcome = .ok b) : b.length = got.length + missing := by
  induction requests generalizing r missing got log with
  | zero => cases missing <;> simp_all [readOn]
  | succ requests ih =>
    cases missing with
    | zero => simp_all [readOn]
    | succ missing =>
      simp only [readOn] at h
      split at h
      · cases h
      · rename_i x c hc
        have hl := length_readPast _ _ _ hc
        have := ih _ _ _ _ h
        simp at this hl ⊢
        omega
      · cases h

theorem length_readExact {r : ρ} {n : Nat} {b : Bytes} (h : (readExact r n).outcome = .ok b) : b.length = n := by
  simpa using length_readOn _ _ _ _ _ h

theorem readOn_not_interrupted [Reader.Patient ρ] (requests : Nat) (r : ρ) (missing : Nat) (got : Bytes)
    (log : List LogLine) : (readOn requests r missing got log).interrupted = false := by
  induction requests generalizing r missing got log with
  | zero => cases missing <;> rfl
  | succ requests ih =>
    cases missing with
    | zero => rfl
    | succ missing =>
      simp only [readOn]
      split
      · rfl
      · exact ih _ _ _ _
      · rename_i e he
        have hi := readPast_not_interrupted (Reader.patience r) r (missing + 1) (Nat.le_refl _)
        simpa [Reply.interrupted, he] using hi

theorem readExact_not_interrupted [Reader.Patient ρ] (r : ρ) (n : Nat) : (readExact r n).interrupted = false :=
  readOn_not_interrupted _ _ _ _ _

end

end Sampling
