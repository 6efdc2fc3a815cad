/-
Entropy sources: what a generator reads from.

Model: a source answers a fill request for `n` bytes with all of them or with a `Refusal`, moves on to its next state, and may
log lines on the way (`Reply`). `Entropy σ` says what a state `σ` must offer; its law is that a granted fill has the length
asked for, and it may refuse whenever and for whatever reason it likes. `Entropy.Patient σ` adds that refusals of kind
`interrupted` are finitely many in a row (`patience` bounds them), which is what lets a reader try again until something else
happens.

`deliver` is the checked fill every generator goes through: an empty request reads nothing, a refused one leaves zeros in the
buffer and one warning in the log.
-/
import Sampling.Bytes

namespace Sampling

/-! ## Failures -/

/-- why a read failed; kinds that play no part of their own go by their name -/
inductive FailureKind where
  | interrupted
  | brokenPipe
  | timedOut
  | unexpectedEof
  | other
  | named (name : String)
deriving DecidableEq, Repr

def FailureKind.name : FailureKind → String
  | .interrupted => "Interrupted"
  | .brokenPipe => "BrokenPipe"
  | .timedOut => "TimedOut"
  | .unexpectedEof => "UnexpectedEof"
  | .other => "Other"
  | .named name => name

/-- the kind with a given name; every unknown name is `other` -/
def FailureKind.ofName (name : String) : FailureKind :=
  [FailureKind.interrupted, .brokenPipe, .timedOut, .unexpectedEof].find? (·.name == name) |>.getD .other

/-- a failed read: its kind and its text -/
structure Failure where
  kind : FailureKind
  message : String
deriving DecidableEq, Repr

def Failure.endOfInput : Failure := ⟨.unexpectedEof, "failed to fill whole buffer"⟩

def Failure.transient (e : Failure) : Bool := e.kind == .interrupted

/-! ## What a source says of itself -/

/-- families of sources, by where their bytes come from -/
inductive SourceKind where
  | os
  | deterministic
  | locked
  | replay
deriving DecidableEq, Repr

def SourceKind.name : SourceKind → String
  | .os => "os"
  | .deterministic => "deterministic"
  | .locked => "locked"
  | .replay => "replay"

/-- name, description and family of a source, and whether its bytes may become secrets -/
structure SourceInfo where
  name : String
  description : String
  kind : SourceKind
  secretSafe : Bool
deriving DecidableEq, Repr

/-! ## Log lines -/

/-- what sources and generators log -/
inductive LogLine where
  | seeded (seedLength : Nat) (label : String)
  | generatorBuilt (source : String) (cacheSpare : Bool)
  | redrawn (bound : UInt64) (redraws : UInt32)
  | sourceFailed (source : String) (failure : Failure)
deriving DecidableEq, Repr

/-! ## Requests and replies -/

/-- a failed fill: what it wrote at the front of the buffer before failing, and why it failed -/
structure Refusal where
  written : Bytes
  failure : Failure
deriving DecidableEq, Repr

/-- the answer to one request for bytes, the state after it, and the lines logged during it -/
structure Reply (σ : Type) where
  outcome : Except Refusal Bytes
  next : σ
  log : List LogLine := []

/-- was the request refused for a reason that may pass? -/
def Reply.interrupted {σ : Type} (r : Reply σ) : Bool :=
  match r.outcome with
  | .ok _ => false
  | .error e => e.failure.transient

def Reply.map {σ τ : Type} (f : σ → τ) (r : Reply σ) : Reply τ := ⟨r.outcome, f r.next, r.log⟩

/-- the same reply with lines that were logged before it -/
def Reply.after {σ : Type} (log : List LogLine) (r : Reply σ) : Reply σ := ⟨r.outcome, r.next, log ++ r.log⟩

/-- a source of bytes with state `σ` -/
class Entropy (σ : Type) where
  /-- what the source says of itself -/
  info : σ → SourceInfo
  /-- answer a request for a number of bytes -/
  fill : σ → Nat → Reply σ
  /-- how many interruptions in a row a reader is to sit through -/
  patience : σ → Nat
  /-- a granted fill has the length asked for -/
  length_of_ok : ∀ {s : σ} {n : Nat} {b : Bytes}, (fill s n).outcome = .ok b → b.length = n

/-- sources with finitely many interruptions in a row: each of them uses up patience -/
class Entropy.Patient (σ : Type) [Entropy σ] : Prop where
  patience_lt : ∀ (s : σ) (n : Nat), (Entropy.fill s n).interrupted = true →
    Entropy.patience (Entropy.fill s n).next < Entropy.patience s

/-- the outcomes of fills made one after the other, and the state after them -/
def fillAll {σ : Type} [Entropy σ] (s : σ) : List Nat → List (Except Refusal Bytes) × σ
  | [] => ([], s)
  | n :: ns =>
    let r := Entropy.fill s n
    let rest := fillAll r.next ns
    (r.outcome :: rest.1, rest.2)

/-- one checked fill: nothing is read for an empty request, a refused one leaves zeros and logs a warning -/
def deliver {σ : Type} [Entropy σ] (s : σ) (n : Nat) : Reply σ :=
  if n = 0 then ⟨.ok [], s, []⟩
  else
    let r := Entropy.fill s n
    match r.outcome with
    | .ok _ => r
    | .error e =>
      ⟨.error ⟨List.replicate n 0, e.failure⟩, r.next, r.log ++ [.sourceFailed (Entropy.info s).name e.failure]⟩

/-! ## Laws of `deliver` -/

section
variable {σ : Type} [Entropy σ]

theorem length_of_deliver {s : σ} {n : Nat} {b : Bytes} (h : (deliver s n).outcome = .ok b) : b.length = n := by
  unfold deliver at h
  split at h
  · injection h with h; simp_all
  · dsimp only at h
    split at h
    · exact Entropy.length_of_ok h
    · cases h

/-- a granted fill is delivered as it is -/
theorem deliver_of_ok {s : σ} {n : Nat} {b : Bytes} (hn : n ≠ 0) (h : (Entropy.fill s n).outcome = .ok b) :
    deliver s n = Entropy.fill s n := by
  unfold deliver
  rw [if_neg hn]
  simp only [h]

theorem deliver_next (s : σ) {n : Nat} (h : n ≠ 0) : (deliver s n).next = (Entropy.fill s n).next := by
  unfold deliver
  rw [if_neg h]
  dsimp only
  split <;> rfl

theorem deliver_interrupted (s : σ) {n : Nat} (h : n ≠ 0) :
    (deliver s n).interrupted = (Entropy.fill s n).interrupted := by
  unfold deliver
  rw [if_neg h]
  cases he : (Entropy.fill s n).outcome <;> simp [Reply.interrupted, he]

theorem deliver_not_interrupted {s : σ} {n : Nat} (h : (Entropy.fill s n).interrupted = false) :
    (deliver s n).interrupted = false := by
  by_cases hn : n = 0
  · subst hn
    rfl
  · rw [deliver_interrupted s hn, h]

theorem deliver_patience_lt [Entropy.Patient σ] (s : σ) (n : Nat) (hi : (deliver s n).interrupted = true) :
    Entropy.patience (deliver s n).next < Entropy.patience s := by
  by_cases h : n = 0
  · subst h; cases hi
  · rw [deliver_next s h]
    rw [deliver_interrupted s h] at hi
    exact Entropy.Patient.patience_lt s n hi

end

end Sampling
