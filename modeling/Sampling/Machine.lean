/-
Running a program against a source.

A machine holds a source, the spare normal deviate and whether spares are kept, and a trace of everything that happened, newest
first. `Draw.run` carries a program out: fills go through `deliver`; the first refused fill ends the run with the source's own
failure. `Machine.deviate` hands out normal deviates: with spares kept, the second deviate of a pair waits for the next request.
The log is a reading of the trace.
-/
import Sampling.Draw
import Sampling.Unit

namespace Sampling

/-! ## Traces -/

/-- what can happen during a run -/
inductive Event (F : Type) where
  /-- the source logged a line -/
  | logged (line : LogLine)
  /-- a fill was granted -/
  | served (bytes : Bytes)
  /-- a fill of `n` bytes was refused -/
  | refused (n : Nat) (failure : Failure)
  /-- a draw below `bound` was accepted after some redraws -/
  | settled (bound value : UInt64) (redraws : UInt32)
  /-- a pair of deviates was computed -/
  | pair (first second : F)
  /-- a deviate was handed out -/
  | handedOut (z : F)
deriving DecidableEq, Repr

namespace Event

variable {F : Type}

/-- the line an event leaves in the log: an accepted draw is worth one only if it took redraws -/
def line? : Event F → Option LogLine
  | logged line => some line
  | settled bound _ redraws => if 0 < redraws then some (.redrawn bound redraws) else none
  | _ => none

def size : Event F → Nat
  | served bytes => bytes.length
  | _ => 0

def settled? : Event F → Option (UInt64 × UInt64)
  | settled bound value _ => some (bound, value)
  | _ => none

end Event

/-! ## Machines -/

/-- a source, the spare deviate, whether spares are kept, and the trace so far, newest first -/
structure Machine (F σ : Type) where
  source : σ
  keepsSpare : Bool
  spare : Option F := none
  trace : List (Event F) := []

namespace Machine

variable {F σ : Type}

/-- add events, oldest first -/
def record (m : Machine F σ) (events : List (Event F)) : Machine F σ :=
  { m with trace := events.reverse ++ m.trace }

/-- the lines logged so far, oldest first -/
def log (m : Machine F σ) : List LogLine := m.trace.reverse.filterMap Event.line?

/-- the draws accepted so far, oldest first -/
def accepted (m : Machine F σ) : List (UInt64 × UInt64) := m.trace.reverse.filterMap Event.settled?

/-- the bytes of granted fills so far -/
def consumed (m : Machine F σ) : Nat := m.trace.foldr (fun e n => e.size + n) 0

variable [Entropy σ]

/-- one fill; an empty one leaves the machine as it is -/
def fill (m : Machine F σ) (n : Nat) : Except Failure Bytes × Machine F σ :=
  if n = 0 then (.ok [], m)
  else
    let r := deliver m.source n
    let lines := r.log.map Event.logged
    match r.outcome with
    | .ok b => (.ok b, { m with source := r.next }.record (lines ++ [Event.served b]))
    | .error e => (.error e.failure, { m with source := r.next }.record (lines ++ [Event.refused n e.failure]))

def word (m : Machine F σ) : Except Failure UInt64 × Machine F σ :=
  match m.fill 8 with
  | (.ok b, m) => (.ok (Bytes.word b), m)
  | (.error e, m) => (.error e, m)

variable [Arith F]

/-- a fresh pair of deviates from two words -/
def pair (m : Machine F σ) : Except Failure (F × F) × Machine F σ :=
  match m.word with
  | (.error e, m) => (.error e, m)
  | (.ok first, m) =>
    match m.word with
    | (.error e, m) => (.error e, m)
    | (.ok second, m) =>
      let z : F × F := boxMuller first second
      (.ok z, m.record [.pair z.1 z.2])

/-- the deviate that waits to be handed out; only a machine that keeps spares looks for one -/
def waiting? (m : Machine F σ) : Option F := if m.keepsSpare then m.spare else none

/-- the next deviate: the one that waits, else the first of a fresh pair, whose second is kept if spares are -/
def deviate (m : Machine F σ) : Except Failure F × Machine F σ :=
  match m.waiting? with
  | some z => (.ok z, { m with spare := none }.record [.handedOut z])
  | none =>
    match m.pair with
    | (.error e, m) => (.error e, m)
    | (.ok z, m) =>
      (.ok z.1, { m with spare := if m.keepsSpare then some z.2 else m.spare }.record [.handedOut z.1])

end Machine

/-! ## Runs -/

/-- how a run ends -/
inductive Outcome (F α : Type) where
  | value (a : α)
  | failed (e : Error F)
  | stuck
deriving DecidableEq, Repr

def Draw.run {F σ α : Type} [Entropy σ] [Arith F] : Draw F α → Machine F σ → Outcome F α × Machine F σ
  | .done a, m => (.value a, m)
  | .fault f, m => (.failed (.fault f), m)
  | .stuck, m => (.stuck, m)
  | .fill n next, m =>
    match m.fill n with
    | (.ok b, m) => (next b).run m
    | (.error e, m) => (.failed (.source e), m)
  | .deviate next, m =>
    match m.deviate with
    | (.ok z, m) => (next z).run m
    | (.error e, m) => (.failed (.source e), m)
  | .settled bound value redraws next, m => next.run (m.record [.settled bound value redraws])

theorem Draw.run_bind {F σ α β : Type} [Entropy σ] [Arith F] (p : Draw F α) (k : α → Draw F β) (m : Machine F σ) :
    (p.bind k).run m = match p.run m with
      | (.value a, m) => (k a).run m
      | (.failed e, m) => (.failed e, m)
      | (.stuck, m) => (.stuck, m) := by
  induction p generalizing m with
  | done a => rfl
  | fault f => rfl
  | stuck => rfl
  | fill n next ih =>
    simp only [bind, run]
    rcases m.fill n with ⟨_ | b, m⟩
    · rfl
    · exact ih b m
  | deviate next ih =>
    simp only [bind, run]
    rcases m.deviate with ⟨_ | z, m⟩
    · rfl
    · exact ih z m
  | settled bound value redraws next ih => exact ih _

end Sampling
