/-
Instants and spans of time, to the nanosecond.

An instant is a signed 64-bit count of seconds since the epoch and a nanosecond field below a second. A span is what a number of
seconds rounds to, to the nearest nanosecond with a half to even; a number that is negative in size, missing, infinite or at
least `2 ^ 64` has no span. Instants are shifted field by field, and `total` is the exact count of nanoseconds they stand for.
-/
import Sampling.Arith
import Sampling.Rounding

namespace Sampling

def nanosPerSecond : Nat := 1000000000

structure Instant where
  seconds : Int64
  nanos : Nat
  nanos_lt : nanos < nanosPerSecond := by decide
deriving DecidableEq, Repr

structure Span where
  seconds : Nat
  nanos : Nat
  nanos_lt : nanos < nanosPerSecond := by decide
deriving DecidableEq, Repr

namespace Span

/-- all of a span, in nanoseconds -/
def total (d : Span) : Nat := d.seconds * nanosPerSecond + d.nanos

def ofTotal (n : Nat) : Span := ⟨n / nanosPerSecond, n % nanosPerSecond, Nat.mod_lt _ (by decide)⟩

/-- the span of the size of a number of seconds -/
def ofSeconds? : Reading → Option Span
  | .finite _ mantissa exponent =>
    let (num, den) := Reading.fraction mantissa exponent
    if UInt64.size * den ≤ num then none else some (ofTotal (roundQuotient (num * nanosPerSecond) den))
  | _ => none

@[simp] theorem total_ofTotal (n : Nat) : (ofTotal n).total = n := by
  unfold ofTotal total
  exact Nat.div_add_mod' n nanosPerSecond

end Span

namespace Instant

/-- the start of time -/
def epoch : Instant := ⟨0, 0, by decide⟩

/-- the nanoseconds from the epoch -/
def total (t : Instant) : Int := t.seconds.toInt * nanosPerSecond + t.nanos

/-- seconds that fit the field -/
def seconds? (z : Int) : Option Int64 :=
  if Int64.minValue.toInt ≤ z ∧ z ≤ Int64.maxValue.toInt then some (Int64.ofInt z) else none

/-- the instant with given fields, if they are in range -/
def make? (seconds : Int) (nanos : Nat) : Option Instant :=
  match seconds? seconds with
  | none => none
  | some s => if h : nanos < nanosPerSecond then some ⟨s, nanos, h⟩ else none

/-- a span later: seconds are added first, then nanoseconds with a carry -/
def later? (t : Instant) (d : Span) : Option Instant :=
  match seconds? (t.seconds.toInt + d.seconds) with
  | none => none
  | some s =>
    let nanos := t.nanos + d.nanos
    if nanos < nanosPerSecond then make? s.toInt nanos else make? (s.toInt + 1) (nanos - nanosPerSecond)

/-- a span earlier: seconds are taken off first, then nanoseconds with a borrow -/
def earlier? (t : Instant) (d : Span) : Option Instant :=
  match seconds? (t.seconds.toInt - d.seconds) with
  | none => none
  | some s =>
    if d.nanos ≤ t.nanos then make? s.toInt (t.nanos - d.nanos)
    else make? (s.toInt - 1) (t.nanos + nanosPerSecond - d.nanos)

end Instant

end Sampling
