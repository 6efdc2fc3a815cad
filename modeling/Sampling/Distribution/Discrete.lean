/-
Bernoulli and categorical draws.

A weight list is accepted if it is not empty, its weights are finite and not negative, and their sum is finite and positive. A
categorical draw scales a unit number by the sum and walks the running sums until one exceeds it; if rounding lets the walk run
off the end, the last index of positive weight is taken. Zero weights are never chosen.
-/
import Sampling.Uniform

namespace Sampling

namespace Weights

variable {F : Type} [Arith F]

/-- the sum of an accepted weight list, from left to right -/
def total? (weights : List F) : Except (Fault F) F :=
  if weights.isEmpty then .error .noWeights
  else if weights.any fun w => !Arith.isFinite w || decide (w < 0.0) then .error .badWeight
  else
    let sum := weights.foldl (· + ·) 0.0
    if !Arith.isFinite sum || decide (sum ≤ 0.0) then .error .badWeightSum else .ok sum

def runningSums (acc : F) : List F → List F
  | [] => []
  | w :: ws => (acc + w) :: runningSums (acc + w) ws

/-- the first index from `i` on whose running sum exceeds the target -/
def firstAbove (target : F) : (acc : F) → (i : Nat) → List F → Option Nat
  | _, _, [] => none
  | acc, i, w :: ws => if target < acc + w then some i else firstAbove target (acc + w) (i + 1) ws

def lastPositive? (weights : List F) : Option Nat :=
  (weights.zipIdx.filter fun w => decide (0.0 < w.1)).getLast?.map (·.2)

/-- the index a target selects -/
def select (weights : List F) (target : F) : Nat :=
  match firstAbove target 0.0 0 weights with
  | some i => i
  | none => (lastPositive? weights).getD (weights.length - 1)

end Weights

namespace Draw

variable {F : Type} [Arith F]

def isProbability (p : F) : Bool := decide (0.0 ≤ p) && decide (p ≤ 1.0)

def bernoulli (p : F) : Draw F Bool :=
  require (isProbability p) .probability ((fun u => decide (u < p)) <$> unit)

/-- an index drawn in proportion to its weight -/
def categorical (weights : List F) : Draw F Nat := do
  let sum ← ofExcept (Weights.total? weights)
  let u ← unit
  done (Weights.select weights (u * sum))

end Draw

end Sampling
