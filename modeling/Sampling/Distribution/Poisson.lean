/-
Poisson draws.

Below a mean of thirty, unit numbers are multiplied until the product has fallen to the exponential of the negated mean; the
count is one less than the number of factors. The subtraction is one of words: where the exponential rounds to one, no factor is
taken and the count wraps around. From thirty on, a transformed rejection with a squeeze takes two unit numbers per try. A count
that no longer fits a word is out of range.
-/
import Sampling.Distribution.Continuous
import Sampling.Special.LogGamma

namespace Sampling

/-- from this mean on, counts are drawn by transformed rejection -/
def rejectionThreshold {F : Type} [Arith F] : F := 30.0

namespace Draw

variable {F : Type} [Arith F]

/-- one less than a number of factors, as a word: without factors it wraps around to the largest word -/
def lessOne : (factors : Nat) → Nat
  | 0 => UInt64.size - 1
  | k + 1 => k

/-- multiply unit numbers while the product is above the limit; `factors` have been multiplied already -/
def countFactors (limit : F) : (tries : Nat) → (product : F) → (factors : Nat) → Draw F Nat
  | tries, product, factors =>
    if limit < product then
      match tries with
      | 0 => stuck
      | tries + 1 => do
        let u ← unit
        countFactors limit tries (product * u) (factors + 1)
    else done (lessOne factors)

def poissonByFactors (tries : Nat) (mean : F) : Draw F Nat :=
  countFactors (Arith.exp (-mean)) tries 1.0 0

/-! ## Transformed rejection -/

/-- the constants of the transformed rejection for a mean -/
structure Hat (F : Type) where
  mean : F
  lnMean : F
  a : F
  b : F
  invAlpha : F
  squeeze : F

def Hat.ofMean (mean : F) : Hat F :=
  let b := 0.931 + 2.53 * Arith.sqrt mean
  { mean
    lnMean := Arith.ln mean
    a := -0.059 + 0.02483 * b
    b
    invAlpha := 1.1239 + 1.1328 / (b - 3.4)
    squeeze := 0.9277 - 3.6224 / (b - 2.0) }

/-- the candidate of a centred unit number `u` at distance `us` from the edge -/
def Hat.candidate (h : Hat F) (u us : F) : F :=
  Arith.floor ((2.0 * h.a / us + h.b) * u + h.mean + 0.43)

/-- is the candidate accepted, by the squeeze or by the exact test? -/
def Hat.accepts (h : Hat F) (us v k : F) : Bool :=
  if decide (0.07 ≤ us) && decide (v ≤ h.squeeze) then true
  else if decide (k < 0.0) || (decide (us < 0.013) && decide (us < v)) then false
  else
    let lhs := Arith.ln v + Arith.ln h.invAlpha - Arith.ln (h.a / (us * us) + h.b)
    let rhs := -h.mean + k * h.lnMean - Special.lnGamma (k + 1.0)
    decide (lhs ≤ rhs)

/-- a count that has to be a word -/
def count (k : F) : Draw F Nat :=
  require (!decide (Arith.ofNat UInt64.size ≤ k)) .outOfRange (done (Arith.reading k).wholePart)

/-- candidates until one is accepted -/
def poissonFrom (h : Hat F) : (tries : Nat) → Draw F Nat
  | 0 => stuck
  | tries + 1 => do
    let u0 ← unit
    let v ← unit
    let u := u0 - 0.5
    let us := 0.5 - Arith.abs u
    let k := h.candidate u us
    if h.accepts us v k then count k else poissonFrom h tries

def poisson (tries : Nat) (mean : F) : Draw F Nat :=
  require (isPositive mean) .rate
    (if mean < rejectionThreshold then poissonByFactors tries mean else poissonFrom (Hat.ofMean mean) tries)

end Draw

end Sampling
