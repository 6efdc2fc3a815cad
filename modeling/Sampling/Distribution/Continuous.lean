/-
Exponential, uniform, normal and gamma draws, and a normally shifted clock.

Parameters are checked before anything is drawn. Exponentials invert the distribution function; normals scale a standard
deviate, and a deviation of zero draws nothing; gammas squeeze cubes of normals, with a boost for shapes below one.
-/
import Sampling.Uniform
import Sampling.Instant

namespace Sampling.Draw

variable {F : Type} [Arith F]

/-- is a number finite and above zero? -/
def isPositive (x : F) : Bool := Arith.isFinite x && !decide (x ≤ 0.0)

def exponential (rate : F) : Draw F F :=
  require (isPositive rate) .rate do
    let u ← positiveUnit
    done (-(Arith.ln (1.0 - u)) / rate)

/-- uniform from `lo` up to `hi` -/
def uniform (lo hi : F) : Draw F F :=
  require (Arith.isFinite lo && Arith.isFinite hi && !decide (hi ≤ lo)) .bounds do
    let u ← unit
    done (lo + u * (hi - lo))

/-! ## Normal -/

def standardNormal : Draw F F := deviate done

def normal (mean deviation : F) : Draw F F :=
  require (!Arith.isNaN mean && !Arith.isNaN deviation && !decide (deviation < 0.0)) .meanOrDeviation
    (if deviation == 0.0 then done mean
     else do
       let z ← standardNormal
       done (mean + deviation * z))

/-- a result that has to exist -/
def ofOption {α : Type} : Option α → Draw F α
  | some a => done a
  | none => fault .outOfRange

/-- an instant shifted by a number of seconds, later if it is not negative and earlier otherwise -/
def shift? (now : Instant) (jitter : F) : Option Instant :=
  match Span.ofSeconds? (Arith.reading (Arith.abs jitter)) with
  | none => none
  | some d => if 0.0 ≤ jitter then now.later? d else now.earlier? d

/-- an instant shifted by a normal number of seconds -/
def clockNormal (now : Instant) (deviation : F) : Draw F Instant := do
  let jitter ← normal 0.0 deviation
  ofOption (shift? now jitter)

/-! ## Gamma -/

/-- does a cubed normal pass the squeeze or the exact test? -/
def gammaAccepts (d x v u : F) : Bool :=
  let x2 := x * x
  decide (u < 1.0 - 0.0331 * x2 * x2) || decide (Arith.ln u < 0.5 * x2 + d * (1.0 - v + Arith.ln v))

/-- cubes of normals until one is accepted -/
def gammaFrom (d c : F) : (tries : Nat) → Draw F F
  | 0 => stuck
  | tries + 1 => do
    let x ← standardNormal
    let root := 1.0 + c * x
    if root ≤ 0.0 then gammaFrom d c tries
    else
      let v := root * root * root
      let u ← unit
      if gammaAccepts d x v u then done (d * v) else gammaFrom d c tries

/-- gamma of unit rate for a shape of at least one -/
def gammaAboveOne (tries : Nat) (shape : F) : Draw F F :=
  let d := shape - 1.0 / 3.0
  gammaFrom d (1.0 / Arith.sqrt (9.0 * d)) tries

/-- gamma of unit rate; below one, a draw for the next shape is scaled down by a power of a unit number -/
def gammaUnit (tries : Nat) (shape : F) : Draw F F :=
  if shape < 1.0 then do
    let u ← positiveUnit
    let boosted ← gammaAboveOne tries (shape + 1.0)
    done (boosted * Arith.pow u (1.0 / shape))
  else gammaAboveOne tries shape

def gamma (tries : Nat) (shape rate : F) : Draw F F :=
  require (isPositive shape && isPositive rate) .shapeOrRate do
    let g ← gammaUnit tries shape
    done (g / rate)

end Sampling.Draw
