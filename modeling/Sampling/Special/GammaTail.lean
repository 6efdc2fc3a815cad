/-
The regularized incomplete gamma functions, and the tails of the chi-square distribution.

Below the shape the lower function is summed as a power series; above it either function comes from a continued fraction whose
partial numerators and denominators are scaled down when they grow large. Both stop when a step changes the result by less than
one part in `10 ^ 15`, or after `steps` steps.
-/
import Sampling.Special.LogGamma

namespace Sampling.Special

variable {F : Type} [Arith F]

/-- more steps than any of the expansions takes -/
def steps : Nat := 10000000

/-- relative change at which an expansion stops -/
def accuracy : F := 0.000000000000001

/-- partial results above this size are scaled down -/
def large : F := 4503599627370496.0

/-- the factor they are scaled down by -/
def largeInverse : F := 2.22044604925031308085e-16

/-- below this size a parameter counts as zero -/
def negligible : F := 0.0000000000000011102230246251565

/-- logarithms of a factor below this are beyond the smallest number -/
def vanishing : F := -709.78271289338399

/-- the logarithm of `x ^ a * exp (-x) / gamma a` -/
def lnFactor (a x : F) : F := a * Arith.ln x - x - lnGamma a

/-- the power series, from the term `term` with denominator `r` on -/
def powerSeries (x : F) : (steps : Nat) → (r term total : F) → F
  | 0, _, _, total => total
  | steps + 1, r, term, total =>
    let r := r + 1.0
    let term := term * (x / r)
    let total := total + term
    if term / total ≤ accuracy then total else powerSeries x steps r term total

/-- the state of a continued fraction: counters, the last two numerators and denominators, and the quotient so far -/
structure Fraction (F : Type) where
  y : F
  z : F
  c : F
  num2 : F
  den2 : F
  num1 : F
  den1 : F
  quotient : F

def Fraction.start (a x : F) : Fraction F :=
  let y := 1.0 - a
  let z := x + y + 1.0
  let num := x + 1.0
  let den := z * x
  { y, z, c := 0.0, num2 := 1.0, den2 := x, num1 := num, den1 := den, quotient := num / den }

/-- one more level of the fraction, with the quotient it gives if its denominator is not zero -/
def Fraction.next (f : Fraction F) : Fraction F × Option F :=
  let y := f.y + 1.0
  let z := f.z + 2.0
  let c := f.c + 1.0
  let yc := y * c
  let num := f.num1 * z - f.num2 * yc
  let den := f.den1 * z - f.den2 * yc
  let scale (v : F) : F := if large < Arith.abs num then v * largeInverse else v
  let f := { f with y, z, c, num2 := scale f.num1, den2 := scale f.den1, num1 := scale num, den1 := scale den }
  (f, if den == 0.0 then none else some (num / den))

/-- step a continued fraction until its quotient settles -/
def continuedFraction : (steps : Nat) → Fraction F → F
  | 0, f => f.quotient
  | steps + 1, f =>
    match f.next with
    | (g, none) => continuedFraction steps g
    | (g, some quotient) =>
      if Arith.abs ((f.quotient - quotient) / quotient) ≤ accuracy then quotient
      else continuedFraction steps { g with quotient }

/-- the lower regularized incomplete gamma function, for a positive shape -/
def gammaLower (a x : F) : F :=
  if Arith.isNaN a || Arith.isNaN x then Arith.nan
  else if Arith.abs a ≤ negligible then 1.0
  else if x ≤ 0.0 || decide (Arith.abs x ≤ negligible) then 0.0
  else
    let ax := lnFactor a x
    if ax < vanishing then (if a < x then 1.0 else 0.0)
    else if x ≤ 1.0 || decide (x ≤ a) then Arith.exp ax * powerSeries x steps a 1.0 1.0 / a
    else 1.0 - Arith.exp ax * continuedFraction steps (Fraction.start a x)

/-- the upper regularized incomplete gamma function, for a positive shape -/
def gammaUpper (a x : F) : F :=
  if Arith.isNaN a || Arith.isNaN x then Arith.nan
  else if x < 1.0 || decide (x ≤ a) then 1.0 - gammaLower a x
  else
    let ax := lnFactor a x
    if ax < vanishing then (if a < x then 0.0 else 1.0)
    else continuedFraction steps (Fraction.start a x) * Arith.exp ax

/-! ## Chi-square -/

def isInfinite (x : F) : Bool := !Arith.isNaN x && !Arith.isFinite x

/-- the probability of a chi-square number of `degrees` degrees of freedom being at most `x` -/
def chiSquareBelow (degrees x : F) : F :=
  if x ≤ 0.0 then 0.0
  else if isInfinite x then 1.0
  else gammaLower (degrees / 2.0) (x * 0.5)

/-- the probability of a chi-square number of `degrees` degrees of freedom being above `x` -/
def chiSquareAbove (degrees x : F) : F :=
  if x ≤ 0.0 then 1.0
  else if isInfinite x then 0.0
  else gammaUpper (degrees / 2.0) (x * 0.5)

end Sampling.Special
