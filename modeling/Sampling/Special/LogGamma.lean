/-
The logarithm of the gamma function.

One partial-fraction series serves the right half of the line; to the left of one half the reflection formula turns the series
around. The series' terms are added from the first pole on.
-/
import Sampling.Arith

namespace Sampling.Special

variable {F : Type} [Arith F]

def seriesConstant : F := 2.48574089138753565546e-5

/-- the numerators of the series, for the poles in order -/
def seriesNumerators : List F :=
  [1.05142378581721974210,
   -3.45687097222016235469,
   4.51227709466894823700,
   -2.98285225323576655721,
   1.05639711577126713077,
   -1.95428773191645869583e-1,
   1.70970543404441224307e-2,
   -5.71926117404305781283e-4,
   4.63399473359905636708e-6,
   -2.71994908488607703910e-9]

def seriesShift : F := 10.900511

def lnPi : F := 1.1447298858494001741434273513530587116472948129153

/-- the logarithm of twice the square root of `e` over the half circumference -/
def lnScale : F := 0.6207822376352452223455184457816472122518527279025978

/-- the series with its poles as a function of their number -/
def series (pole : Nat → F) : F :=
  seriesNumerators.zipIdx.foldl (fun s t => s + t.1 / pole (t.2 + 1)) seriesConstant

def lnGamma (x : F) : F :=
  if x < 0.5 then
    let s := series fun i => Arith.ofNat i - x
    lnPi - Arith.ln (Arith.sin (Arith.pi * x)) - Arith.ln s - lnScale
      - (0.5 - x) * Arith.ln ((0.5 - x + seriesShift) / Arith.euler)
  else
    let s := series fun i => x + Arith.ofNat i - 1.0
    Arith.ln s + lnScale + (x - 0.5) * Arith.ln ((x - 0.5 + seriesShift) / Arith.euler)

end Sampling.Special
