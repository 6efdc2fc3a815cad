/-
Binary64, the arithmetic samplers run on.

Sums, products, quotients, square roots and comparisons are exact results rounded to nearest even; logarithm, exponential, power
and the circular functions are the platform's. `reading` takes a value apart into sign, mantissa and exponent.
-/
import Sampling.Arith

namespace Sampling

namespace Binary64

/-- the value with a given sign, exponent field and fraction field -/
def readingOfFields (negative : Bool) (field fraction : Nat) : Reading :=
  if field = 2047 then (if fraction = 0 then .infinite negative else .nan)
  else if field = 0 then .finite negative fraction (-1074)
  else .finite negative (fraction + Nat.pow 2 52) ((field : Int) - 1075)

/-- the value a binary64 word stands for -/
def reading (x : Float) : Reading :=
  let word := x.toBits.toNat
  readingOfFields (Nat.pow 2 63 ≤ word) (word / Nat.pow 2 52 % Nat.pow 2 11) (word % Nat.pow 2 52)

end Binary64

instance : Arith Float where
  ofNat := Float.ofNat
  abs := Float.abs
  sqrt := Float.sqrt
  ln := Float.log
  exp := Float.exp
  pow := Float.pow
  sin := Float.sin
  cos := Float.cos
  floor := Float.floor
  nan := 0.0 / 0.0
  infinity := 1.0 / 0.0
  isNaN := Float.isNaN
  isFinite := Float.isFinite
  reading := Binary64.reading
  decLt := Float.decLt
  decLe := Float.decLe

end Sampling
