/-
The shortest decimal that reads back.

A binary64 number is what a whole interval of reals rounds to, ends included when its mantissa is even. The text has the fewest
digits with which some decimal lies in that interval, and of those the one nearest to the number, the larger of two at equal
distance. It is positional at any size: no exponent, no point for a whole number.
-/
import Sampling.Decimal.Text

namespace Sampling.Decimal

/-- a candidate `digits * 10 ^ scale` and the number, in a common unit; a quarter of the mantissa's unit is `quarter` -/
structure Scaled where
  candidate : Nat
  quarter : Nat

/-- bring a candidate and `2 ^ (exponent - 2)` to a common unit -/
def Scaled.of (digits : Nat) (scale exponent : Int) : Scaled where
  candidate := digits * Nat.pow 10 scale.toNat * Nat.pow 2 (2 - exponent).toNat
  quarter := Nat.pow 2 (exponent - 2).toNat * Nat.pow 10 (-scale).toNat

/-- does the candidate round to `mantissa * 2 ^ exponent`? The step below a power of two is half as long. -/
def readsBack (mantissa : Nat) (exponent : Int) (digits : Nat) (scale : Int) : Bool :=
  let s := Scaled.of digits scale exponent
  let below := if mantissa = Nat.pow 2 52 ∧ -1074 < exponent then 1 else 2
  let low := (4 * mantissa - below) * s.quarter
  let high := (4 * mantissa + 2) * s.quarter
  if mantissa % 2 = 0 then low ≤ s.candidate && s.candidate ≤ high else low < s.candidate && s.candidate < high

/-- is the upper of two neighbouring candidates at least as near as the lower? -/
def upperIsNearer (mantissa : Nat) (exponent : Int) (lower : Nat) (scale : Int) : Bool :=
  let low := Scaled.of lower scale exponent
  let high := Scaled.of (lower + 1) scale exponent
  2 * (4 * mantissa * low.quarter) ≥ low.candidate + high.candidate

/-- digits and scale of the first grid, from `count` digits on, that holds a decimal reading back -/
def search (mantissa : Nat) (exponent magnitude : Int) : (grids count : Nat) → Nat × Int
  | 0, _ => (mantissa, 0)
  | grids + 1, count =>
    let scale := magnitude - count + 1
    let (num, den) := Reading.fraction mantissa exponent
    let lower := if 0 ≤ scale then num / (den * Nat.pow 10 scale.toNat) else num * Nat.pow 10 (-scale).toNat / den
    match readsBack mantissa exponent lower scale, readsBack mantissa exponent (lower + 1) scale with
    | true, true => (if upperIsNearer mantissa exponent lower scale then lower + 1 else lower, scale)
    | true, false => (lower, scale)
    | false, true => (lower + 1, scale)
    | false, false => search mantissa exponent magnitude grids (count + 1)

/-- the positional text of `digits * 10 ^ scale`; a last zero behind the point is not written -/
def positional (digits : Nat) (scale : Int) : String :=
  if 0 ≤ scale then toString (digits * Nat.pow 10 scale.toNat)
  else if digits % 10 = 0 then
    if scale = -1 then toString (digits / 10) else pointed ((-scale).toNat - 1) (digits / 10)
  else pointed (-scale).toNat digits

def shortest : Reading → String
  | .nan => "NaN"
  | .infinite negative => signText negative ++ "inf"
  | .finite negative mantissa exponent =>
    if mantissa = 0 then signText negative ++ "0"
    else
      let (num, den) := Reading.fraction mantissa exponent
      let (digits, scale) := search mantissa exponent (magnitude num den) 17 1
      signText negative ++ positional digits scale

end Sampling.Decimal
