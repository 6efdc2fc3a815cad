/-
The arithmetic the samplers compute in.

Samplers and statistics are written once, over any type `F` with the operations of `Arith`. They run on binary64; their laws are
stated over every arithmetic that has the properties a law needs, so a proof never assumes that rounding is exact. A `Reading`
says which number a value of `F` stands for, as a sign, a mantissa and a power of two.
-/

namespace Sampling

/-- the number a machine value stands for: `± mantissa * 2 ^ exponent`, an infinity, or none -/
inductive Reading where
  | nan
  | infinite (negative : Bool)
  | finite (negative : Bool) (mantissa : Nat) (exponent : Int)
deriving DecidableEq, Repr

namespace Reading

/-- numerator and denominator of `mantissa * 2 ^ exponent` -/
def fraction (mantissa : Nat) (exponent : Int) : Nat × Nat :=
  if 0 ≤ exponent then (mantissa * Nat.pow 2 exponent.toNat, 1) else (mantissa, Nat.pow 2 (-exponent).toNat)

/-- the whole number toward zero; nothing below zero and no missing number counts -/
def wholePart : Reading → Nat
  | finite false mantissa exponent =>
    let (num, den) := fraction mantissa exponent
    num / den
  | infinite false => UInt64.size - 1
  | _ => 0

end Reading

/-- the operations samplers compute with -/
class Arith (F : Type) extends Add F, Sub F, Mul F, Div F, Neg F, LT F, LE F, BEq F, OfScientific F where
  ofNat : Nat → F
  abs : F → F
  sqrt : F → F
  ln : F → F
  exp : F → F
  pow : F → F → F
  sin : F → F
  cos : F → F
  floor : F → F
  nan : F
  infinity : F
  isNaN : F → Bool
  isFinite : F → Bool
  reading : F → Reading
  decLt : (a b : F) → Decidable (a < b)
  decLe : (a b : F) → Decidable (a ≤ b)

namespace Arith

variable {F : Type} [Arith F]

instance (a b : F) : Decidable (a < b) := decLt a b

instance (a b : F) : Decidable (a ≤ b) := decLe a b

def pi : F := 3.14159265358979323846264338327950288

def euler : F := 2.71828182845904523536028747135266250

def sqrtTwo : F := 1.41421356237309504880168872420969808

/-- an integer as a number: the magnitude is rounded, then signed -/
def ofInt (z : Int) : F :=
  if z < 0 then -(ofNat z.natAbs) else ofNat z.natAbs

/-- zero with a negative sign, the neutral element of addition -/
def negativeZero : F := -(ofNat 0)

/-- the sum of a list from left to right; the empty sum is the neutral element -/
def sum (xs : List F) : F := xs.foldl (· + ·) negativeZero

/-- the smaller of two numbers; a missing one gives way -/
def least (a b : F) : F :=
  if isNaN a then b else if isNaN b then a else if b < a then b else a

end Arith

end Sampling
