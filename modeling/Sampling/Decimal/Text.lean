/-
Decimal texts of numbers: fixed places and scientific notation.

Both write the exact value of a `Reading` rounded to the digits asked for, a half to the even neighbour. A sign is kept even for
zero; a missing number is `NaN` and an infinity is `inf` at any number of digits.
-/
import Sampling.Arith
import Sampling.Rounding

namespace Sampling.Decimal

def signText (negative : Bool) : String := if negative then "-" else ""

/-- `n` units of `10 ^ -places` with a point -/
def pointed (places n : Nat) : String :=
  let whole := toString (n / Nat.pow 10 places)
  if places = 0 then whole
  else
    let rest := Nat.toDigits 10 (n % Nat.pow 10 places)
    whole ++ "." ++ String.ofList (List.replicate (places - rest.length) '0' ++ rest)

def fixed (places : Nat) : Reading → String
  | .nan => "NaN"
  | .infinite negative => signText negative ++ "inf"
  | .finite negative mantissa exponent =>
    let (num, den) := Reading.fraction mantissa exponent
    signText negative ++ pointed places (roundQuotient (num * Nat.pow 10 places) den)

/-- is `num / den` at least `10 ^ k`? -/
def reaches (num den : Nat) (k : Int) : Bool :=
  if 0 ≤ k then den * Nat.pow 10 k.toNat ≤ num else den ≤ num * Nat.pow 10 (-k).toNat

/-- the largest `k` with `10 ^ k ≤ num / den`, for a positive quotient -/
def magnitude (num den : Nat) : Int :=
  let guess : Int := (Nat.toDigits 10 num).length - (Nat.toDigits 10 den).length
  if reaches num den guess then guess else guess - 1

/-- `num / den` in units of `10 ^ k`, rounded -/
def inUnits (num den : Nat) (k : Int) : Nat :=
  if 0 ≤ k then roundQuotient num (den * Nat.pow 10 k.toNat) else roundQuotient (num * Nat.pow 10 (-k).toNat) den

/-- digits and exponent of a positive quotient with `places` digits after the first -/
def scientificParts (places num den : Nat) : Nat × Int :=
  let k := magnitude num den
  let digits := inUnits num den (k - places)
  if digits = Nat.pow 10 (places + 1) then (Nat.pow 10 places, k + 1) else (digits, k)

/-- a number with one digit before the point, `places` after it, and an exponent -/
def scientific (places : Nat) : Reading → String
  | .nan => "NaN"
  | .infinite negative => signText negative ++ "inf"
  | .finite negative mantissa exponent =>
    let (num, den) := Reading.fraction mantissa exponent
    let (digits, k) := if num = 0 then (0, 0) else scientificParts places num den
    signText negative ++ pointed places digits ++ "e" ++ toString k

end Sampling.Decimal
