/-
Numbers in the unit interval, and normal deviates, from words.

`unitOf` keeps the upper 53 bits of a word and divides by `2 ^ 53`, so its values are the multiples of `2 ^ -53` below one.
`boxMuller` turns two words into two independent standard normal deviates.
-/
import Sampling.Arith

namespace Sampling

variable {F : Type} [Arith F]

/-- the unit number of a word: its upper 53 bits over `2 ^ 53` -/
def unitOf (w : UInt64) : F :=
  Arith.ofNat (w >>> 11).toNat / Arith.ofNat (Nat.pow 2 53)

/-- the smallest positive binary64 number -/
def tiny : F := 5e-324

/-- the unit number of a word with zero replaced by the smallest positive number -/
def positiveUnitOf (w : UInt64) : F :=
  let u : F := unitOf w
  if u == 0.0 then tiny else u

/-- the two deviates of two words: a radius from the first, an angle from the second -/
def boxMuller (first second : UInt64) : F × F :=
  let u1 : F := positiveUnitOf first
  let u2 : F := unitOf second
  let r := Arith.sqrt (-2.0 * Arith.ln u1)
  let angle := 2.0 * Arith.pi * u2
  (r * Arith.cos angle, r * Arith.sin angle)

end Sampling
