/-
The distribution functions tests read their p-values from.

Tests do not compute these functions themselves, so they take them as `Tails`: the complementary error function, and chi-square
distributions, which exist for some degrees of freedom. A call that panics gives no value, and the test that made it gives no
verdict. `Tails.special` are the functions of `Special`, which never panic.
-/
import Sampling.Special.Erfc
import Sampling.Special.GammaTail

namespace Sampling.Battery

/-- a chi-square distribution: the probability of being at most, and of being above a number; none if the call panics -/
structure ChiSquare (F : Type) where
  below : F → Option F
  above : F → Option F

/-- the distribution functions; none if a call panics -/
structure Tails (F : Type) where
  /-- the complementary error function -/
  erfc : F → Option F
  /-- the chi-square distribution with some degrees of freedom, if there is one -/
  chiSquare? : F → Option (ChiSquare F)

namespace Tails

variable {F : Type} [Arith F]

/-- the probability of a standard normal number being at least as far from zero as `z` -/
def twoSided (t : Tails F) (z : F) : Option F := t.erfc (Arith.abs z / Arith.sqrtTwo)

/-- what to make of the probability of a chi-square number being above `x`, or of a missing distribution -/
def aboveOr {α : Type} (t : Tails F) (degrees x : F) (missing : α) (found : F → α) : Option α :=
  match t.chiSquare? degrees with
  | none => some missing
  | some distribution => (distribution.above x).map found

/-- the computed functions; a chi-square distribution has positive degrees of freedom -/
def special : Tails F where
  erfc x := some (Special.erfc x)
  chiSquare? degrees :=
    if 0.0 < degrees then
      some { below := fun x => some (Special.chiSquareBelow degrees x)
             above := fun x => some (Special.chiSquareAbove degrees x) }
    else none

end Tails

end Sampling.Battery
