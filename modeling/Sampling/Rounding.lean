/-
Rounding a quotient of natural numbers to the nearest integer.

`roundQuotient num den` is the integer nearest to `num / den`; a half goes to the even neighbour. Decimal texts and conversions
to whole nanoseconds both round this way, so the law is stated once: the result is within half a unit.
-/

namespace Sampling

/-- the integer nearest to `num / den`, a half to the even neighbour -/
def roundQuotient (num den : Nat) : Nat :=
  let q := num / den
  let twice := 2 * (num % den)
  if twice < den then q
  else if den < twice then q + 1
  else if q % 2 = 0 then q
  else q + 1

/-- **Half a unit.** The rounded quotient is at most half a unit away from the exact one. -/
theorem roundQuotient_near (num den : Nat) (h : 0 < den) :
    2 * (roundQuotient num den * den) ≤ 2 * num + den ∧ 2 * num ≤ 2 * (roundQuotient num den * den) + den := by
  have hd := Nat.div_add_mod num den
  have hm := Nat.mod_lt num h
  have hq : den * (num / den) = num / den * den := Nat.mul_comm _ _
  have hs : (num / den + 1) * den = num / den * den + den := Nat.succ_mul _ _
  unfold roundQuotient
  dsimp only
  split
  · omega
  · split
    · rw [hs]; omega
    · split
      · omega
      · rw [hs]; omega

/-- the closed cases: a half goes to the even neighbour, on both sides of it -/
example : roundQuotient 5 2 = 2 ∧ roundQuotient 7 2 = 4 ∧ roundQuotient 8 3 = 3 ∧ roundQuotient 7 3 = 2 := by decide

end Sampling
