/-
Finding the first position that passes a test.

The test has to be monotone: once it holds it holds further on. `firstFrom` halves the stretch it looks at, so a table of `n`
entries takes about `log n` tests. It stays within the stretch (`firstFrom_le`), the position found passes (`holds_firstFrom`),
and no position before it does (`not_holds_of_lt_firstFrom`).
-/

namespace Sampling.Bisection

/-- the first position from `start` on that passes the test, or the end of the stretch of `count` positions if none does -/
def firstFrom (holds : Nat → Bool) (start count : Nat) : Nat :=
  if count = 0 then start
  else
    let half := count / 2
    if holds (start + half) then firstFrom holds start half
    else firstFrom holds (start + half + 1) (count - half - 1)
termination_by count
decreasing_by all_goals omega

variable {holds : Nat → Bool}

theorem firstFrom_le (holds : Nat → Bool) (start count : Nat) :
    start ≤ firstFrom holds start count ∧ firstFrom holds start count ≤ start + count := by
  fun_induction firstFrom holds start count with
  | case1 start => exact ⟨Nat.le_refl _, Nat.le_refl _⟩
  | case2 start count hc half hm ih => omega
  | case3 start count hc half hm ih => omega

/-- the position found passes, unless it is the end -/
theorem holds_firstFrom (start count : Nat) (h : firstFrom holds start count < start + count) :
    holds (firstFrom holds start count) = true := by
  fun_induction firstFrom holds start count with
  | case1 start => exact absurd h (Nat.lt_irrefl _)
  | case2 start count hc half hm ih =>
    by_cases he : firstFrom holds start half < start + half
    · exact ih he
    · have hle := (firstFrom_le holds start half).2
      have heq : firstFrom holds start half = start + half := by omega
      rw [heq]
      exact hm
  | case3 start count hc half hm ih => exact ih (by omega)

/-- no position before the one found passes a monotone test -/
theorem not_holds_of_lt_firstFrom (mono : ∀ i j, i ≤ j → holds i = true → holds j = true) (start count : Nat) {i : Nat}
    (hs : start ≤ i) (hi : i < firstFrom holds start count) : holds i = false := by
  fun_induction firstFrom holds start count with
  | case1 start => omega
  | case2 start count hc half hm ih => exact ih hs hi
  | case3 start count hc half hm ih =>
    by_cases hle : i ≤ start + half
    · cases hh : holds i with
      | false => rfl
      | true => exact absurd (mono _ _ hle hh) hm
    · exact ih (by omega) hi

end Sampling.Bisection
