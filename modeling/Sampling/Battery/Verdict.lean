/-
Verdicts of the statistical tests.

A verdict names its test, says whether it passed, and carries a p-value if there is one, the statistic, the numbers behind it and
a grade. Grades follow the p-value; the score of a list of verdicts is the mean of their grades' points.
-/
import Sampling.Arith

namespace Sampling.Battery

inductive Test where
  | uniformity
  | mean
  | variance
  | monobit
  | blockFrequency
  | byteFrequency
  | runs
  | byteMoments
  /-- a test that panicked -/
  | unknown
deriving DecidableEq, Repr

def Test.title : Test → String
  | uniformity => "Chi-Square Uniformity"
  | mean => "Mean Check"
  | variance => "Variance Check"
  | monobit => "Monobit Frequency"
  | blockFrequency => "Block Frequency"
  | byteFrequency => "Byte Frequency"
  | runs => "Runs Test"
  | byteMoments => "Mean & Variance"
  | unknown => "Unknown"

/-! ## Grades -/

inductive Grade where
  | a
  | b
  | c
  | d
  | f
deriving DecidableEq, Repr

def Grade.letter : Grade → String
  | a => "A"
  | b => "B"
  | c => "C"
  | d => "D"
  | f => "F"

/-- the grade of a letter; every unknown letter is the lowest -/
def Grade.ofLetter (letter : String) : Grade :=
  [Grade.a, .b, .c, .d].find? (·.letter == letter) |>.getD .f

section
variable {F : Type} [Arith F]

def Grade.points : Grade → F
  | a => 100.0
  | b => 75.0
  | c => 50.0
  | d => 25.0
  | f => 0.0

/-- the grade of a p-value; none gets the lowest -/
def Grade.ofP : Option F → Grade
  | none => f
  | some p =>
    if 0.1 ≤ p then a
    else if 0.01 ≤ p then b
    else if 0.001 ≤ p then c
    else if 0.0001 ≤ p then d
    else f

def passes (p : Option F) (threshold : F) : Bool :=
  match p with
  | none => false
  | some p => decide (threshold ≤ p)

/-- the mean of the points of some grades, zero for none -/
def score (grades : List Grade) : F :=
  if grades.isEmpty then 0.0
  else Arith.sum (grades.map Grade.points) / Arith.ofNat grades.length

end

/-! ## Verdicts -/

/-- the numbers behind a verdict -/
inductive Details (F : Type) where
  | insufficient (needed got : Nat)
  | buckets (count total : Nat) (expected : F)
  | mean (observed expected z band : F)
  | variance (observed expected relative : F)
  | bitSum (s : Int) (bits : Nat)
  | blocks (count size : Nat)
  | proportion (ones : F)
  | runs (count : Nat) (expected : F)
  | byteMoments (mean variance expectedVariance : F)
  | panicked
deriving Repr

structure Verdict (F : Type) where
  test : Test
  passed : Bool
  p : Option F
  statistic : F
  details : Details F
  grade : Grade
deriving Repr

namespace Verdict

variable {F : Type} [Arith F]

/-- the p-value a test has to reach -/
def threshold : F := 0.01

def insufficient (test : Test) (needed got : Nat) : Verdict F where
  test := test
  passed := false
  p := none
  statistic := 0.0
  details := .insufficient needed got
  grade := .f

def panicked : Verdict F where
  test := .unknown
  passed := false
  p := none
  statistic := 0.0
  details := .panicked
  grade := .f

/-- the verdict a p-value gives -/
def ofP (test : Test) (p statistic : F) (details : Details F) : Verdict F where
  test := test
  passed := passes (some p) threshold
  p := some p
  statistic := statistic
  details := details
  grade := Grade.ofP (some p)

end Verdict

end Sampling.Battery
