/-
Tests of samples: mean and variance against a distribution's, and bucket counts against equal shares.

The variance is the unbiased one; of fewer than two numbers there is none. Sums run from left to right, starting from the neutral
element of addition.
-/
import Sampling.Battery.Tails
import Sampling.Battery.Verdict

namespace Sampling.Battery

variable {F : Type} [Arith F]

/-- size, mean and unbiased variance of some numbers -/
structure Moments (F : Type) where
  n : Nat
  mean : F
  variance : F
deriving Repr

def Moments.of (xs : List F) : Moments F :=
  let n := xs.length
  if n = 0 then ⟨n, Arith.nan, Arith.nan⟩
  else
    let size : F := Arith.ofNat n
    let mean := Arith.sum xs / size
    let variance :=
      if n < 2 then Arith.nan else Arith.sum (xs.map fun x => (x - mean) * (x - mean)) / (size - 1.0)
    ⟨n, mean, variance⟩

def Moments.agree (a b : Moments F) : Bool := a.n == b.n && a.mean == b.mean && a.variance == b.variance

/-! ## Mean -/

/-- distance of an observed mean in standard errors; without an error, zero or infinity -/
def zScore (observed mean error : F) : F :=
  if 0.0 < error then Arith.abs (observed - mean) / error
  else if observed == mean then 0.0
  else Arith.infinity

/-- is the mean within a band of standard errors? -/
def meanCheck (t : Tails F) (xs : List F) (mean variance band : F) : Option (Verdict F) :=
  if xs.length < 2 then some (.insufficient .mean 2 xs.length)
  else
    let m := Moments.of xs
    let z := zScore m.mean mean (Arith.sqrt (variance / Arith.ofNat xs.length))
    (t.twoSided z).map fun p =>
      { test := .mean
        passed := decide (z ≤ band)
        p := some p
        statistic := z
        details := .mean m.mean mean z band
        grade := Grade.ofP (some p) }

/-! ## Variance -/

/-- relative error of an observed variance; absolute if the expected one is zero -/
def relativeError (observed variance : F) : F :=
  if variance == 0.0 then Arith.abs observed else Arith.abs (observed - variance) / Arith.abs variance

def varianceCheck (xs : List F) (variance tolerance : F) : Verdict F :=
  if xs.length < 2 then .insufficient .variance 2 xs.length
  else
    let m := Moments.of xs
    let relative := relativeError m.variance variance
    let passed := decide (relative ≤ tolerance)
    { test := .variance
      passed
      p := none
      statistic := relative
      details := .variance m.variance variance relative
      grade := if passed then .a else .f }

/-! ## Equal shares -/

/-- the squared distance of a count from its share, in shares -/
def shareTerm (expected : F) (count : Nat) : F :=
  let diff := Arith.ofNat count - expected
  diff * diff / expected

/-- are the counts, which add up to `total`, as even as equal shares would leave them? -/
def evenness (t : Tails F) (test : Test) (counts : List Nat) (total : Nat) : Option (Verdict F) :=
  let k := counts.length
  if k < 2 then some (.insufficient test 2 k)
  else
    let expected : F := Arith.ofNat total / Arith.ofNat k
    if expected < 5.0 then some (.insufficient test (5 * k) total)
    else
      let statistic := Arith.sum (counts.map (shareTerm expected))
      t.aboveOr (Arith.ofNat (k - 1)) statistic (.insufficient test 2 k) fun p =>
        .ofP test p statistic (.buckets k total expected)

/-- chi-square test of bucket counts, which are words and are added up as words -/
def uniformity (t : Tails F) (counts : List Nat) : Option (Verdict F) :=
  evenness t .uniformity counts (counts.foldl (· + ·) 0 % UInt64.size)

/-- how often each of `0`, …, `k - 1` occurs -/
def tally (k : Nat) (values : List Int) : List Nat :=
  (values.foldl
    (fun (counts : Array Nat) v => if 0 ≤ v then counts.modify v.toNat (· + 1) else counts)
    (Array.replicate k 0)).toList

end Sampling.Battery
