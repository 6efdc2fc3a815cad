/-
Zipf tables.

The table of exponent `s`, offset `v` and size `n` holds the running sums of the weights `(v + k) ^ (-s)`, `k = 1, …, n`, divided
by their total. A unit number selects the first rank whose entry is not below it.
-/
import Sampling.Bisection
import Sampling.Uniform

namespace Sampling

structure Zipf (F : Type) where
  s : F
  v : F
  cdf : Array F
deriving DecidableEq, Repr

namespace Zipf

variable {F : Type} [Arith F]

def weight (s v : F) (rank : Nat) : F := Arith.pow (v + Arith.ofNat rank) (-s)

/-- the running sums of the first `n` weights, and their total -/
def sums (s v : F) (n : Nat) : Array F × F :=
  (List.range n).foldl
    (fun (entries, acc) i =>
      let acc := acc + weight s v (i + 1)
      (entries.push acc, acc))
    (#[], 0.0)

def build? (s v : F) (n : Nat) : Except (Fault F) (Zipf F) :=
  if Arith.isNaN s || Arith.isNaN v || decide (s ≤ 0.0) || decide (v < 0.0) || n == 0 then .error .zipfParameters
  else
    let (entries, total) := sums s v n
    if !Arith.isFinite total || decide (total ≤ 0.0) then .error .zipfSum
    else .ok ⟨s, v, entries.map (· / total)⟩

/-- is the entry at a position not below a number? Positions past the end count as if they were -/
def reaches (z : Zipf F) (u : F) (i : Nat) : Bool := (z.cdf[i]?).all fun p => !decide (p < u)

/-- the rank a unit number selects: the first whose entry is not below it, at most the last -/
def rank (z : Zipf F) (u : F) : Nat :=
  min (Bisection.firstFrom (z.reaches u) 0 z.cdf.size) (z.cdf.size - 1) + 1

end Zipf

namespace Draw

variable {F : Type} [Arith F]

def zipfRank (z : Zipf F) : Draw F Nat := z.rank <$> unit

/-- build a table and draw one rank from it -/
def zipf (s v : F) (n : Nat) : Draw F Nat := do
  let z ← ofExcept (Zipf.build? s v n)
  zipfRank z

end Draw

end Sampling
