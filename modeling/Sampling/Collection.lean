/-
Shuffles, picks and samples.

A shuffle and a sample are schedules of swaps. `applySwaps` carries a schedule out on any list; the programs draw the second
position of each swap and never look at the items. `Shuffle.swaps` and `Sample.swaps` turn the drawn numbers into a schedule, so
what is left behind when a draw fails is what the swaps so far have made.
-/
import Sampling.Uniform

namespace Sampling

/-! ## Swaps -/

/-- exchange positions, one pair after the other -/
def applySwaps {α : Type} (items : Array α) (swaps : List (Nat × Nat)) : Array α :=
  swaps.foldl (fun xs ij => xs.swapIfInBounds ij.1 ij.2) items

/-- the swaps of a shuffle of `n` items for draws below `n`, `n - 1`, …: the last position first -/
def Shuffle.swaps (n : Nat) : List Nat → List (Nat × Nat)
  | [] => []
  | j :: rest => (n - 1, j) :: Shuffle.swaps (n - 1) rest

/-- the swaps of a sample, from position `i` on, for draws below `n - i`, `n - i - 1`, … -/
def Sample.swaps (i : Nat) : List Nat → List (Nat × Nat)
  | [] => []
  | r :: rest => (i, i + r) :: Sample.swaps (i + 1) rest

/-- the list as the given draws of a shuffle leave it -/
def Shuffle.after {α : Type} (items : List α) (draws : List Nat) : List α :=
  (applySwaps items.toArray (Shuffle.swaps items.length draws)).toList

/-- the positions a sample with the given draws takes from a list -/
def Sample.after {α : Type} (items : List α) (draws : List Nat) : List α :=
  (applySwaps items.toArray (Sample.swaps 0 draws)).toList.take draws.length

namespace Draw

variable {F α : Type}

/-- the bounds `n`, `n - 1`, …, `n - k + 1` -/
def bounds (n k : Nat) : List Nat := (List.range k).map (n - ·)

def descending (tries n k : Nat) : Draw F (List Nat) := each (indexBelow tries) (bounds n k)

/-- a shuffled list: one draw for every item but the first -/
def shuffle (tries : Nat) (items : List α) : Draw F (List α) := do
  let draws ← descending tries items.length (items.length - 1)
  done (Shuffle.after items draws)

/-- one item, all equally likely -/
def pickOne (tries : Nat) (items : List α) : Draw F α :=
  match items with
  | [] => fault .nothingToPick
  | x :: _ => (fun i => items.getD i x) <$> indexBelow tries items.length

/-- `k` items at different positions, in the order drawn -/
def sample (tries : Nat) (items : List α) (k : Nat) : Draw F (List α) :=
  require (k ≤ items.length) (.tooFewItems k items.length) do
    let draws ← descending tries items.length k
    done (Sample.after items draws)

variable [Arith F]

/-- the items whose number is at most `p` -/
def keepAtMost (p : F) (items : List α) (numbers : List F) : List α :=
  (items.zip numbers).filterMap fun xu => if xu.2 ≤ p then some xu.1 else none

/-- one unit number per item; the items whose number is at most `p` -/
def keep (p : F) (items : List α) : Draw F (List α) :=
  keepAtMost p items <$> each (fun _ => unit) items

/-- keep every item with probability `p`, in list order -/
def pickByProbability (items : List α) (p : F) : Draw F (List α) :=
  require (decide (0.0 ≤ p) && decide (p ≤ 1.0)) (.keepProbability p) (keep p items)

end Draw

end Sampling
