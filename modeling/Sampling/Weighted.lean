/-
Weighted choices from a list of items.

One item is chosen as a categorical draw chooses its index. A sample without replacement gives every item of non-zero weight the
key `-ln u / w` for a unit number above zero of its own, and keeps the items of the smallest keys, smallest first; equal keys
stay in list order.
-/
import Sampling.Distribution.Discrete

namespace Sampling.Draw

variable {F α : Type} [Arith F]

/-- items and weights have to pair up -/
def requirePaired {β : Type} (items : List α) (weights : List F) (p : Draw F β) : Draw F β :=
  require (items.length == weights.length) (.lengthMismatch items.length weights.length) p

/-- one item, drawn in proportion to its weight -/
def weightedChoice (items : List α) (weights : List F) : Draw F α :=
  match items with
  | [] => fault .noItems
  | x :: _ => requirePaired items weights do
    let sum ← ofExcept (Weights.total? weights)
    let u ← unit
    done (items.getD (Weights.select weights (u * sum)) x)

theorem weightedChoice_cons (x : α) (rest : List α) (weights : List F) : weightedChoice (x :: rest) weights =
    requirePaired (x :: rest) weights ((fun i => (x :: rest).getD i x) <$> categorical weights) := by
  simp only [weightedChoice, categorical, bind_eq, map_eq, bind_assoc, done_bind]

def key (u w : F) : F := -(Arith.ln u) / w

/-- an item with its key, for a unit number above zero of its own -/
def keyed (tries : Nat) (item : α × F) : Draw F (F × α) :=
  (fun u => (key u item.2, item.1)) <$> openUnit tries

/-- keys for the items of non-zero weight, in list order -/
def keys (tries : Nat) (items : List (α × F)) : Draw F (List (F × α)) :=
  each (keyed tries) (items.filter fun item => !(item.2 == 0.0))

/-- the items in the order of their keys, equal keys in list order -/
def byKey (keyed : List (F × α)) : List α :=
  (keyed.mergeSort fun a b => !decide (b.1 < a.1)).map (·.2)

/-- `k` items without replacement, the smallest keys first -/
def weightedSample (tries : Nat) (items : List α) (weights : List F) (k : Nat) : Draw F (List α) :=
  requirePaired items weights
    (if k = 0 then done []
     else if items.isEmpty then fault .noItems
     else do
       let _ ← ofExcept (Weights.total? weights)
       let positive := weights.countP fun w => decide (0.0 < w)
       require (k ≤ positive) (.tooFewPositive k positive) do
         let keyed ← keys tries (items.zip weights)
         done ((byKey keyed).take k))

end Sampling.Draw
