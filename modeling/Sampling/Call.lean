/-
The operations of a generator as data.

A `Call` names an operation with its arguments, `Call.program` is the program that carries it out, and a `Value` is what it
returns. Numbers that went through a transcendental function are told apart from exact ones. `hasStrictForm` says which
operations the aborting layer offers.
-/
import Sampling.Distribution.Poisson
import Sampling.Weighted
import Sampling.Collection
import Sampling.Zipf

namespace Sampling

/-- an operation of a generator, with its arguments -/
inductive Call (F : Type) where
  | bytes (n : Nat)
  | word
  | wordBelow (n : UInt64)
  | indexBelow (n : Nat)
  | signedBelow (n : Int64)
  | between (min max : Int64)
  | between32 (min max : Int32)
  | betweenSize (min max : Int64)
  | any32
  | any64
  | positive32
  | positive64
  | negative32
  | negative64
  | unit
  | coin
  | bernoulli (p : F)
  | categorical (weights : List F)
  | exponential (rate : F)
  | uniform (lo hi : F)
  | normal (mean deviation : F)
  | standardNormal
  | clockNormal (deviation : F)
  | poisson (mean : F)
  | gamma (shape rate : F)
  | zipf (s v : F) (n : Nat)
  | weightedChoice (items : List String) (weights : List F)
  | weightedSample (items : List String) (weights : List F) (k : Nat)
  | shuffle (items : List String)
  | shuffled (items : List String)
  | pickOne (items : List String)
  | sample (items : List String) (k : Nat)
  | pickByProbability (items : List String) (p : F)
deriving Repr

inductive Value (F : Type) where
  | nothing
  | bytes (b : Bytes)
  | integer (z : Int)
  | exact (x : F)
  | rounded (x : F)
  | flag (b : Bool)
  | instant (t : Instant)
  | item (x : String)
  | items (xs : List String)
deriving Repr

namespace Value

variable {F : Type} [Arith F]

/-- a value as a number; a flag counts one or zero -/
def number? : Value F → Option F
  | integer z => some (Arith.ofInt z)
  | exact x => some x
  | rounded x => some x
  | flag b => some (Arith.ofNat b.toNat)
  | _ => none

/-- a value as an integer; a flag counts one or zero -/
def integer? : Value F → Option Int
  | integer z => some z
  | flag b => some b.toNat
  | _ => none

end Value

namespace Call

variable {F : Type} [Arith F]

/-- the program of a call for a generator's clock and tries -/
def program (now : Instant) (tries : Nat) : Call F → Draw F (Value F)
  | bytes n => .bytes <$> Draw.bytes n
  | word => (.integer ·.toNat) <$> Draw.word
  | wordBelow n => (.integer ·.toNat) <$> Draw.wordBelow tries n
  | indexBelow n => (.integer ·) <$> Draw.indexBelow tries n
  | signedBelow n => (.integer ·.toInt) <$> Draw.signedBelow tries n
  | between min max => (.integer ·.toInt) <$> Draw.between tries min max
  | between32 min max => (.integer ·.toInt) <$> Draw.between32 tries min max
  | betweenSize min max => (.integer ·.toInt) <$> Draw.betweenSize tries min max
  | any32 => (.integer ·.toInt) <$> Draw.any32 tries
  | any64 => (.integer ·.toInt) <$> Draw.any64 tries
  | positive32 => (.integer ·.toInt) <$> Draw.positive32 tries
  | positive64 => (.integer ·.toInt) <$> Draw.positive64 tries
  | negative32 => (.integer ·.toInt) <$> Draw.negative32 tries
  | negative64 => (.integer ·.toInt) <$> Draw.negative64 tries
  | unit => .exact <$> Draw.unit
  | coin => .flag <$> Draw.coin
  | bernoulli p => .flag <$> Draw.bernoulli p
  | categorical weights => (.integer ·) <$> Draw.categorical weights
  | exponential rate => .rounded <$> Draw.exponential rate
  | uniform lo hi => .exact <$> Draw.uniform lo hi
  | normal mean deviation => .rounded <$> Draw.normal mean deviation
  | standardNormal => .rounded <$> Draw.standardNormal
  | clockNormal deviation => .instant <$> Draw.clockNormal now deviation
  | poisson mean => (.integer ·) <$> Draw.poisson tries mean
  | gamma shape rate => .rounded <$> Draw.gamma tries shape rate
  | zipf s v n => (.integer ·) <$> Draw.zipf s v n
  | weightedChoice items weights => .item <$> Draw.weightedChoice items weights
  | weightedSample items weights k => .items <$> Draw.weightedSample tries items weights k
  | shuffle items => (fun _ => .nothing) <$> Draw.shuffle tries items
  | shuffled items => .items <$> Draw.shuffle tries items
  | pickOne items => .item <$> Draw.pickOne tries items
  | sample items k => .items <$> Draw.sample tries items k
  | pickByProbability items p => .items <$> Draw.pickByProbability items p

/-- the list a shuffle in place leaves behind after the draws it got -/
def leftBehind? (draws : List Nat) : Call F → Option (List String)
  | shuffle items => some (Shuffle.after items draws)
  | _ => none

/-- is the operation part of the aborting layer? -/
def hasStrictForm : Call F → Bool
  | betweenSize _ _ => false
  | standardNormal => false
  | _ => true

end Call

end Sampling
