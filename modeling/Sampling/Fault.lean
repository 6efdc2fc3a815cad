/-
Why an operation fails.

A `Fault` is the operation's own: a parameter outside its domain, found before anything is read, or a result that does not fit.
An `Error` is a fault or a failure of the source, passed on unchanged. Programs can only raise faults; source failures come from
the machine that runs them.
-/
import Sampling.Entropy

namespace Sampling

/-- what an operation itself can object to -/
inductive Fault (F : Type) where
  | probability
  | noWeights
  | badWeight
  | badWeightSum
  | rate
  | bounds
  | meanOrDeviation
  | shapeOrRate
  | zipfParameters
  | zipfSum
  | noItems
  | lengthMismatch (items weights : Nat)
  | tooFewPositive (wanted positive : Nat)
  | nothingToPick
  | tooFewItems (wanted items : Nat)
  | keepProbability (p : F)
  | zeroBound
  | invertedRange (min max : Int64)
  | outOfRange
deriving DecidableEq, Repr

inductive FaultFamily where
  | invalidParameter
  | invalidBound
  | invalidRange
  | resultOutOfRange
deriving DecidableEq, Repr

def FaultFamily.name : FaultFamily → String
  | .invalidParameter => "InvalidParameter"
  | .invalidBound => "InvalidBound"
  | .invalidRange => "InvalidRange"
  | .resultOutOfRange => "ResultOutOfRange"

namespace Fault

variable {F : Type}

def family : Fault F → FaultFamily
  | zeroBound => .invalidBound
  | invertedRange _ _ => .invalidRange
  | outOfRange => .resultOutOfRange
  | _ => .invalidParameter

def isParameter (f : Fault F) : Bool := f.family != .resultOutOfRange

/-- what is wrong with a parameter, or with the result; `text` writes a number -/
def reason (text : F → String) : Fault F → String
  | probability => "p must be in [0,1]"
  | noWeights => "weights must be non-empty"
  | badWeight => "weights must be finite and >= 0"
  | badWeightSum => "weights must sum to a finite value > 0"
  | rate => "lambda must be finite and > 0"
  | bounds => "uniform bounds must be finite with lo < hi"
  | meanOrDeviation => "mean must not be NaN and sigma must be >= 0"
  | shapeOrRate => "alpha and beta must be finite and > 0"
  | zipfParameters => "zipf needs s > 0, v >= 0 and n >= 1"
  | zipfSum => "zipf weights do not sum to a finite positive value"
  | noItems => "items must be non-empty"
  | lengthMismatch items weights =>
    "items/weights length mismatch: " ++ toString items ++ " vs " ++ toString weights
  | tooFewPositive wanted positive =>
    "sample size " ++ toString wanted ++ " exceeds " ++ toString positive ++ " positive-weight items"
  | nothingToPick => "cannot pick from an empty slice"
  | tooFewItems wanted items => "sample size " ++ toString wanted ++ " exceeds " ++ toString items ++ " items"
  | keepProbability p => "probability " ++ text p ++ " outside [0, 1]"
  | zeroBound => "bound must be > 0"
  | invertedRange min max => "min " ++ toString min.toInt ++ " > max " ++ toString max.toInt
  | outOfRange => "result out of range for target type"

def message (text : F → String) (f : Fault F) : String :=
  match f.family with
  | .invalidParameter => "invalid parameter: " ++ f.reason text
  | .invalidRange => "invalid range: " ++ f.reason text
  | .invalidBound | .resultOutOfRange => f.reason text

end Fault

/-- why an operation failed -/
inductive Error (F : Type) where
  | fault (f : Fault F)
  | source (e : Failure)
deriving DecidableEq, Repr

namespace Error

variable {F : Type}

def isParameter : Error F → Bool
  | fault f => f.isParameter
  | source _ => false

def name : Error F → String
  | fault f => f.family.name
  | source e => "EntropySource." ++ e.kind.name

def message (text : F → String) : Error F → String
  | fault f => f.message text
  | source e => "entropy source failure: " ++ e.message

end Error

/-! ## Laws -/

/-- one family alone is not about parameters -/
theorem Fault.isParameter_iff {F : Type} (f : Fault F) : f.isParameter = true ↔ f ≠ .outOfRange := by
  constructor
  · rintro h rfl
    cases h
  · intro h
    cases f with
    | outOfRange => exact absurd rfl h
    | _ => rfl

end Sampling
