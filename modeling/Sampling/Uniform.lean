/-
Uniform draws: words, bounded and ranged integers, unit numbers and coins.

A bounded draw below `n` redraws words from `acceptLimit n` on, a multiple of `n`, and reduces the first accepted word modulo
`n`, so no residue is favoured. Ranges shift a bounded draw below the span, computed in wrapping 64-bit arithmetic: the full
domain has span zero and takes one raw word. Narrower integers go through the 64-bit range and are checked to fit.
-/
import Sampling.Draw
import Sampling.Unit

namespace Sampling

/-- words from here on are redrawn: the largest multiple of `n` that is at most the largest word -/
def acceptLimit (n : UInt64) : UInt64 :=
  let top : UInt64 := 0xffffffffffffffff
  top - top % n

namespace Draw

variable {F α : Type}

/-! ## Bytes and words -/

def bytes (n : Nat) : Draw F Bytes :=
  if n = 0 then done [] else fill n done

/-- one word, least significant byte first -/
def word : Draw F UInt64 :=
  fill 8 fun b => done (Bytes.word b)

/-! ## Integers -/

/-- redraw until a word is accepted; redraws are counted in 32 bits -/
def belowFrom (n : UInt64) : (tries : Nat) → (redraws : UInt32) → Draw F UInt64
  | 0, _ => stuck
  | tries + 1, redraws => do
    let u ← word
    if u < acceptLimit n then settled n (u % n) redraws (done (u % n))
    else belowFrom n tries (redraws + 1)

def wordBelow (tries : Nat) (n : UInt64) : Draw F UInt64 :=
  require (n != 0) .zeroBound (belowFrom n tries 0)

/-- a word that has to be a position; positions have 64 bits -/
def toIndex (u : UInt64) : Draw F Nat :=
  require (u.toNat < UInt64.size) .outOfRange (done u.toNat)

/-- a position below `n`, which has to be a word -/
def indexBelow (tries n : Nat) : Draw F Nat :=
  require (n < UInt64.size) .outOfRange do
    let u ← wordBelow tries (UInt64.ofNat n)
    toIndex u

/-- a signed integer from zero up to, not including, `n` -/
def signedBelow (tries : Nat) (n : Int64) : Draw F Int64 :=
  require (0 < n) .zeroBound (UInt64.toInt64 <$> wordBelow tries n.toUInt64)

/-- how many integers there are from `min` to `max`, modulo `2 ^ 64` -/
def span (min max : Int64) : UInt64 := max.toUInt64 - min.toUInt64 + 1

/-- a signed integer from `min` to `max`, both included -/
def between (tries : Nat) (min max : Int64) : Draw F Int64 :=
  require (min ≤ max) (.invertedRange min max)
    (if span min max = 0 then UInt64.toInt64 <$> word
     else (fun offset => (min.toUInt64 + offset).toInt64) <$> wordBelow tries (span min max))

/-- a value that has to fit 32 bits -/
def narrow (v : Int64) : Draw F Int32 :=
  require (Int32.minValue.toInt64 ≤ v && v ≤ Int32.maxValue.toInt64) .outOfRange (done v.toInt32)

def between32 (tries : Nat) (min max : Int32) : Draw F Int32 := do
  let v ← between tries min.toInt64 max.toInt64
  narrow v

/-- a value that has to fit 64 bits -/
def narrow64 (z : Int) : Draw F Int64 :=
  require (Int64.minValue.toInt ≤ z && z ≤ Int64.maxValue.toInt) .outOfRange (done (Int64.ofInt z))

/-- a signed size from `min` to `max`, both included; sizes have 64 bits and are checked on the way in and out -/
def betweenSize (tries : Nat) (min max : Int64) : Draw F Int64 := do
  let lo ← narrow64 min.toInt
  let hi ← narrow64 max.toInt
  let v ← between tries lo hi
  narrow64 v.toInt

def any32 (tries : Nat) : Draw F Int32 := between32 tries Int32.minValue Int32.maxValue

def any64 (tries : Nat) : Draw F Int64 := between tries Int64.minValue Int64.maxValue

def positive32 (tries : Nat) : Draw F Int32 := between32 tries 1 Int32.maxValue

def positive64 (tries : Nat) : Draw F Int64 := between tries 1 Int64.maxValue

def negative32 (tries : Nat) : Draw F Int32 := between32 tries Int32.minValue (-1)

def negative64 (tries : Nat) : Draw F Int64 := between tries Int64.minValue (-1)

/-! ## Unit numbers and coins -/

/-- a fair coin: the lowest bit of a word -/
def coin : Draw F Bool := (fun w => w &&& 1 == 1) <$> word

variable [Arith F]

def unit : Draw F F := unitOf <$> word

def positiveUnit : Draw F F := positiveUnitOf <$> word

/-- a unit number above zero, redrawn while it is not -/
def openUnit : (tries : Nat) → Draw F F
  | 0 => stuck
  | tries + 1 => do
    let u ← unit
    if 0.0 < u then done u else openUnit tries

/-! ## Laws -/

omit [Arith F]

@[simp] theorem toIndex_eq (u : UInt64) : (toIndex u : Draw F Nat) = done u.toNat := by
  rw [toIndex, require, if_pos (decide_eq_true u.toNat_lt)]

@[simp] theorem narrow64_toInt (v : Int64) : (narrow64 v.toInt : Draw F Int64) = done v := by
  have hfits : (Int64.minValue.toInt ≤ v.toInt && v.toInt ≤ Int64.maxValue.toInt) = true := by
    simpa using ⟨v.minValue_le_toInt, v.toInt_le⟩
  rw [narrow64, require, if_pos hfits, Int64.ofInt_toInt]

theorem indexBelow_eq (tries n : Nat) : (indexBelow tries n : Draw F Nat) =
    require (n < UInt64.size) .outOfRange (UInt64.toNat <$> wordBelow tries (UInt64.ofNat n)) := by
  simp only [indexBelow, bind_eq, map_eq, toIndex_eq]

theorem betweenSize_eq (tries : Nat) (min max : Int64) : (betweenSize tries min max : Draw F Int64) = between tries min max := by
  simp only [betweenSize, bind_eq, narrow64_toInt, done_bind, bind_done]

end Draw

end Sampling
