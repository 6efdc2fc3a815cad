/-
Tests of byte strings.

A byte string is read as bits, the highest of each byte first. The tests look at the balance of ones and zeros (`bitSum`), at the
balance inside blocks, at how often each byte occurs, at the number of constant runs (`runCount`), and at mean and variance of
the bytes.
-/
import Sampling.Battery.Moments
import Sampling.Bytes

namespace Sampling.Battery

/-! ## Bits -/

/-- the bits of a byte, highest first -/
def bitsOfByte (x : UInt8) : List Bool :=
  [7, 6, 5, 4, 3, 2, 1, 0].map fun shift => x.toNat.testBit shift

def bits (data : Bytes) : List Bool := data.flatMap bitsOfByte

def byteOfBits (bs : List Bool) : UInt8 := UInt8.ofNat (bs.foldl (fun x b => 2 * x + b.toNat) 0)

/-- the bytes of a bit string, eight bits each -/
def pack : List Bool → Bytes
  | b7 :: b6 :: b5 :: b4 :: b3 :: b2 :: b1 :: b0 :: rest => byteOfBits [b7, b6, b5, b4, b3, b2, b1, b0] :: pack rest
  | _ => []

def ones (bs : List Bool) : Nat := bs.countP id

/-- ones less zeros -/
def bitSum (bs : List Bool) : Int := bs.foldl (fun s b => if b then s + 1 else s - 1) 0

/-- how often neighbouring bits differ -/
def changes (bs : List Bool) : Nat := (bs.zip (bs.drop 1)).countP fun p => p.1 != p.2

/-- one more than the changes: the constant runs of a bit string that is not empty -/
def runCount (bs : List Bool) : Nat := 1 + changes bs

/-! ## Tests -/

section
variable {F : Type} [Arith F]

/-- balance of ones and zeros -/
def monobit (t : Tails F) (data : Bytes) : Option (Verdict F) :=
  let bs := bits data
  let n := bs.length
  if n < 100 then some (.insufficient .monobit 100 n)
  else
    let s := bitSum bs
    let statistic := Arith.abs (Arith.ofInt s : F) / Arith.sqrt (Arith.ofNat n)
    (t.twoSided statistic).map fun p => .ofP .monobit p statistic (.bitSum s n)

def blockSize : Nat := 128

/-- the sum of squared distances from one half over `blocks` whole blocks -/
def blockDeviation : (blocks : Nat) → List Bool → F → F
  | 0, _, sum => sum
  | blocks + 1, bs, sum =>
    let proportion := Arith.ofNat (ones (bs.take blockSize)) / Arith.ofNat blockSize
    blockDeviation blocks (bs.drop blockSize) (sum + (proportion - 0.5) * (proportion - 0.5))

/-- balance of ones and zeros inside blocks -/
def blockFrequency (t : Tails F) (data : Bytes) : Option (Verdict F) :=
  let bs := bits data
  let n := bs.length
  let blocks := n / blockSize
  if blocks < 10 then some (.insufficient .blockFrequency (blockSize * 10) n)
  else
    let statistic : F := blockDeviation blocks bs 0.0 * (4.0 * Arith.ofNat blockSize)
    t.aboveOr (Arith.ofNat blocks) statistic (.insufficient .blockFrequency (blockSize * 10) n) fun p =>
      .ofP .blockFrequency p statistic (.blocks blocks blockSize)

def byteFrequency (t : Tails F) (data : Bytes) : Option (Verdict F) :=
  if data.length < 256 then some (.insufficient .byteFrequency 256 data.length)
  else
    let counts := tally 256 (data.map fun x => (x.toNat : Int))
    evenness t .byteFrequency counts (counts.foldl (· + ·) 0)

/-- is the share of ones too far from one half for runs to be counted? -/
def unbalanced (proportion : F) (n : Nat) : Bool :=
  decide (2.0 / Arith.sqrt (Arith.ofNat n) ≤ Arith.abs (proportion - 0.5))

def runs (t : Tails F) (data : Bytes) : Option (Verdict F) :=
  let bs := bits data
  let n := bs.length
  if n < 100 then some (.insufficient .runs 100 n)
  else
    let size : F := Arith.ofNat n
    let proportion := Arith.ofNat (ones bs) / size
    if unbalanced proportion n then
      some { test := .runs, passed := false, p := some 0.0, statistic := 0.0, details := .proportion proportion, grade := .f }
    else
      let count := runCount bs
      let expected := 2.0 * size * proportion * (1.0 - proportion) + 1.0
      let deviation := 2.0 * Arith.sqrt (2.0 * size) * proportion * (1.0 - proportion)
      let z := Arith.abs (Arith.ofNat count - expected) / deviation
      (t.twoSided z).map fun p => .ofP .runs p z (.runs count expected)

def byteMoments (t : Tails F) (data : Bytes) : Option (Verdict F) :=
  let n := data.length
  if n < 50 then some (.insufficient .byteMoments 50 n)
  else do
    let m := Moments.of (data.map fun x => (Arith.ofNat x.toNat : F))
    let size : F := Arith.ofNat n
    let expectedVariance := (256.0 * 256.0 - 1.0) / 12.0
    let z := Arith.abs (m.mean - 127.5) / Arith.sqrt (expectedVariance / size)
    let pMean ← t.twoSided z
    let spread := (size - 1.0) * m.variance / expectedVariance
    match t.chiSquare? (size - 1.0) with
    | none => some (.insufficient .byteMoments 50 n)
    | some distribution =>
      let below ← distribution.below spread
      let above ← distribution.above spread
      let pVariance := 2.0 * Arith.least below above
      some (.ofP .byteMoments (Arith.least pMean pVariance) z (.byteMoments m.mean m.variance expectedVariance))

/-- all tests of a byte string, in their order; a test that panics leaves an unknown verdict -/
def byteBattery (t : Tails F) (data : Bytes) : List (Verdict F) :=
  [monobit, blockFrequency, byteFrequency, runs, byteMoments].map fun test => (test t data).getD .panicked

end

end Sampling.Battery
