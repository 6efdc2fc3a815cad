/-
The SHA-256 hash of a byte string.

Model: the message is padded to whole blocks of 64 bytes (`padded`), each block is widened to sixty-four words (`schedule`)
and folded into the chaining value by sixty-four rounds (`compress`); `digest` spells the last chaining value, most significant
byte first. Keys of seeded sources are digests, so every byte of such a source rests on this module.
-/
import Sampling.Bytes

namespace Sampling.Sha256

/-- the chaining value: eight working words -/
structure Chain where
  a : UInt32
  b : UInt32
  c : UInt32
  d : UInt32
  e : UInt32
  f : UInt32
  g : UInt32
  h : UInt32
deriving DecidableEq, Repr

/-- the chaining value before the first block: fractional parts of the square roots of the first eight primes -/
def Chain.start : Chain :=
  ⟨0x6a09e667, 0xbb67ae85, 0x3c6ef372, 0xa54ff53a, 0x510e527f, 0x9b05688c, 0x1f83d9ab, 0x5be0cd19⟩

/-- round constants: fractional parts of the cube roots of the first sixty-four primes -/
def roundConstants : List UInt32 :=
  [0x428a2f98, 0x71374491, 0xb5c0fbcf, 0xe9b5dba5, 0x3956c25b, 0x59f111f1, 0x923f82a4, 0xab1c5ed5,
   0xd807aa98, 0x12835b01, 0x243185be, 0x550c7dc3, 0x72be5d74, 0x80deb1fe, 0x9bdc06a7, 0xc19bf174,
   0xe49b69c1, 0xefbe4786, 0x0fc19dc6, 0x240ca1cc, 0x2de92c6f, 0x4a7484aa, 0x5cb0a9dc, 0x76f988da,
   0x983e5152, 0xa831c66d, 0xb00327c8, 0xbf597fc7, 0xc6e00bf3, 0xd5a79147, 0x06ca6351, 0x14292967,
   0x27b70a85, 0x2e1b2138, 0x4d2c6dfc, 0x53380d13, 0x650a7354, 0x766a0abb, 0x81c2c92e, 0x92722c85,
   0xa2bfe8a1, 0xa81a664b, 0xc24b8b70, 0xc76c51a3, 0xd192e819, 0xd6990624, 0xf40e3585, 0x106aa070,
   0x19a4c116, 0x1e376c08, 0x2748774c, 0x34b0bcb5, 0x391c0cb3, 0x4ed8aa4a, 0x5b9cca4f, 0x682e6ff3,
   0x748f82ee, 0x78a5636f, 0x84c87814, 0x8cc70208, 0x90befffa, 0xa4506ceb, 0xbef9a3f7, 0xc67178f2]

/-- rotation to the right -/
def rotate (x : UInt32) (n : UInt32) : UInt32 := (x >>> n) ||| (x <<< (32 - n))

/-- a word from four bytes, most significant first -/
def wordOf (b : Bytes) : UInt32 := UInt32.ofNat (Bytes.value b.reverse)

/-- cut into `count` pieces of `size` bytes -/
def pieces (size : Nat) : Nat → Bytes → List Bytes
  | 0, _ => []
  | count + 1, b => b.take size :: pieces size count (b.drop size)

/-- one more schedule word from the sixteen before it -/
def widen (w : Array UInt32) : Array UInt32 :=
  let back (i : Nat) : UInt32 := w.getD (w.size - i) 0
  let s0 := rotate (back 15) 7 ^^^ rotate (back 15) 18 ^^^ (back 15 >>> 3)
  let s1 := rotate (back 2) 17 ^^^ rotate (back 2) 19 ^^^ (back 2 >>> 10)
  w.push (back 16 + s0 + back 7 + s1)

/-- the sixty-four schedule words of one block -/
def schedule (block : Bytes) : List UInt32 :=
  ((List.range 48).foldl (fun w _ => widen w) ((pieces 4 16 block).map wordOf).toArray).toList

def Chain.round (s : Chain) (k w : UInt32) : Chain :=
  let s1 := rotate s.e 6 ^^^ rotate s.e 11 ^^^ rotate s.e 25
  let choice := (s.e &&& s.f) ^^^ (~~~s.e &&& s.g)
  let t1 := s.h + s1 + choice + k + w
  let s0 := rotate s.a 2 ^^^ rotate s.a 13 ^^^ rotate s.a 22
  let majority := (s.a &&& s.b) ^^^ (s.a &&& s.c) ^^^ (s.b &&& s.c)
  ⟨t1 + (s0 + majority), s.a, s.b, s.c, s.d + t1, s.e, s.f, s.g⟩

/-- fold one block into the chaining value -/
def Chain.compress (s : Chain) (block : Bytes) : Chain :=
  let t := (roundConstants.zip (schedule block)).foldl (fun t kw => t.round kw.1 kw.2) s
  ⟨s.a + t.a, s.b + t.b, s.c + t.c, s.d + t.d, s.e + t.e, s.f + t.f, s.g + t.g, s.h + t.h⟩

/-- the message, one bit 1, zeros up to eight bytes before a block's end, and the message's length in bits -/
def padded (message : Bytes) : Bytes :=
  let zeros := (119 - message.length % 64) % 64
  message ++ 0x80 :: List.replicate zeros 0 ++ (Bytes.spell 8 (8 * message.length)).reverse

def Chain.words (s : Chain) : List UInt32 := [s.a, s.b, s.c, s.d, s.e, s.f, s.g, s.h]

/-- the 32-byte hash of a message -/
def digest (message : Bytes) : Bytes :=
  let text := padded message
  let last := (pieces 64 (text.length / 64) text).foldl Chain.compress Chain.start
  last.words.flatMap fun w => (Bytes.ofHalf w).reverse

theorem length_digest (message : Bytes) : (digest message).length = 32 := by
  simp [digest, Chain.words]

end Sampling.Sha256
