/-
The ChaCha20 keystream of a key and a stream number, as a function from positions to words and to bytes.

Model: `Stream.block` is the keyed block function with a 64-bit block counter and a 64-bit stream number; word `i` of the
keystream is word `i mod 16` of block `i / 16`, byte `i` is byte `i mod 4` (least significant first) of word `i / 4`. Nothing
here has a position of its own: readers that keep one are compared with `Stream.slice`.
-/
import Sampling.Bytes

namespace Sampling.ChaCha

/-- the sixteen words a block is computed from -/
abbrev Block := Vector UInt32 16

/-- rotation to the left -/
def rotate (x n : UInt32) : UInt32 := (x <<< n) ||| (x >>> (32 - n))

/-- add, mix and rotate four words of the block -/
def quarterRound (x : Block) (a b c d : Fin 16) : Block :=
  let x := x.set a (x[a] + x[b])
  let x := x.set d (rotate (x[d] ^^^ x[a]) 16)
  let x := x.set c (x[c] + x[d])
  let x := x.set b (rotate (x[b] ^^^ x[c]) 12)
  let x := x.set a (x[a] + x[b])
  let x := x.set d (rotate (x[d] ^^^ x[a]) 8)
  let x := x.set c (x[c] + x[d])
  x.set b (rotate (x[b] ^^^ x[c]) 7)

/-- one round over the columns and one over the diagonals -/
def doubleRound (x : Block) : Block :=
  let x := quarterRound x 0 4 8 12
  let x := quarterRound x 1 5 9 13
  let x := quarterRound x 2 6 10 14
  let x := quarterRound x 3 7 11 15
  let x := quarterRound x 0 5 10 15
  let x := quarterRound x 1 6 11 12
  let x := quarterRound x 2 7 8 13
  quarterRound x 3 4 9 14

def rounds : Nat → Block → Block
  | 0, x => x
  | count + 1, x => rounds count (doubleRound x)

/-- a keystream: eight key words and a stream number -/
structure Stream where
  key : Vector UInt32 8
  number : UInt64
deriving DecidableEq, Repr

def Stream.ofKey (key : Bytes) (number : UInt64) : Stream where
  key := Vector.ofFn fun i => UInt32.ofNat (Bytes.value ((key.drop (4 * i)).take 4))
  number := number

/-- the four words every block opens with -/
def opening : Vector UInt32 4 := #v[0x61707865, 0x3320646e, 0x79622d32, 0x6b206574]

/-- the opening words, key, block counter and stream number, low words first -/
def Stream.initial (s : Stream) (counter : UInt64) : Block :=
  opening ++ s.key ++
    #v[counter.toUInt32, (counter >>> 32).toUInt32, s.number.toUInt32, (s.number >>> 32).toUInt32]

/-- the keystream block at a counter: twenty rounds, then the initial words added back -/
def Stream.block (s : Stream) (counter : UInt64) : Block :=
  let x := s.initial counter
  (rounds 10 x).zipWith (· + ·) x

def Stream.word (s : Stream) (i : Nat) : UInt32 :=
  (s.block (UInt64.ofNat (i / 16)))[i % 16]

def Stream.byte (s : Stream) (i : Nat) : UInt8 :=
  (Bytes.ofHalf (s.word (i / 4))).getD (i % 4) 0

def Stream.slice (s : Stream) (start count : Nat) : Bytes :=
  (List.range' start count).map s.byte

@[simp] theorem Stream.length_slice (s : Stream) (start count : Nat) : (s.slice start count).length = count := by
  simp [slice]

theorem Stream.slice_append (s : Stream) (start m n : Nat) :
    s.slice start m ++ s.slice (start + m) n = s.slice start (m + n) := by
  simp only [slice, ← List.map_append]
  rw [List.range'_append_1]

/-- a stream of thirty-two key bytes has that key and no other -/
theorem Stream.ofKey_inj {key key' : Bytes} (h : key.length = 32) (h' : key'.length = 32) {number number' : UInt64}
    (heq : Stream.ofKey key number = Stream.ofKey key' number') : key = key' ∧ number = number' := by
  -- four bytes at a time, since that is how the key is read
  have hchunk : ∀ i < 8, (key.drop (4 * i)).take 4 = (key'.drop (4 * i)).take 4 := by
    intro i hi
    have hword := congrArg (fun s => s.key[i]) heq
    simp only [Stream.ofKey, Vector.getElem_ofFn] at hword
    have hlen : ((key.drop (4 * i)).take 4).length = 4 := by
      rw [List.length_take, List.length_drop]
      omega
    have hlen' : ((key'.drop (4 * i)).take 4).length = 4 := by
      rw [List.length_take, List.length_drop]
      omega
    have hlt := Bytes.value_lt ((key.drop (4 * i)).take 4)
    have hlt' := Bytes.value_lt ((key'.drop (4 * i)).take 4)
    rw [hlen] at hlt
    rw [hlen'] at hlt'
    refine Bytes.eq_of_value_eq (hlen.trans hlen'.symm) ?_
    have hnat := congrArg UInt32.toNat hword
    rwa [UInt32.toNat_ofNat_of_lt' hlt, UInt32.toNat_ofNat_of_lt' hlt'] at hnat
  refine ⟨List.ext_getElem (h.trans h'.symm) fun j hj hj' => ?_, congrArg Stream.number heq⟩
  have hbyte := congrArg (fun chunk : Bytes => chunk[j % 4]?) (hchunk (j / 4) (by omega))
  have hmod : j % 4 < 4 := Nat.mod_lt _ (by decide)
  have hj4 : 4 * (j / 4) + j % 4 = j := Nat.div_add_mod j 4
  simp only [List.getElem?_take, if_pos hmod, List.getElem?_drop, hj4, List.getElem?_eq_getElem hj,
    List.getElem?_eq_getElem hj', Option.some.injEq] at hbyte
  exact hbyte

end Sampling.ChaCha
