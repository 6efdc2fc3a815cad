/-
Reading a keystream byte by byte.

The cipher hands out whole words, a request may end inside one. `Keystream.read` serves first what the last split word left,
then whole words, then the opening bytes of one more word whose rest is kept for the next request: no byte of the keystream is
dropped, however it is cut into requests.
-/
import Sampling.ChaCha

namespace Sampling

/-- a keystream, the next word to compute, and the unread bytes of the word before it -/
structure Keystream where
  stream : ChaCha.Stream
  next : Nat := 0
  carry : Bytes := []
deriving DecidableEq, Repr

namespace Keystream

/-- the bytes of `count` whole words from word `first` on -/
def words (stream : ChaCha.Stream) (first count : Nat) : Bytes :=
  (List.range' first count).flatMap fun i => Bytes.ofHalf (stream.word i)

/-- the next `n` bytes, and the reader after them -/
def read (k : Keystream) (n : Nat) : Bytes × Keystream :=
  let kept := k.carry.take n
  let whole := (n - kept.length) / 4
  let split := (n - kept.length) % 4
  let body := kept ++ words k.stream k.next whole
  if split = 0 then (body, { k with next := k.next + whole, carry := k.carry.drop n })
  else
    let last := Bytes.ofHalf (k.stream.word (k.next + whole))
    (body ++ last.take split, { k with next := k.next + whole + 1, carry := last.drop split })

@[simp] theorem length_words (stream : ChaCha.Stream) (first count : Nat) :
    (words stream first count).length = 4 * count := by
  induction count generalizing first with
  | zero => rfl
  | succ count ih =>
    have h := ih (first + 1)
    simp only [words] at h
    simp [words, List.range'_succ, h]
    omega

theorem length_read (k : Keystream) (n : Nat) : (k.read n).1.length = n := by
  unfold read
  have hk : (k.carry.take n).length ≤ n := List.length_take_le n k.carry
  dsimp only
  split <;> simp only [List.length_append, length_words, List.length_take, Bytes.length_ofHalf] at * <;> omega

end Keystream

end Sampling
