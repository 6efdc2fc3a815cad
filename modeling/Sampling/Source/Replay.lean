/-
A source that replays a script of bytes and then repeats its last byte.

`Replay.byteAt` is the whole supply as a function of the position; `Replay.fill` serves the unread part of the script first.
An empty script is a supply of zeros.
-/
import Sampling.Entropy

namespace Sampling

/-- the script and how much of it has been served -/
structure Replay where
  script : Array UInt8
  consumed : Nat := 0
deriving DecidableEq, Repr

namespace Replay

def info : SourceInfo where
  name := "replay"
  description := "Replays a fixed byte script, then repeats its last byte"
  kind := .replay
  secretSafe := false

/-- the script of a list of words, each least significant byte first -/
def ofWords (words : List UInt64) : Replay := ⟨(words.flatMap Bytes.ofWord).toArray, 0⟩

/-- the byte that repeats after the script -/
def last (script : Array UInt8) : UInt8 := script.back?.getD 0

def byteAt (script : Array UInt8) (i : Nat) : UInt8 := script.getD i (last script)

/-- the next `n` bytes: what is unread of the script, then its last byte -/
def fill (r : Replay) (n : Nat) : Reply Replay :=
  let unread := (r.script.extract r.consumed (r.consumed + n)).toList
  ⟨.ok (unread ++ List.replicate (n - unread.length) (last r.script)),
    { r with consumed := r.consumed + unread.length }, []⟩

instance : Entropy Replay where
  info _ := info
  fill := fill
  patience _ := 0
  length_of_ok {r n b} h := by
    simp only [fill] at h
    injection h with h
    subst h
    have hunread : (r.script.extract r.consumed (r.consumed + n)).toList.length ≤ n := by
      rw [Array.length_toList, Array.size_extract]
      omega
    rw [List.length_append, List.length_replicate]
    omega

theorem fill_of_le {r : Replay} {n : Nat} (h : r.consumed + n ≤ r.script.size) :
    r.fill n = ⟨.ok (r.script.extract r.consumed (r.consumed + n)).toList, { r with consumed := r.consumed + n }, []⟩ := by
  have hlen : (r.script.extract r.consumed (r.consumed + n)).toList.length = n := by
    rw [Array.length_toList, Array.size_extract]
    omega
  simp only [fill, hlen, Nat.sub_self, List.replicate_zero, List.append_nil]

theorem fill_not_interrupted (r : Replay) (n : Nat) : (r.fill n).interrupted = false := rfl

instance : Entropy.Patient Replay where
  patience_lt r n h := Bool.noConfusion ((fill_not_interrupted r n).symm.trans h)

end Replay

end Sampling
