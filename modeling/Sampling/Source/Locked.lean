/-
Sources over readers.

`Locked ρ` turns a reader into a source whose fills are exact reads, so it is never interrupted. `Script` is a reader that
answers from a list of chunks and failures; `Cursor` is a byte string read in place, which refuses a request for more than it
has left at once, using up the rest and writing nothing.
-/
import Sampling.Reader

namespace Sampling

def lockedInfo : SourceInfo where
  name := "locked"
  description := "Mutex-serialized std::io::Read"
  kind := .locked
  secretSafe := false

/-- a reader behind exact reads -/
structure Locked (ρ : Type) where
  reader : ρ
deriving DecidableEq, Repr

namespace Locked

/-- a fill is one exact read -/
def fill {ρ : Type} [Reader ρ] (s : Locked ρ) (n : Nat) : Reply (Locked ρ) :=
  let r := readExact s.reader n
  ⟨r.outcome, ⟨r.next⟩, r.log⟩

instance {ρ : Type} [Reader ρ] : Entropy (Locked ρ) where
  info _ := lockedInfo
  fill := fill
  patience _ := 0
  length_of_ok {s n _} h := length_readExact (r := s.reader) (n := n) h

instance {ρ : Type} [Reader ρ] [Reader.Patient ρ] : Entropy.Patient (Locked ρ) where
  patience_lt s n h := Bool.noConfusion ((readExact_not_interrupted s.reader n).symm.trans h)

end Locked

/-! ## Scripts -/

/-- one entry of a script: bytes to hand out, or a failure to report once -/
inductive ScriptEntry where
  | chunk (bytes : Bytes)
  | failure (failure : Failure)
deriving DecidableEq, Repr

/-- a reader that answers from a list of entries -/
abbrev Script := List ScriptEntry

namespace Script

def isInterruption : ScriptEntry → Bool
  | .chunk _ => false
  | .failure e => e.transient

/-- one read: the front of the next chunk, whose rest stays; a failure, once; nothing after the end -/
def read : Script → Nat → Reply Script
  | [], _ => ⟨.ok [], [], []⟩
  | .failure e :: rest, _ => ⟨.error ⟨[], e⟩, rest, []⟩
  | .chunk b :: rest, n => ⟨.ok (b.take n), if b.length ≤ n then rest else .chunk (b.drop n) :: rest, []⟩

def bytes (s : Script) : Bytes :=
  s.flatMap fun
    | .chunk b => b
    | .failure _ => []

instance : Reader Script where
  read := read
  patience s := s.countP isInterruption
  length_le {s n b} h := by
    cases s with
    | nil => simp [read] at h; subst h; exact Nat.zero_le n
    | cons e rest =>
      cases e with
      | failure e => simp [read] at h
      | chunk c => simp [read] at h; subst h; exact List.length_take_le n c

theorem interruptions_lt (s : Script) (n : Nat) (h : (read s n).interrupted = true) :
    (read s n).next.countP isInterruption < s.countP isInterruption := by
  cases s with
  | nil => simp [read, Reply.interrupted] at h
  | cons e rest =>
    cases e with
    | failure e =>
      simp [read, Reply.interrupted] at h
      simp [read, isInterruption, h]
    | chunk c => simp [read, Reply.interrupted] at h

instance : Reader.Patient Script where
  patience_lt := interruptions_lt

end Script

/-! ## Cursors -/

/-- a byte string and how much of it has been read -/
structure Cursor where
  contents : Array UInt8
  position : Nat := 0
deriving DecidableEq, Repr

namespace Cursor

/-- hand out the next `n` bytes, or use up what is left and write nothing -/
def fill (c : Cursor) (n : Nat) : Reply Cursor :=
  if c.position + n ≤ c.contents.size then
    ⟨.ok (c.contents.extract c.position (c.position + n)).toList, { c with position := c.position + n }, []⟩
  else ⟨.error ⟨[], .endOfInput⟩, { c with position := c.contents.size }, []⟩

instance : Entropy Cursor where
  info _ := lockedInfo
  fill := fill
  patience _ := 0
  length_of_ok {c n b} h := by
    simp only [fill] at h
    split at h
    · injection h with h; subst h; simp; omega
    · cases h

theorem fill_of_le {c : Cursor} {n : Nat} (h : c.position + n ≤ c.contents.size) :
    c.fill n = ⟨.ok (c.contents.extract c.position (c.position + n)).toList, { c with position := c.position + n }, []⟩ :=
  if_pos h

theorem fill_not_interrupted (c : Cursor) (n : Nat) : (c.fill n).interrupted = false := by
  unfold fill
  split <;> rfl

instance : Entropy.Patient Cursor where
  patience_lt c n h := Bool.noConfusion ((fill_not_interrupted c n).symm.trans h)

end Cursor

end Sampling
