/-
Sources that never refuse: the seeded keystream and the platform's generator.

A seeded source is a keystream reader; a seed and a label fix every byte. The platform's source is an unknown supply of bytes:
the model carries it as a function from positions to bytes and says nothing about its values. Where a run needs one and its
answer depends on none of its bytes, `Platform.standIn` serves: its words are accepted by every bounded draw, since they are
below half of the range, and its unit numbers lie strictly between zero and one.
-/
import Sampling.Derivation
import Sampling.Keystream
import Sampling.Entropy

namespace Sampling

namespace Keystream

def info : SourceInfo where
  name := "deterministic"
  description := "ChaCha20 keystream keyed by SHA-256 of seed and label"
  kind := .deterministic
  secretSafe := false

/-- the source of a seed and a label, at its first byte -/
def ofSeed (seed label : Bytes) : Keystream := { stream := Derivation.keystream seed label }

def fill (k : Keystream) (n : Nat) : Reply Keystream :=
  let r := k.read n
  ⟨.ok r.1, r.2, []⟩

instance : Entropy Keystream where
  info _ := info
  fill := fill
  patience _ := 0
  length_of_ok {k n b} h := by
    injection h with h
    subst h
    exact length_read k n

instance : Entropy.Patient Keystream where
  patience_lt _ _ h := (Bool.false_ne_true h).elim

end Keystream

/-- the platform's supply of bytes, and how many have been taken -/
structure Platform where
  supply : Nat → UInt8
  taken : Nat := 0

namespace Platform

/-- a supply that no rejection loop refuses -/
def standIn : Platform where
  supply _ := 0x55

def info : SourceInfo where
  name := "os"
  description := "Platform CSPRNG via the getrandom crate"
  kind := .os
  secretSafe := true

def fill (p : Platform) (n : Nat) : Reply Platform :=
  ⟨.ok ((List.range' p.taken n).map p.supply), { p with taken := p.taken + n }, []⟩

instance : Entropy Platform where
  info _ := info
  fill := fill
  patience _ := 0
  length_of_ok {p n b} h := by
    injection h with h
    subst h
    simp

instance : Entropy.Patient Platform where
  patience_lt _ _ h := (Bool.false_ne_true h).elim

end Platform

end Sampling
