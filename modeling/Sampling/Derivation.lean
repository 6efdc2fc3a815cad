/-
From a seed and a label to the keystream of a seeded source.

A seed never keys the keystream itself. A non-empty label is first folded into the seed by hashing (`foldLabel`); the key and
the stream number are then two further hashes of the result, told apart by a purpose tag. The byte strings that are hashed
(`labelInput`, `purposeInput`) are definitions of their own, so that which inputs can coincide is a question about lists.
-/
import Sampling.Sha256
import Sampling.ChaCha

namespace Sampling.Derivation

inductive Purpose where
  | key
  | nonce
deriving DecidableEq, Repr

def Purpose.tag : Purpose → Bytes
  | .key => Bytes.ofText "key"
  | .nonce => Bytes.ofText "nonce"

/-- opening of every string that is hashed for a purpose -/
def purposeHeader : Bytes := Bytes.ofText "fairdraw deterministic source "

/-- opening of every string that folds a label into a seed -/
def labelHeader : Bytes := Bytes.ofText "fairdraw deterministic source label "

/-- the string hashed for a purpose -/
def purposeInput (purpose : Purpose) (seed : Bytes) : Bytes := purposeHeader ++ purpose.tag ++ seed

/-- the string hashed to fold a label into a seed -/
def labelInput (label seed : Bytes) : Bytes := labelHeader ++ label ++ seed

/-- the seed a label selects; the empty label selects the seed itself -/
def foldLabel (seed label : Bytes) : Bytes :=
  if label.isEmpty then seed else Sha256.digest (labelInput label seed)

/-- a 32-byte value derived for a purpose -/
def derive (purpose : Purpose) (seed : Bytes) : Bytes := Sha256.digest (purposeInput purpose seed)

/-- the keystream of a seed and a label: key and stream number are derived from the folded seed -/
def keystream (seed label : Bytes) : ChaCha.Stream :=
  let folded := foldLabel seed label
  ChaCha.Stream.ofKey (derive .key folded) (Bytes.word ((derive .nonce folded).take 8))

end Sampling.Derivation
