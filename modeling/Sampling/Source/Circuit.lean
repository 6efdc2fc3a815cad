/-
Every kind of source as one type.

`Device` sums the sources that stand on their own. A `Layering` says what is stacked on a device, meters and relays in any order;
its states are the states of those layers, and it is a source at every shape. A `Circuit` is a device with its layers, and the
`Source` a session holds is a circuit behind a meter. `Plan` describes a source still to be built; building one may log lines.
-/
import Sampling.Source.Metered
import Sampling.Source.Relay
import Sampling.Source.Replay
import Sampling.Source.Seeded

namespace Sampling

/-! ## Devices -/

/-- a source that stands on its own -/
inductive Device where
  | platform (p : Platform)
  | seeded (k : Keystream)
  | replay (r : Replay)
  | cursor (c : Cursor)
  | script (s : Locked Script)

namespace Device

def info : Device → SourceInfo
  | platform p => Entropy.info p
  | seeded k => Entropy.info k
  | replay r => Entropy.info r
  | cursor c => Entropy.info c
  | script s => Entropy.info s

def fill : Device → Nat → Reply Device
  | platform p, n => (Entropy.fill p n).map platform
  | seeded k, n => (Entropy.fill k n).map seeded
  | replay r, n => (Entropy.fill r n).map replay
  | cursor c, n => (Entropy.fill c n).map cursor
  | script s, n => (Entropy.fill s n).map script

def patience : Device → Nat
  | platform p => Entropy.patience p
  | seeded k => Entropy.patience k
  | replay r => Entropy.patience r
  | cursor c => Entropy.patience c
  | script s => Entropy.patience s

instance : Entropy Device where
  info := info
  fill := fill
  patience := patience
  length_of_ok {d n b} h := by
    cases d <;> exact Entropy.length_of_ok (n := n) (b := b) h

instance : Entropy.Patient Device where
  patience_lt d n h := by
    cases d with
    | platform p => exact Entropy.Patient.patience_lt p n h
    | seeded k => exact Entropy.Patient.patience_lt k n h
    | replay r => exact Entropy.Patient.patience_lt r n h
    | cursor c => exact Entropy.Patient.patience_lt c n h
    | script s => exact Entropy.Patient.patience_lt s n h

/-- the one-line description of a device; a replay shows how far it has come -/
def summary : Device → String
  | platform _ => "OsSource"
  | seeded _ => "DeterministicSource \x7b .. \x7d"
  | replay r => "ReplaySource \x7b len: " ++ toString r.script.size ++ ", consumed: " ++ toString r.consumed ++ " \x7d"
  | cursor _ => "LockedSource \x7b .. \x7d"
  | script _ => "LockedSource \x7b .. \x7d"

end Device

/-! ## Layers -/

/-- what is stacked on a source, innermost last -/
inductive Layering where
  | bare
  | metered (inner : Layering)
  | relayed (inner : Layering)
deriving DecidableEq, Repr

namespace Layering

/-- the states of a stack over sources of type `β` -/
def State (β : Type) : Layering → Type
  | bare => β
  | metered inner => Metered (inner.State β)
  | relayed inner => Relay (inner.State β)

/-- a stack over sources is a source -/
instance entropy {β : Type} [Entropy β] : (l : Layering) → Entropy (l.State β)
  | bare => inferInstanceAs (Entropy β)
  | metered inner =>
    have : Entropy (inner.State β) := entropy inner
    inferInstanceAs (Entropy (Metered (inner.State β)))
  | relayed inner =>
    have : Entropy (inner.State β) := entropy inner
    inferInstanceAs (Entropy (Relay (inner.State β)))

/-- a stack over patient sources is patient -/
instance patient {β : Type} [Entropy β] [Entropy.Patient β] : (l : Layering) → Entropy.Patient (l.State β)
  | bare => inferInstanceAs (Entropy.Patient β)
  | metered inner =>
    have : Entropy.Patient (inner.State β) := patient inner
    inferInstanceAs (Entropy.Patient (Metered (inner.State β)))
  | relayed inner =>
    have : Entropy.Patient (inner.State β) := patient inner
    inferInstanceAs (Entropy.Patient (Relay (inner.State β)))

/-- a stack of `depth` generators, each reading through the one below -/
def tower : Nat → Layering
  | 0 => bare
  | depth + 1 => relayed (tower depth)

end Layering

/-! ## Circuits -/

/-- a device with its layers -/
structure Circuit where
  layering : Layering
  state : layering.State Device

namespace Circuit

/-- the layers keep their shape from fill to fill -/
def fill (c : Circuit) (n : Nat) : Reply Circuit :=
  (Entropy.fill c.state n).map (⟨c.layering, ·⟩)

instance : Entropy Circuit where
  info c := Entropy.info c.state
  fill := fill
  patience c := Entropy.patience c.state
  length_of_ok {c n b} h := Entropy.length_of_ok (s := c.state) (n := n) (b := b) h

instance : Entropy.Patient Circuit where
  patience_lt c n h := Entropy.Patient.patience_lt c.state n h

/-- the device itself, if nothing is stacked on it -/
def device? : Circuit → Option Device
  | ⟨.bare, d⟩ => some d
  | _ => none

/-- the one-line description: a stack shows its outermost layer only -/
def summary (c : Circuit) : String :=
  match c.device? with
  | some d => d.summary
  | none => "LockedSource \x7b .. \x7d"

end Circuit

/-- a circuit behind the meter a session reads it through -/
abbrev Source := Metered Circuit

/-! ## Building -/

/-- a source still to be built -/
inductive Plan where
  | platform
  | seeded (seed : Bytes) (label : String)
  | replay (script : Bytes)
  | words (script : List UInt64)
  | cursor (contents : Bytes)
  | script (entries : Script)
  | relayed (meter : Meter) (inner : Plan)

namespace Plan

/-- build the source, with the lines logged on the way; a relay builds the generator it reads through -/
def build : Plan → Circuit × List LogLine
  | .platform => (⟨.bare, .platform .standIn⟩, [])
  | .seeded seed label =>
    (⟨.bare, .seeded (Keystream.ofSeed seed (Bytes.ofText label))⟩, [.seeded seed.length label])
  | .replay bytes => (⟨.bare, .replay ⟨bytes.toArray, 0⟩⟩, [])
  | .words ws => (⟨.bare, .replay (Replay.ofWords ws)⟩, [])
  | .cursor bytes => (⟨.bare, .cursor ⟨bytes.toArray, 0⟩⟩, [])
  | .script entries => (⟨.bare, .script ⟨entries⟩⟩, [])
  | .relayed meter inner =>
    let (c, log) := inner.build
    let state : Layering.State Device (.relayed (.metered c.layering)) := Relay.over ⟨meter, c.state⟩
    (⟨_, state⟩, log ++ [.generatorBuilt (Entropy.info c).name true])

end Plan

end Sampling
