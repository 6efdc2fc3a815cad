/-
What sources, generators and events look like in words.
-/
import Sampling.Session
import Sampling.Source.Circuit
import Sampling.Text.Quoted

namespace Sampling

def LogLine.text : LogLine → String
  | .seeded seedLength label =>
    "DEBUG deterministic source built (seed_len=" ++ toString seedLength ++ ", label=" ++ Quoted.quote label ++ ")"
  | .generatorBuilt source cacheSpare =>
    "DEBUG generator built (source=" ++ source ++ ", cache_spare=" ++ toString cacheSpare ++ ")"
  | .redrawn bound redraws =>
    "TRACE uniform_u64_below(" ++ toString bound.toNat ++ ") accepted after " ++ toString redraws.toNat ++ " redraws"
  | .sourceFailed source failure => "WARN entropy source " ++ source ++ " failed: " ++ failure.message

/-- the one-line description of a generator over a source of a given name; its strict view wraps it -/
def generatorSummary (strict : Bool) (source : String) (keepsSpare : Bool) : String :=
  let plain := "Generator \x7b source: " ++ Quoted.quote source ++ ", cache_spare: " ++ toString keepsSpare ++ ", .. \x7d"
  if strict then "Must \x7b rng: " ++ plain ++ " \x7d" else plain

namespace Session

variable {F σ : Type} [Entropy σ]

def generatorInfo? (s : Session F σ) (g : Nat) : Option SourceInfo := do
  let gen ← s.generators[g]?
  let source ← s.sources[gen.source]?
  some (Entropy.info source)

def generatorSummary? (s : Session F σ) (g : Nat) (strict : Bool) : Option String := do
  let gen ← s.generators[g]?
  let info ← s.generatorInfo? g
  some (generatorSummary strict info.name gen.keepsSpare)

end Session

end Sampling
