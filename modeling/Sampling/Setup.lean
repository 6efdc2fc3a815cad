/-
Building a session from a description.

Sources are built in order, then generators; each build may log. A generator reads one of the described sources, or the platform's
own, which then joins the sources behind the described ones. How many tries a rejection loop gets follows from the meter in
front of the source: a try that does not end the loop takes bytes or a spare deviate, so the meter runs dry first.
-/
import Sampling.Session
import Sampling.Source.Circuit

namespace Sampling

def version : String := "0.1.0"

/-- a generator still to be built; without a source it reads the platform's -/
structure GeneratorPlan where
  source : Option Nat := some 0
  keepsSpare : Bool := true
  clock : Instant := Instant.epoch
deriving Repr

/-- tries for a generator over a metered source -/
def Meter.tries (m : Meter) : Nat := m.limit + 2

/-- the meter in front of the platform's source, which no request exhausts -/
def platformMeter : Meter := { limit := UInt64.size }

/-- a source behind its meter, with the lines logged while it was built -/
def Source.build (meter : Meter) (plan : Plan) : Source × List LogLine :=
  let (circuit, log) := plan.build
  (⟨meter, circuit⟩, log)

namespace Session

variable {F : Type}

def addSource (s : Session F Source) (plan : Meter × Plan) : Session F Source :=
  let (source, log) := Source.build plan.1 plan.2
  { s with sources := s.sources.push source, log := s.log ++ log }

def addGenerator (s : Session F Source) (plan : GeneratorPlan) : Session F Source :=
  let s' : Session F Source × Nat :=
    match plan.source with
    | some i => (s, i)
    | none => (s.addSource (platformMeter, .platform), s.sources.size)
  let (s, i) := s'
  match s.sources[i]? with
  | none => s
  | some source =>
    { s with
      generators := s.generators.push
        { source := i, keepsSpare := plan.keepsSpare, clock := plan.clock, tries := source.meter.tries }
      log := s.log.push (.generatorBuilt (Entropy.info source).name plan.keepsSpare) }

/-- a session of sources and generators -/
def build (sources : List (Meter × Plan)) (generators : List GeneratorPlan) : Session F Source :=
  generators.foldl addGenerator (sources.foldl addSource { sources := #[], generators := #[] })

/-- bytes served by the first `count` sources -/
def served (s : Session F Source) (count : Nat) : List Nat := (s.sources.toList.take count).map Metered.served

end Session

end Sampling
