/-
Sessions: several generators over several sources.

Model: a session holds sources, and generators bound to one source each with their spare deviate and the Zipf tables they built.
`Session.step` answers one request and moves on; a request touches one source and one generator bound to it. Two records only
grow and are never read by a step: the lines logged, and where the tables are in the order they were built. `Session.run` answers
a list of requests, `Session.steps` one request many times.
-/
import Sampling.Call
import Sampling.Machine
import Sampling.Reader
import Sampling.Source.Relay

namespace Sampling

/-- a generator: its source's position, its spare, its settings and the tables that draw from it -/
structure Generator (F : Type) where
  source : Nat
  keepsSpare : Bool
  spare : Option F := none
  clock : Instant := Instant.epoch
  tries : Nat
  tables : Array (Zipf F) := #[]
deriving Repr

/-- where a table is: its generator and its position there -/
structure TableRef where
  generator : Nat
  index : Nat
deriving DecidableEq, Repr

/-- sources and generators, where the tables are in the order they were built, and the log -/
structure Session (F σ : Type) where
  sources : Array σ
  generators : Array (Generator F)
  built : Array TableRef := #[]
  log : Array LogLine := #[]

inductive Request (F : Type) where
  /-- carry out an operation, in the aborting layer if `strict` -/
  | call (generator : Nat) (strict : Bool) (call : Call F)
  /-- fill a buffer of `n` bytes -/
  | fill (generator n : Nat)
  /-- one read of up to `n` bytes through a generator -/
  | read (generator n : Nat)
  /-- an exact read of `n` bytes through a generator -/
  | readExact (generator n : Nat)
  /-- fill a buffer of `n` bytes from a source -/
  | fillFrom (source n : Nat)
  /-- the generator's clock -/
  | now (generator : Nat)
  /-- build a Zipf table -/
  | buildTable (generator : Nat) (s v : F) (n : Nat)
  /-- copy a Zipf table -/
  | copyTable (table : TableRef)
  /-- draw a rank from a Zipf table -/
  | drawRank (table : TableRef)
deriving Repr

inductive Ending (F : Type) where
  | value (v : Value F)
  | transferred (n : Nat)
  | table (z : Zipf F)
  | failed (e : Error F)
  | aborted (e : Error F)
  | refused (e : Failure)
  | absent
  | stuck
deriving Repr

def Ending.succeeded {F : Type} : Ending F → Bool
  | .value _ | .transferred _ | .table _ => true
  | _ => false

/-- how a request ends, the list a shuffle leaves behind, and the buffer a read leaves behind -/
structure Answer (F : Type) where
  ending : Ending F
  items : Option (List String) := none
  buffer : Option Bytes := none
deriving Repr

/-- the buffer every read starts from -/
def blankByte : UInt8 := 0x55

/-- a blank buffer of `n` bytes after its front was overwritten -/
def overlay (n : Nat) (written : Bytes) : Bytes := written ++ List.replicate (n - written.length) blankByte

namespace Session

variable {F σ : Type} [Arith F] [Entropy σ]

/-- put a source's next state in place and add its lines to the log -/
def withSource (s : Session F σ) (i : Nat) (next : σ) (lines : List LogLine) : Session F σ :=
  { s with sources := s.sources.setIfInBounds i next, log := s.log ++ lines }

def withGenerator (s : Session F σ) (g : Nat) (next : Generator F) : Session F σ :=
  { s with generators := s.generators.setIfInBounds g next }

def withTable (s : Session F σ) (g : Nat) (gen : Generator F) (z : Zipf F) : Session F σ :=
  { s.withGenerator g { gen with tables := gen.tables.push z } with built := s.built.push ⟨g, gen.tables.size⟩ }

/-- the table with a number; a number without a table gets a place where there is none -/
def tableRef (s : Session F σ) (number : Nat) : TableRef := s.built.getD number ⟨s.generators.size, 0⟩

/-- run a program on a generator: how it ended, the draws it had accepted, and the session after it -/
def perform {α : Type} (s : Session F σ) (g : Nat) (p : Generator F → Draw F α) :
    Option (Outcome F α × List (UInt64 × UInt64) × Session F σ) := do
  let gen ← s.generators[g]?
  let source ← s.sources[gen.source]?
  let m : Machine F σ := { source, keepsSpare := gen.keepsSpare, spare := gen.spare }
  let (o, m) := (p gen).run m
  some (o, m.accepted, (s.withSource gen.source m.source m.log).withGenerator g { gen with spare := m.spare })

/-- the ending of a run, in the aborting layer or not -/
def ending (strict : Bool) : Outcome F (Value F) → Ending F
  | .value v => .value v
  | .failed e => if strict then .aborted e else .failed e
  | .stuck => .stuck

/-- read a buffer through a generator: how the read ended, and the session after it -/
def throughGenerator (s : Session F σ) (g n : Nat) (read : σ → Reply σ) (failed : Failure → Ending F) :
    Answer F × Session F σ :=
  match s.generators[g]? with
  | none => ({ ending := .absent }, s)
  | some gen =>
    match s.sources[gen.source]? with
    | none => ({ ending := .absent }, s)
    | some source =>
      let r := read source
      let s := s.withSource gen.source r.next r.log
      match r.outcome with
      | .ok b => ({ ending := .transferred n, buffer := some b }, s)
      | .error e => ({ ending := failed e.failure, buffer := some (overlay n e.written) }, s)

def step (s : Session F σ) : Request F → Answer F × Session F σ
  | .call g strict c =>
    match s.perform g fun gen => c.program gen.clock gen.tries with
    | none => ({ ending := .absent }, s)
    | some (o, draws, s) =>
      ({ ending := ending (strict && c.hasStrictForm) o, items := c.leftBehind? (draws.map (·.2.toNat)) }, s)
  | .fill g n => s.throughGenerator g n (deliver · n) fun e => .failed (.source e)
  | .read g n => s.throughGenerator g n (deliver · n) .refused
  | .readExact g n =>
    s.throughGenerator g n (fun source => (readExact (Tap.mk source) n).map Tap.source) .refused
  | .fillFrom i n =>
    match s.sources[i]? with
    | none => ({ ending := .absent }, s)
    | some source =>
      let r := Entropy.fill source n
      let s := s.withSource i r.next r.log
      match r.outcome with
      | .ok b => ({ ending := .transferred n, buffer := some b }, s)
      | .error e => ({ ending := .refused e.failure, buffer := some (overlay n e.written) }, s)
  | .now g =>
    match s.generators[g]? with
    | none => ({ ending := .absent }, s)
    | some gen => ({ ending := .value (.instant gen.clock) }, s)
  | .buildTable g a v n =>
    match s.generators[g]? with
    | none => ({ ending := .absent }, s)
    | some gen =>
      match Zipf.build? a v n with
      | .error f => ({ ending := .failed (.fault f) }, s)
      | .ok z => ({ ending := .table z }, s.withTable g gen z)
  | .copyTable t =>
    match s.generators[t.generator]? with
    | none => ({ ending := .absent }, s)
    | some gen =>
      match gen.tables[t.index]? with
      | none => ({ ending := .absent }, s)
      | some z => ({ ending := .table z }, s.withTable t.generator gen z)
  | .drawRank t =>
    match (s.generators[t.generator]?).bind fun gen => gen.tables[t.index]? with
    | none => ({ ending := .absent }, s)
    | some z =>
      match s.perform t.generator fun _ => (fun rank : Nat => Value.integer rank) <$> Draw.zipfRank z with
      | none => ({ ending := .absent }, s)
      | some (o, _, s) => ({ ending := ending false o }, s)

def run (s : Session F σ) : List (Request F) → List (Answer F) × Session F σ
  | [] => ([], s)
  | r :: rest =>
    let (answer, s) := s.step r
    let (answers, s) := s.run rest
    (answer :: answers, s)

/-- answer one request `times` times, or until it fails if `stop` is set; `answers` are the earlier ones, newest first -/
def stepsFrom (s : Session F σ) (r : Request F) (stop : Bool) : (times : Nat) → List (Answer F) →
    List (Answer F) × Session F σ
  | 0, answers => (answers.reverse, s)
  | times + 1, answers =>
    let (answer, s) := s.step r
    if stop && !answer.ending.succeeded then ((answer :: answers).reverse, s)
    else s.stepsFrom r stop times (answer :: answers)

def steps (s : Session F σ) (r : Request F) (times : Nat) (stop : Bool) : List (Answer F) × Session F σ :=
  s.stepsFrom r stop times []

end Session

end Sampling
