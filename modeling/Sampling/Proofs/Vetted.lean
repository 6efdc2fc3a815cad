/-
Parameters are judged before anything is drawn.

A program is blameless if no answer of its source can bring it to a fault other than `E`. A family of programs is vetted if all of
it is one and the same parameter fault, raised at once, or all of it is blameless: whatever the members depend on (tries, the
clock) has no say in the verdict. Both say on what condition `D` deviates are asked for at all. The samplers are vetted one by
one, loops by induction on their tries, and the rules for guards, checks and sequencing carry that to every operation
(`Call.vetted`). The one fault that can come late is a result out of range, and that only from the operations with `Call.MayOverflow`.
-/
import Sampling.Proofs.Narrowing

namespace Sampling

variable {F α β ι : Type} {D : Prop} {E : Fault F → Prop}

namespace Draw

/-! ## Blameless programs -/

/-- no answer of the source leads to a fault other than `E`, and deviates are asked for only if `D` -/
def Blameless (D : Prop) (E : Fault F → Prop) (p : Draw F α) : Prop := p.Ensures D E fun _ => True

theorem blameless_done (a : α) : (done a : Draw F α).Blameless D E := .done trivial

theorem Blameless.bind {p : Draw F α} {k : α → Draw F β} (hp : p.Blameless D E) (hk : ∀ a, (k a).Blameless D E) :
    (p.bind k).Blameless D E :=
  Ensures.bind hp fun a _ => hk a

theorem Blameless.map {p : Draw F α} (hp : p.Blameless D E) (g : α → β) : (g <$> p).Blameless D E :=
  hp.bind fun a => blameless_done (g a)

theorem Blameless.each {p : α → Draw F β} {items : List α} (h : ∀ x ∈ items, (p x).Blameless D E) :
    (each p items).Blameless D E :=
  (Ensures.each h).mono (fun _ hf => hf) fun _ _ => trivial

/-! ### Loops and their parts -/

theorem blameless_word : (word : Draw F UInt64).Blameless D E := .fill fun _ _ => blameless_done _

theorem blameless_bytes (n : Nat) : (bytes n : Draw F Bytes).Blameless D E := by
  unfold bytes
  split
  · exact blameless_done _
  · exact .fill fun _ _ => blameless_done _

theorem blameless_belowFrom (n : UInt64) (tries : Nat) (redraws : UInt32) :
    (belowFrom n tries redraws : Draw F UInt64).Blameless D E := by
  induction tries generalizing redraws with
  | zero => exact .stuck
  | succ tries ih =>
    refine blameless_word.bind fun u => ?_
    split
    · exact .settled (blameless_done _)
    · exact ih (redraws + 1)

theorem blameless_indexBelow (tries : Nat) {n : Nat} (hn : 0 < n) (hE : UInt64.size ≤ n → E .outOfRange) :
    (indexBelow tries n : Draw F Nat).Blameless D E := by
  rw [indexBelow_eq]
  refine Ensures.require (fun hsize => hE (by simpa using hsize)) fun hlt => ?_
  have hlt : n < 2 ^ 64 := by simpa using hlt
  have hword : (UInt64.ofNat n != 0) = true := by
    rw [bne_iff_ne]
    intro h
    have hzero : n = 0 := by simpa [UInt64.toNat_ofNat_of_lt' hlt] using congrArg UInt64.toNat h
    omega
  refine Blameless.map ?_ _
  unfold wordBelow
  rw [hword]
  exact blameless_belowFrom _ _ _

theorem blameless_descending (tries : Nat) {n k : Nat} (h : k ≤ n) (hE : UInt64.size ≤ n → E .outOfRange) :
    (descending tries n k : Draw F (List Nat)).Blameless D E := by
  refine Blameless.each fun x hx => ?_
  obtain ⟨i, hi, rfl⟩ := List.mem_map.1 hx
  have := List.mem_range.1 hi
  exact blameless_indexBelow tries (by omega) fun hsize => hE (by omega)

theorem blameless_ofOption (a : Option α) (hE : E .outOfRange) : (ofOption a : Draw F α).Blameless D E := by
  cases a with
  | some a => exact blameless_done a
  | none => exact .fault hE

section
variable [Arith F]

theorem blameless_unit : (unit : Draw F F).Blameless D E := blameless_word.map _

theorem blameless_positiveUnit : (positiveUnit : Draw F F).Blameless D E := blameless_word.map _

theorem blameless_openUnit (tries : Nat) : (openUnit tries : Draw F F).Blameless D E := by
  induction tries with
  | zero => exact .stuck
  | succ tries ih =>
    refine blameless_unit.bind fun u => ?_
    split
    · exact blameless_done _
    · exact ih

omit [Arith F] in
theorem blameless_standardNormal (hD : D) : (standardNormal : Draw F F).Blameless D E :=
  .deviate hD fun _ => blameless_done _

theorem blameless_gammaFrom (hD : D) (d c : F) (tries : Nat) : (gammaFrom d c tries).Blameless D E := by
  induction tries with
  | zero => exact .stuck
  | succ tries ih =>
    refine (blameless_standardNormal hD).bind fun x => ?_
    dsimp only
    split
    · exact ih
    · refine blameless_unit.bind fun u => ?_
      split
      · exact blameless_done _
      · exact ih

theorem blameless_gammaUnit (hD : D) (tries : Nat) (shape : F) : (gammaUnit tries shape).Blameless D E := by
  unfold gammaUnit
  split
  · refine blameless_positiveUnit.bind fun u => ?_
    exact (blameless_gammaFrom hD _ _ tries).bind fun g => blameless_done _
  · exact blameless_gammaFrom hD _ _ tries

theorem blameless_countFactors (limit : F) (tries : Nat) (product : F) (factors : Nat) :
    (countFactors limit tries product factors).Blameless D E := by
  induction tries generalizing product factors with
  | zero =>
    unfold countFactors
    split
    · exact .stuck
    · exact blameless_done _
  | succ tries ih =>
    unfold countFactors
    split
    · exact blameless_unit.bind fun u => ih (product * u) (factors + 1)
    · exact blameless_done _

theorem blameless_poissonFrom (h : Hat F) (tries : Nat) (hE : E .outOfRange) : (poissonFrom h tries).Blameless D E := by
  induction tries with
  | zero => exact .stuck
  | succ tries ih =>
    refine blameless_unit.bind fun u => blameless_unit.bind fun v => ?_
    dsimp only
    split
    · exact Ensures.require (fun _ => hE) fun _ => blameless_done _
    · exact ih

theorem blameless_zipfRank (z : Zipf F) : (zipfRank z).Blameless D E := blameless_unit.map _

theorem blameless_keys (tries : Nat) (items : List (α × F)) : (keys tries items).Blameless D E :=
  Blameless.each fun _ _ => (blameless_openUnit tries).map _

theorem blameless_keep (p : F) (items : List α) : (keep p items).Blameless D E :=
  (Blameless.each fun _ _ => blameless_unit).map _

end

/-! ## Vetted families -/

/-- one parameter fault, raised at once by every member, or none by any -/
def Vetted (D : Prop) (E : Fault F → Prop) (P : ι → Draw F α) : Prop :=
  (∃ f : Fault F, f.isParameter = true ∧ ∀ i, P i = fault f) ∨ ∀ i, (P i).Blameless D E

theorem vetted_fault {f : Fault F} (hf : f.isParameter = true) : Vetted D E fun _ : ι => (fault f : Draw F α) :=
  Or.inl ⟨f, hf, fun _ => rfl⟩

section
variable {P P' : ι → Draw F α}

theorem Vetted.bind {k : ι → α → Draw F β} (h : Vetted D E P) (hk : ∀ i a, (k i a).Blameless D E) :
    Vetted D E fun i => (P i).bind (k i) := by
  rcases h with ⟨f, hf, hP⟩ | hP
  · exact Or.inl ⟨f, hf, fun i => congrArg (fun p => p.bind (k i)) (hP i)⟩
  · exact Or.inr fun i => (hP i).bind (hk i)

theorem Vetted.map (h : Vetted D E P) (g : α → β) : Vetted D E fun i => g <$> P i :=
  h.bind fun _ a => blameless_done (g a)

theorem Vetted.ite {c : Prop} [Decidable c] (ht : c → Vetted D E P) (he : ¬ c → Vetted D E P') :
    Vetted D E fun i => if c then P i else P' i := by
  by_cases hc : c
  · simpa only [if_pos hc] using ht hc
  · simpa only [if_neg hc] using he hc

theorem Vetted.require {ok : Bool} {f : Fault F} (hf : f.isParameter = true) (hP : ok = true → Vetted D E P) :
    Vetted D E fun i => require ok f (P i) := by
  cases ok with
  | true => exact hP rfl
  | false => exact vetted_fault hf

theorem Vetted.ofExcept {x : Except (Fault F) β} {k : ι → β → Draw F α} (hx : ∀ f, x = .error f → f.isParameter = true)
    (hk : ∀ b, Vetted D E fun i => k i b) : Vetted D E fun i => (ofExcept x).bind (k i) := by
  cases x with
  | ok b => exact hk b
  | error f => exact vetted_fault (hx f rfl)

end

/-! ### Checks of parameters -/

section
variable [Arith F] {f : Fault F}

theorem isParameter_of_total? {weights : List F} (h : Weights.total? weights = .error f) : f.isParameter = true := by
  unfold Weights.total? at h
  split at h
  · cases h
    rfl
  · split at h
    · cases h
      rfl
    · dsimp only at h
      split at h <;> cases h
      rfl

theorem isParameter_of_build? {s v : F} {n : Nat} (h : Zipf.build? s v n = .error f) : f.isParameter = true := by
  unfold Zipf.build? at h
  split at h
  · cases h
    rfl
  · dsimp only at h
    split at h <;> cases h
    rfl

end

/-! ### Samplers -/

variable (tries : ι → Nat)

theorem vetted_wordBelow (n : UInt64) : Vetted D E fun i => (wordBelow (tries i) n : Draw F UInt64) :=
  Vetted.require rfl fun _ => Or.inr fun i => blameless_belowFrom n (tries i) 0

theorem vetted_indexBelow (n : Nat) (hE : UInt64.size ≤ n → E .outOfRange) :
    Vetted D E fun i => (indexBelow (tries i) n : Draw F Nat) := by
  by_cases hsize : n < UInt64.size
  · simp only [indexBelow_of_lt hsize]
    exact (vetted_wordBelow tries _).map _
  · simp only [indexBelow_eq, require, if_neg (show ¬ decide (n < UInt64.size) = true by simpa using hsize)]
    exact Or.inr fun _ => .fault (hE (Nat.not_lt.1 hsize))

theorem vetted_signedBelow (n : Int64) : Vetted D E fun i => (signedBelow (tries i) n : Draw F Int64) :=
  Vetted.require rfl fun _ => (vetted_wordBelow tries _).map _

theorem vetted_between (min max : Int64) : Vetted D E fun i => (between (tries i) min max : Draw F Int64) :=
  Vetted.require rfl fun _ => Vetted.ite (fun _ => Or.inr fun _ => blameless_word.map _) fun _ =>
    (vetted_wordBelow tries _).map _

theorem vetted_between32 (min max : Int32) : Vetted D E fun i => (between32 (tries i) min max : Draw F Int32) := by
  simp only [between32_eq]
  exact (vetted_between tries _ _).map _

theorem vetted_betweenSize (min max : Int64) : Vetted D E fun i => (betweenSize (tries i) min max : Draw F Int64) := by
  simp only [betweenSize_eq]
  exact vetted_between tries min max

theorem vetted_pickOne (items : List α) (hE : UInt64.size ≤ items.length → E .outOfRange) :
    Vetted D E fun i => (pickOne (tries i) items : Draw F α) := by
  cases items with
  | nil => exact vetted_fault rfl
  | cons x rest => exact Or.inr fun i => (blameless_indexBelow (tries i) (Nat.succ_pos _) hE).map _

theorem vetted_shuffle (items : List α) (hE : UInt64.size ≤ items.length → E .outOfRange) :
    Vetted D E fun i => (shuffle (tries i) items : Draw F (List α)) :=
  Or.inr fun i => (blameless_descending (tries i) (Nat.sub_le _ 1) hE).bind fun _ => blameless_done _

theorem vetted_sample (items : List α) (k : Nat) (hE : UInt64.size ≤ items.length → E .outOfRange) :
    Vetted D E fun i => (sample (tries i) items k : Draw F (List α)) :=
  Vetted.require rfl fun hk => Or.inr fun i =>
    (blameless_descending (tries i) (of_decide_eq_true hk) hE).bind fun _ => blameless_done _

variable [Arith F]

theorem vetted_bernoulli (p : F) : Vetted D E fun _ : ι => bernoulli p :=
  Vetted.require rfl fun _ => Or.inr fun _ => blameless_unit.map _

theorem vetted_categorical (weights : List F) : Vetted D E fun _ : ι => categorical weights :=
  Vetted.ofExcept (fun _ => isParameter_of_total?) fun _ => Or.inr fun _ => blameless_unit.bind fun _ => blameless_done _

theorem vetted_exponential (rate : F) : Vetted D E fun _ : ι => exponential rate :=
  Vetted.require rfl fun _ => Or.inr fun _ => blameless_positiveUnit.bind fun _ => blameless_done _

theorem vetted_uniform (lo hi : F) : Vetted D E fun _ : ι => uniform lo hi :=
  Vetted.require rfl fun _ => Or.inr fun _ => blameless_unit.bind fun _ => blameless_done _

theorem vetted_normal (mean : F) {deviation : F} (hD : (deviation != 0.0) = true → D) :
    Vetted D E fun _ : ι => normal mean deviation :=
  Vetted.require rfl fun _ => Vetted.ite (fun _ => Or.inr fun _ => blameless_done _) fun hne => Or.inr fun _ =>
    (blameless_standardNormal (hD (by simpa [bne] using hne))).bind fun _ => blameless_done _

theorem vetted_clockNormal (now : ι → Instant) {deviation : F} (hD : (deviation != 0.0) = true → D) (hE : E .outOfRange) :
    Vetted D E fun i => clockNormal (now i) deviation :=
  (vetted_normal 0.0 hD).bind fun _ _ => blameless_ofOption _ hE

theorem vetted_poisson (mean : F) (hE : E .outOfRange) : Vetted D E fun i => poisson (tries i) mean :=
  Vetted.require rfl fun _ => Vetted.ite (fun _ => Or.inr fun i => blameless_countFactors _ (tries i) _ _) fun _ =>
    Or.inr fun i => blameless_poissonFrom _ (tries i) hE

theorem vetted_gamma (hD : D) (shape rate : F) : Vetted D E fun i => gamma (tries i) shape rate :=
  Vetted.require rfl fun _ => Or.inr fun i => (blameless_gammaUnit hD (tries i) shape).bind fun _ => blameless_done _

theorem vetted_zipf (s v : F) (n : Nat) : Vetted D E fun _ : ι => zipf s v n :=
  Vetted.ofExcept (fun _ => isParameter_of_build?) fun z => Or.inr fun _ => blameless_zipfRank z

theorem vetted_weightedChoice (items : List α) (weights : List F) : Vetted D E fun _ : ι => weightedChoice items weights := by
  cases items with
  | nil => exact vetted_fault rfl
  | cons x rest =>
    exact Vetted.require rfl fun _ => Vetted.ofExcept (fun _ => isParameter_of_total?) fun _ =>
      Or.inr fun _ => blameless_unit.bind fun _ => blameless_done _

theorem vetted_weightedSample (items : List α) (weights : List F) (k : Nat) :
    Vetted D E fun i => weightedSample (tries i) items weights k :=
  Vetted.require rfl fun _ => Vetted.ite (fun _ => Or.inr fun _ => blameless_done _) fun _ =>
    Vetted.ite (fun _ => vetted_fault rfl) fun _ => Vetted.ofExcept (fun _ => isParameter_of_total?) fun _ =>
      Vetted.require rfl fun _ => Or.inr fun i => (blameless_keys (tries i) _).bind fun _ => blameless_done _

theorem vetted_pickByProbability (items : List α) (p : F) : Vetted D E fun _ : ι => pickByProbability items p :=
  Vetted.require rfl fun _ => Or.inr fun _ => blameless_keep p items

end Draw

/-! ## Operations -/

/-- can an operation ask for deviates? A normal draw without deviation is its mean -/
def Call.takesDeviates [Arith F] : Call F → Bool
  | standardNormal => true
  | normal _ deviation | clockNormal deviation => deviation != 0.0
  | gamma _ _ => true
  | _ => false

/-- how many positions an operation draws from -/
def Call.positions : Call F → Nat
  | indexBelow n => n
  | shuffle items | shuffled items | pickOne items | sample items _ => items.length
  | _ => 0

/-- can an operation's result be out of range? A Poisson count and a shifted clock can, and positions that are more than the words -/
def Call.MayOverflow : Call F → Prop
  | poisson _ | clockNormal _ => True
  | c => UInt64.size ≤ c.positions

/-- the fault an operation may raise when it has drawn already -/
def Call.LateFault (c : Call F) (f : Fault F) : Prop := f = .outOfRange ∧ c.MayOverflow

open Draw in
/-- **Every operation is vetted**: its arguments alone decide which parameter fault it raises, if any, and it raises that fault
before it draws. -/
theorem Call.vetted [Arith F] (c : Call F) (now : ι → Instant) (tries : ι → Nat) :
    Vetted (c.takesDeviates = true) c.LateFault fun i => c.program (now i) (tries i) := by
  cases c with
  | bytes n => exact Or.inr fun _ => (blameless_bytes n).map _
  | word => exact Or.inr fun _ => blameless_word.map _
  | wordBelow n => exact (vetted_wordBelow tries n).map _
  | indexBelow n => exact ((vetted_indexBelow tries n fun h => ⟨rfl, h⟩).map _).map _
  | signedBelow n => exact (vetted_signedBelow tries n).map _
  | between min max => exact (vetted_between tries min max).map _
  | between32 min max => exact (vetted_between32 tries min max).map _
  | betweenSize min max => exact (vetted_betweenSize tries min max).map _
  | any32 => exact (vetted_between32 tries _ _).map _
  | any64 => exact (vetted_between tries _ _).map _
  | positive32 => exact (vetted_between32 tries _ _).map _
  | positive64 => exact (vetted_between tries _ _).map _
  | negative32 => exact (vetted_between32 tries _ _).map _
  | negative64 => exact (vetted_between tries _ _).map _
  | unit => exact Or.inr fun _ => blameless_unit.map _
  | coin => exact Or.inr fun _ => (blameless_word.map _).map _
  | bernoulli p => exact (vetted_bernoulli p).map _
  | categorical weights => exact ((vetted_categorical weights).map _).map _
  | exponential rate => exact (vetted_exponential rate).map _
  | uniform lo hi => exact (vetted_uniform lo hi).map _
  | normal mean deviation => exact (vetted_normal mean fun h => h).map _
  | standardNormal => exact Or.inr fun _ => (blameless_standardNormal rfl).map _
  | clockNormal deviation => exact (vetted_clockNormal now (fun h => h) ⟨rfl, trivial⟩).map _
  | poisson mean => exact ((vetted_poisson tries mean ⟨rfl, trivial⟩).map _).map _
  | gamma shape rate => exact (vetted_gamma tries rfl shape rate).map _
  | zipf s v n => exact ((vetted_zipf s v n).map _).map _
  | weightedChoice items weights => exact (vetted_weightedChoice items weights).map _
  | weightedSample items weights k => exact (vetted_weightedSample tries items weights k).map _
  | shuffle items => exact (vetted_shuffle tries items fun h => ⟨rfl, h⟩).map _
  | shuffled items => exact (vetted_shuffle tries items fun h => ⟨rfl, h⟩).map _
  | pickOne items => exact (vetted_pickOne tries items fun h => ⟨rfl, h⟩).map _
  | sample items k => exact (vetted_sample tries items k fun h => ⟨rfl, h⟩).map _
  | pickByProbability items p => exact (vetted_pickByProbability items p).map _

/-- an operation is a parameter fault whatever the clock and the tries, or blameless -/
theorem Call.fault_or_blameless [Arith F] (c : Call F) :
    (∃ f, f.isParameter = true ∧ ∀ now tries, c.program now tries = .fault f) ∨
      ∀ now tries, (c.program now tries).Blameless (c.takesDeviates = true) c.LateFault := by
  rcases c.vetted (fun i : Instant × Nat => i.1) (fun i => i.2) with ⟨f, hf, hP⟩ | hP
  · exact Or.inl ⟨f, hf, fun now tries => hP (now, tries)⟩
  · exact Or.inr fun now tries => hP (now, tries)

end Sampling
