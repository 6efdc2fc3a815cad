/-
Generators stacked on each other, to any depth, are as good as the source at the bottom.

Each level is a generator over exact reads through the generator below (`Layering.stacked`). A read through a generator is all
or nothing, so an exact read is one such read, made again while the answer is an interruption. What comes through one level is
therefore the first fill below that is not interrupted (`Settles`), with the buffer cleared if it failed (`cleared`); and since that
is no interruption, every further level passes on what it gets after one read.

`stack_transparent`: a fill through the top of a stack ends like the first uninterrupted fill of the source; and over a source that
never interrupts, requests to the top generator are answered as if it stood on the source itself.
-/
import Sampling.Arith.Binary64
import Sampling.Proofs.SessionAlike
import Sampling.Source.Circuit

namespace Sampling

variable {F σ : Type}

/-! ## Fills made again -/

/-- what a failed checked fill leaves in the buffer are zeros -/
def cleared (n : Nat) : Except Refusal Bytes → Except Refusal Bytes
  | .ok b => .ok b
  | .error e => .error ⟨List.replicate n 0, e.failure⟩

@[simp] theorem cleared_cleared (n : Nat) (o : Except Refusal Bytes) : cleared n (cleared n o) = cleared n o := by
  cases o <;> rfl

theorem interrupted_of_outcome {τ : Type} {r : Reply σ} {r' : Reply τ} {n : Nat} (h : r'.outcome = cleared n r.outcome) :
    r'.interrupted = r.interrupted := by
  unfold Reply.interrupted
  rw [h]
  cases r.outcome <;> rfl

section
variable [Entropy σ]

theorem deliver_outcome (x : σ) {n : Nat} (hn : n ≠ 0) : (deliver x n).outcome = cleared n (Entropy.fill x n).outcome := by
  unfold deliver
  rw [if_neg hn]
  cases ho : (Entropy.fill x n).outcome <;> simp [cleared, ho]

/-- the source after `k` fills of `n` bytes, however they ended -/
def refilled (x : σ) (n k : Nat) : σ := (fillAll x (List.replicate k n)).2

/-- of fills of `n` bytes made one after the other the first `k` are interrupted, the next is not -/
structure Settles (x : σ) (n k : Nat) : Prop where
  interrupted : ∀ i, i < k → (Entropy.fill (refilled x n i) n).interrupted = true
  settled : (Entropy.fill (refilled x n k) n).interrupted = false

theorem Settles.tail {x : σ} {n k : Nat} (h : Settles x n (k + 1)) : Settles (Entropy.fill x n).next n k where
  interrupted i hi := h.interrupted (i + 1) (by omega)
  settled := h.settled

theorem Settles.head {x : σ} {n k : Nat} (h : Settles x n (k + 1)) : (Entropy.fill x n).interrupted = true :=
  h.interrupted 0 (by omega)

theorem exists_settles [Entropy.Patient σ] (x : σ) (n : Nat) : ∃ k, k ≤ Entropy.patience x ∧ Settles x n k := by
  obtain ⟨p, hp⟩ : ∃ p, Entropy.patience x ≤ p := ⟨_, Nat.le_refl _⟩
  induction p generalizing x with
  | zero =>
    refine ⟨0, Nat.zero_le _, fun i hi => absurd hi (Nat.not_lt_zero i), ?_⟩
    cases hi : (Entropy.fill x n).interrupted with
    | false => exact hi
    | true =>
      have := Entropy.Patient.patience_lt x n hi
      omega
  | succ p ih =>
    cases hi : (Entropy.fill x n).interrupted with
    | false => exact ⟨0, Nat.zero_le _, fun i h => absurd h (Nat.not_lt_zero i), hi⟩
    | true =>
      have hlt := Entropy.Patient.patience_lt x n hi
      obtain ⟨k, hk, h⟩ := ih (Entropy.fill x n).next (by omega)
      refine ⟨k + 1, by omega, fun i hlt => ?_, h.settled⟩
      cases i with
      | zero => exact hi
      | succ i => exact h.interrupted i (by omega)

/-! ## One level -/

/-- reading on through a generator ends like the first fill that is not interrupted -/
theorem readPast_tap {x : σ} {n k again : Nat} (hn : n ≠ 0) (hk : k ≤ again) (h : Settles x n k) :
    (readPast again (Tap.mk x) n).outcome = cleared n (Entropy.fill (refilled x n k) n).outcome ∧
      (readPast again (Tap.mk x) n).next = Tap.mk (Entropy.fill (refilled x n k) n).next := by
  have hread : ∀ y : σ, (Reader.read (Tap.mk y) n).interrupted = (Entropy.fill y n).interrupted := by
    intro y
    rw [Tap.read_eq]
    exact deliver_interrupted y hn
  have hnext : ∀ y : σ, (Reader.read (Tap.mk y) n).next = Tap.mk (Entropy.fill y n).next :=
    fun y => congrArg Tap.mk (deliver_next y hn)
  induction k generalizing x again with
  | zero =>
    have hfirst : readPast again (Tap.mk x) n = Reader.read (Tap.mk x) n := by
      cases again with
      | zero => rfl
      | succ again =>
        have hcalm : (Reader.read (Tap.mk x) n).interrupted = false := (hread x).trans h.settled
        rw [readPast, hcalm]
        rfl
    refine ⟨?_, by rw [hfirst]; exact hnext x⟩
    rw [hfirst, Tap.read_eq]
    exact deliver_outcome x hn
  | succ k ih =>
    cases again with
    | zero => omega
    | succ again =>
      have hagain : readPast (again + 1) (Tap.mk x) n =
          (readPast again (Reader.read (Tap.mk x) n).next n).after (Reader.read (Tap.mk x) n).log := by
        rw [readPast, if_pos ((hread x).trans h.head)]
      rw [hagain, hnext]
      exact ih (by omega) h.tail

/-- **One level.** A fill through one more generator ends like the first fill below it that is not interrupted. -/
theorem fill_over {x : σ} {n k : Nat} (hn : n ≠ 0) (hk : k ≤ Entropy.patience x) (h : Settles x n k) :
    (Entropy.fill (Relay.over x) n).outcome = cleared n (Entropy.fill (refilled x n k) n).outcome ∧
      (Entropy.fill (Relay.over x) n).next = Relay.over (Entropy.fill (refilled x n k) n).next := by
  have hfill : Entropy.fill (Relay.over x) n =
      (readPast (Reader.patience (Tap.mk x)) (Tap.mk x) n).map fun t => (Locked.mk t : Relay σ) := by
    rw [← Tap.readExact_eq _ hn]
    rfl
  obtain ⟨ho, hnext⟩ := readPast_tap hn hk h
  rw [hfill]
  exact ⟨ho, congrArg Locked.mk hnext⟩

/-! ## Every level -/

def Layering.stacked (x : σ) : (depth : Nat) → (Layering.tower depth).State σ
  | 0 => x
  | depth + 1 => Relay.over (stacked x depth)

/-- **Every level.** What one level makes of the source's fills, all further levels pass on. -/
theorem fill_stacked {x : σ} {n k : Nat} (hn : n ≠ 0) (hk : k ≤ Entropy.patience x) (h : Settles x n k) (depth : Nat) :
    (Entropy.fill (Layering.stacked x (depth + 1)) n).outcome = cleared n (Entropy.fill (refilled x n k) n).outcome ∧
      (Entropy.fill (Layering.stacked x (depth + 1)) n).next =
        Layering.stacked (Entropy.fill (refilled x n k) n).next (depth + 1) := by
  induction depth with
  | zero => exact fill_over hn hk h
  | succ depth ih =>
    obtain ⟨ho, hnext⟩ := ih
    -- below this level there is a generator already, whose failures are no interruptions
    have hsettled : Settles (Layering.stacked x (depth + 1)) n 0 := by
      refine ⟨fun i hi => absurd hi (Nat.not_lt_zero i), ?_⟩
      exact (interrupted_of_outcome ho).trans h.settled
    obtain ⟨ho', hnext'⟩ := fill_over hn (Nat.zero_le _) hsettled
    refine ⟨?_, ?_⟩
    · calc (Entropy.fill (Layering.stacked x (depth + 2)) n).outcome
          = cleared n (Entropy.fill (Layering.stacked x (depth + 1)) n).outcome := ho'
        _ = cleared n (cleared n (Entropy.fill (refilled x n k) n).outcome) := by rw [ho]
        _ = cleared n (Entropy.fill (refilled x n k) n).outcome := cleared_cleared n _
    · exact hnext'.trans (congrArg Relay.over hnext)

end

/-! ## Generators on a stack -/

def Session.solo (x : σ) (gen : Generator F) : Session F σ :=
  { sources := #[x], generators := #[{ gen with source := 0 }] }

section
variable [Entropy σ]

/-- a source none of whose fills is interrupted, now or later -/
def Calm (x : σ) : Prop := ∀ y, Reaches x y → ∀ n, (Entropy.fill y n).interrupted = false

theorem Calm.next {x : σ} (h : Calm x) (n : Nat) : Calm (Entropy.fill x n).next :=
  fun y hy => h y ((Reaches.fill n .refl).trans hy)

theorem Calm.settles {x : σ} (h : Calm x) (n : Nat) : Settles x n 0 where
  interrupted i hi := absurd hi (Nat.not_lt_zero i)
  settled := h x .refl n

/-- a checked fill through a stack on a calm source ends like the source's own -/
theorem deliver_stacked {x : σ} (h : Calm x) (depth n : Nat) :
    (deliver (Layering.stacked x (depth + 1)) n).outcome = (deliver x n).outcome ∧
      (deliver (Layering.stacked x (depth + 1)) n).next = Layering.stacked (deliver x n).next (depth + 1) := by
  by_cases hn : n = 0
  · subst hn
    exact ⟨rfl, rfl⟩
  · obtain ⟨ho, hnext⟩ := fill_stacked hn (Nat.zero_le _) (h.settles n) depth
    rw [deliver_next _ hn, deliver_next x hn]
    refine ⟨?_, hnext⟩
    calc (deliver (Layering.stacked x (depth + 1)) n).outcome
        = cleared n (Entropy.fill (Layering.stacked x (depth + 1)) n).outcome := deliver_outcome _ hn
      _ = cleared n (cleared n (Entropy.fill x n).outcome) := congrArg (cleared n) ho
      _ = cleared n (Entropy.fill x n).outcome := cleared_cleared n _
      _ = (deliver x n).outcome := (deliver_outcome x hn).symm

/-- a stack with a calm source at the bottom -/
def RestsOn (depth : Nat) (y : (Layering.tower depth).State σ) (x : σ) : Prop := y = Layering.stacked x depth ∧ Calm x

theorem answerAlike_restsOn (depth : Nat) : AnswerAlike (RestsOn (σ := σ) (depth + 1)) where
  outcome := by
    rintro _ x ⟨rfl, hx⟩ n
    exact (deliver_stacked hx depth n).1
  next := by
    rintro _ x ⟨rfl, hx⟩ n
    refine ⟨(deliver_stacked hx depth n).2, ?_⟩
    by_cases hn : n = 0
    · subst hn
      exact hx
    · rw [deliver_next x hn]
      exact hx.next n

theorem undisturbed_restsOn (depth : Nat) : Undisturbed (RestsOn (σ := σ) (depth + 1)) where
  first := by
    rintro _ x ⟨rfl, hx⟩ n
    have ho := (deliver_stacked hx depth n).1
    calc (deliver (Layering.stacked x (depth + 1)) n).interrupted
        = (deliver x n).interrupted := by unfold Reply.interrupted; rw [ho]
      _ = false := deliver_not_interrupted (hx x .refl n)
  second h n := deliver_not_interrupted (h.2 _ .refl n)

namespace Session

variable [Arith F]

omit [Entropy σ] [Arith F] in
theorem singleton_of_rel {τ : Type} {R : σ → τ → Prop} {x : σ} {ys : Array τ} (h : ∀ i : Nat, Option.Rel R #[x][i]? ys[i]?) :
    ∃ y, ys = #[y] ∧ R x y := by
  have hfirst := h 0
  have hsecond := h 1
  generalize hy : ys[0]? = y at hfirst
  generalize hz : ys[1]? = z at hsecond
  cases hfirst with
  | @some _ y hxy =>
    cases hsecond
    obtain ⟨hlt, hget⟩ := Array.getElem?_eq_some_iff.1 hy
    have hle : ys.size ≤ 1 := Array.getElem?_eq_none_iff.1 hz
    refine ⟨y, ?_, hxy⟩
    refine Array.ext (by simp; omega) fun i hi hi' => ?_
    obtain rfl : i = 0 := by omega
    exact hget

theorem step_fill_solo (x : σ) (gen : Generator F) (n : Nat) :
    ((solo x gen).step (.fill 0 n)).1 =
        (match (deliver x n).outcome with
        | .ok b => { ending := .transferred n, buffer := some b }
        | .error e => { ending := .failed (.source e.failure), buffer := some (overlay n e.written) }) ∧
      ((solo x gen).step (.fill 0 n)).2.sources = #[(deliver x n).next] := by
  have hg : (solo x gen).generators[0]? = some { gen with source := 0 } := rfl
  have hs : (solo x gen).sources[0]? = some x := rfl
  have hstep : (solo x gen).step (.fill 0 n) =
      (solo x gen).throughGenerator 0 n (deliver · n) fun e => .failed (.source e) := rfl
  rw [hstep, throughGenerator_eq hg hs]
  exact ⟨rfl, rfl⟩

/-- **Stacked generators are transparent.** A stack of any depth stands on any source, which may fail as it likes.
- Of fills of one length made one after the other on the source, some first one is not interrupted, if interruptions in a row are
  finitely many.
- A fill of that length through the top generator has the source make the fills up to that one and no more. If it was granted, its
  bytes are in the caller's buffer; if it failed, the same failure comes out, wrapped once, and the buffer is all zeros.
- Over a source that is never interrupted, any requests are answered as by the same generator on the source itself. They leave
  the same spare, and the source below the stack where they leave the source itself. -/
theorem stack_transparent (x : σ) (depth : Nat) (gen : Generator F) :
    (Entropy.Patient σ → ∀ n, ∃ k, k ≤ Entropy.patience x ∧ Settles x n k) ∧
    (∀ n k, n ≠ 0 → k ≤ Entropy.patience x → Settles x n k →
      let first := Entropy.fill (refilled x n k) n
      let top := (solo (Layering.stacked x (depth + 1)) gen).step (.fill 0 n)
      (∀ b, first.outcome = .ok b → top.1 = { ending := .transferred n, buffer := some b }) ∧
      (∀ e, first.outcome = .error e →
        top.1 = { ending := .failed (.source e.failure), buffer := some (List.replicate n 0) }) ∧
      top.2.sources = #[Layering.stacked first.next (depth + 1)]) ∧
    (Calm x → ∀ rs : List (Request F), (∀ r ∈ rs, r.ofGenerator = true) →
      let top := (solo (Layering.stacked x (depth + 1)) gen).run rs
      let direct := (solo x gen).run rs
      top.1 = direct.1 ∧ top.2.generators = direct.2.generators ∧
        ∃ y, direct.2.sources = #[y] ∧ top.2.sources = #[Layering.stacked y (depth + 1)]) := by
  refine ⟨?_, ?_, ?_⟩
  · intro _ n
    exact exists_settles x n
  · intro n k hn hk h
    obtain ⟨ho, hnext⟩ := fill_stacked hn hk h depth
    obtain ⟨hanswer, hsources⟩ := step_fill_solo (Layering.stacked x (depth + 1)) gen n
    rw [deliver_outcome _ hn, ho, cleared_cleared] at hanswer
    rw [deliver_next _ hn, hnext] at hsources
    refine ⟨?_, ?_, hsources⟩
    · intro b hb
      rw [hb] at hanswer
      exact hanswer
    · intro e he
      have hzeros : overlay n (List.replicate n 0) = List.replicate n 0 := by simp [overlay]
      rw [he] at hanswer
      rw [← hzeros]
      exact hanswer
  · intro hcalm rs hrs
    have halike : (solo (Layering.stacked x (depth + 1)) gen).Alike (RestsOn (depth + 1)) (solo x gen) := by
      refine ⟨rfl, ?_⟩
      intro i
      cases i with
      | zero => exact .some ⟨rfl, hcalm⟩
      | succ i => exact .none
    obtain ⟨hanswers, hend⟩ :=
      halike.run (answerAlike_restsOn depth).within (undisturbed_restsOn depth) hrs fun _ _ _ => trivial
    -- what requests leave of the one source below is one source, and the stack stands on it
    have hsource := hend.symm.sources
    obtain ⟨y, hy, -⟩ := singleton_of_rel ((solo x gen).moves_run rs)
    rw [hy] at hsource
    obtain ⟨_, hz, rfl, -⟩ := singleton_of_rel hsource
    exact ⟨hanswers, hend.generators, y, hy, hz⟩

/-- three generators over a source that is interrupted twice, and over one that ends for good -/
theorem stack_transparent_interrupted :
    let gen : Generator Float := { source := 0, keepsSpare := true, tries := 3 }
    let x : Metered Replay := ⟨{ failCalls := [0, 1], failure := ⟨.interrupted, "signal"⟩ }, ⟨#[1, 2, 3, 4], 0⟩⟩
    let z : Locked Script := ⟨[.chunk (List.replicate 11 7), .failure ⟨.brokenPipe, "source unplugged"⟩]⟩
    let rs : List (Request Float) := [.call 0 false (.wordBelow 10), .readExact 0 3, .fill 0 4]
    Settles x 4 2 ∧
      ((solo (Layering.stacked x 3) gen).step (.fill 0 4)).1 = { ending := .transferred 4, buffer := some [1, 2, 3, 4] } ∧
      ((solo (Layering.stacked z 3) gen).run rs).1 = ((solo z gen).run rs).1 := by
  intro gen x z rs
  have hsettles : Settles x 4 2 := ⟨by decide +kernel, by decide +kernel⟩
  have hpatience : 2 ≤ Entropy.patience x := by decide +kernel
  have hcalm : Calm z := fun y _ n => readExact_not_interrupted y.reader n
  have hrs : ∀ r ∈ rs, r.ofGenerator = true := by decide
  obtain ⟨-, hfill, -⟩ := stack_transparent x 2 gen
  obtain ⟨-, -, hrun⟩ := stack_transparent z 2 gen
  refine ⟨hsettles, ?_, (hrun hcalm rs hrs).1⟩
  exact (hfill 4 2 (by decide) hpatience hsettles).1 [1, 2, 3, 4] rfl

end Session

end

end Sampling
