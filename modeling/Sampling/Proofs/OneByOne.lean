/-
Programs run one after the other.

`OneByOne p m xs ys m'`: the programs of the items `xs`, run in this order from the machine `m`, end with the values `ys` and leave the
machine `m'`. A run of one program per item gets through all of them, or ends with the first that has no value
(`run_each_cases`). For bounded draws this says which bounds are asked for, which numbers come out, and that the numbers are what
the machine's record of accepted draws gains (`OneByOne.drawn`).
-/
import Sampling.Collection
import Sampling.Proofs.Unbiased

namespace Sampling

variable {F σ α β γ : Type}

/-! ## Runs without a value -/

/-- a run that ends without a value, and a longer one that ends with it -/
inductive BreaksOff : Outcome F α × Machine F σ → Outcome F β × Machine F σ → Prop where
  | failed (e : Error F) (m : Machine F σ) : BreaksOff (.failed e, m) (.failed e, m)
  | stuck (m : Machine F σ) : BreaksOff (.stuck, m) (.stuck, m)

theorem BreaksOff.trans {r : Outcome F α × Machine F σ} {r' : Outcome F β × Machine F σ} {r'' : Outcome F γ × Machine F σ}
    (h : BreaksOff r r') (h' : BreaksOff r' r'') : BreaksOff r r'' := by
  cases h with
  | failed e m => cases h'; exact .failed e m
  | stuck m => cases h'; exact .stuck m

theorem BreaksOff.ne_value {r : Outcome F α × Machine F σ} {r' : Outcome F β × Machine F σ} (h : BreaksOff r r') (b : β) :
    r'.1 ≠ .value b := by
  intro hb
  cases h <;> cases hb

theorem BreaksOff.ne_value_first {r : Outcome F α × Machine F σ} {r' : Outcome F β × Machine F σ} (h : BreaksOff r r') (a : α) :
    r.1 ≠ .value a := by
  intro ha
  cases h <;> cases ha

theorem BreaksOff.machine_eq {r : Outcome F α × Machine F σ} {r' : Outcome F β × Machine F σ} (h : BreaksOff r r') :
    r'.2 = r.2 := by
  cases h <;> rfl

section
variable [Entropy σ] [Arith F]

/-- a sequence goes on from the first program's value, or breaks off with the first program -/
theorem Draw.run_bind_cases (p : Draw F α) (k : α → Draw F β) (m : Machine F σ) :
    (∃ a m₁, p.run m = (.value a, m₁) ∧ (p.bind k).run m = (k a).run m₁) ∨ BreaksOff (p.run m) ((p.bind k).run m) := by
  rw [Draw.run_bind]
  rcases p.run m with ⟨a | e | _, m₁⟩
  · exact Or.inl ⟨a, m₁, rfl, rfl⟩
  · exact Or.inr (.failed e m₁)
  · exact Or.inr (.stuck m₁)

namespace Draw

/-! ## One program after the other -/

/-- the programs of the items, one after the other, end with these values and lead from the first machine to the last -/
inductive OneByOne (p : α → Draw F β) : Machine F σ → List α → List β → Machine F σ → Prop where
  | nil (m : Machine F σ) : OneByOne p m [] [] m
  | cons {m m₁ m' : Machine F σ} {x : α} {y : β} {xs : List α} {ys : List β} (first : (p x).run m = (.value y, m₁))
    (rest : OneByOne p m₁ xs ys m') : OneByOne p m (x :: xs) (y :: ys) m'

variable {p : α → Draw F β} {xs xs' : List α} {ys zs : List β} {m m' : Machine F σ}

theorem OneByOne.split (h : OneByOne p m (xs ++ xs') zs m') :
    ∃ ys ys' m₁, zs = ys ++ ys' ∧ OneByOne p m xs ys m₁ ∧ OneByOne p m₁ xs' ys' m' := by
  induction xs generalizing m zs with
  | nil => exact ⟨[], zs, m, rfl, .nil m, h⟩
  | cons x xs ih =>
    cases h with
    | cons first rest =>
      obtain ⟨ys, ys', m₁, rfl, hxs, hxs'⟩ := ih rest
      exact ⟨_ :: ys, ys', m₁, rfl, .cons first hxs, hxs'⟩

theorem OneByOne.length_eq (h : OneByOne p m xs ys m') : ys.length = xs.length := by
  induction h with
  | nil m => rfl
  | cons first rest ih => rw [List.length_cons, List.length_cons, ih]

theorem OneByOne.forall₂ {D : Prop} {E : Fault F → Prop} {Q : α → β → Prop} (hp : ∀ x ∈ xs, (p x).Ensures D E (Q x))
    (h : OneByOne p m xs ys m') : List.Forall₂ Q xs ys := by
  induction h with
  | nil m => exact .nil
  | @cons m m₁ m' x y xs ys first rest ih =>
    have hy := run_ensures (hp x List.mem_cons_self) m
    rw [first] at hy
    exact .cons hy (ih fun x hx => hp x (List.mem_cons_of_mem _ hx))

theorem OneByOne.run_each (h : OneByOne p m xs ys m') : (each p xs).run m = (.value ys, m') := by
  induction h with
  | nil m => rfl
  | cons first rest ih =>
    rw [each_cons, run_bind, first]
    dsimp only
    rw [run_bind, ih]
    rfl

/-- **One program for every item.** A run gets through all of them in turn, or up to one that breaks off. -/
theorem run_each_cases (p : α → Draw F β) (xs : List α) (m : Machine F σ) :
    (∃ ys m', OneByOne p m xs ys m' ∧ (each p xs).run m = (.value ys, m')) ∨
      ∃ k, ∃ hk : k < xs.length, ∃ ys m₁, OneByOne p m (xs.take k) ys m₁ ∧ BreaksOff ((p xs[k]).run m₁) ((each p xs).run m) := by
  induction xs generalizing m with
  | nil => exact Or.inl ⟨[], m, .nil m, rfl⟩
  | cons x xs ih =>
    rw [each_cons]
    rcases run_bind_cases (p x) (fun y => (each p xs).bind fun ys => done (y :: ys)) m with ⟨y, m₁, hx, hrun⟩ | hbreak
    · rw [hrun]
      rcases ih m₁ with ⟨ys, m', hall, heach⟩ | ⟨k, hk, ys, m₂, hsome, hbreak⟩
      · refine Or.inl ⟨y :: ys, m', .cons hx hall, ?_⟩
        rw [run_bind, heach]
        rfl
      · refine Or.inr ⟨k + 1, Nat.succ_lt_succ hk, y :: ys, m₂, .cons hx hsome, hbreak.trans ?_⟩
        rcases run_bind_cases (each p xs) (fun ys => done (y :: ys)) m₁ with ⟨zs, m₃, heach, -⟩ | h
        · exact absurd (congrArg Prod.fst heach) (hbreak.ne_value zs)
        · exact h
    · exact Or.inr ⟨0, Nat.succ_pos _, [], m, .nil m, hbreak⟩

end Draw

end

/-! ## Bounded draws in turn -/

/-- the numbers drawn so far, oldest first -/
def Machine.drawn (m : Machine F σ) : List Nat := m.accepted.map (·.2.toNat)

def Outcome.value? : Outcome F α → Option α
  | .value a => some a
  | _ => none

section
variable [Entropy σ]

theorem Machine.drawn_fill (m : Machine F σ) (n : Nat) : (m.fill n).2.drawn = m.drawn := by
  by_cases hn : n = 0
  · subst hn
    rfl
  · unfold drawn
    cases ho : (deliver m.source n).outcome with
    | ok b =>
      rw [fill_of_ok hn ho, accepted_record, settled_logged_append]
      exact congrArg _ (List.append_nil _)
    | error e =>
      rw [fill_of_error hn ho, accepted_record, settled_logged_append]
      exact congrArg _ (List.append_nil _)

omit [Entropy σ] in
theorem Machine.drawn_settled (m : Machine F σ) (bound value : UInt64) (redraws : UInt32) :
    (m.record [.settled bound value redraws]).drawn = m.drawn ++ [value.toNat] := by
  unfold drawn
  rw [accepted_record, List.map_append]
  rfl

variable [Arith F]

namespace Draw

theorem drawn_run_belowFrom (n : UInt64) (tries : Nat) (redraws : UInt32) (m : Machine F σ) :
    ((belowFrom n tries redraws).run m).2.drawn =
      m.drawn ++ (((belowFrom n tries redraws).run m).1.value?.map UInt64.toNat).toList := by
  induction tries generalizing m redraws with
  | zero => exact (List.append_nil _).symm
  | succ tries ih =>
    have hfill := m.drawn_fill 8
    rw [belowFrom_succ, word, bind, run]
    rcases hf : m.fill 8 with ⟨e | b, m₁⟩ <;> rw [hf] at hfill <;> rw [← hfill]
    · exact (List.append_nil _).symm
    · dsimp only
      rw [done_bind]
      split
      · exact m₁.drawn_settled n (b.word % n) redraws
      · exact ih (redraws + 1) m₁

theorem drawn_run_indexBelow (tries n : Nat) (m : Machine F σ) :
    ((indexBelow tries n).run m).2.drawn = m.drawn ++ ((indexBelow tries n).run m).1.value?.toList := by
  rw [indexBelow_eq]
  unfold wordBelow require
  split
  · split
    · have hdrawn := drawn_run_belowFrom (F := F) (UInt64.ofNat n) tries 0 m
      rw [map_eq, run_bind]
      rcases hrun : (belowFrom (UInt64.ofNat n) tries 0 : Draw F UInt64).run m with ⟨v | e | _, m'⟩ <;> rw [hrun] at hdrawn <;>
        exact hdrawn
    · exact (List.append_nil _).symm
  · exact (List.append_nil _).symm

omit [Entropy σ] [Arith F] in
theorem ensures_indexBelow (tries n : Nat) : (indexBelow tries n : Draw F Nat).Ensures False (fun _ => True) (· < n) := by
  rw [indexBelow_eq]
  refine Ensures.require (fun _ => trivial) fun hlt => ?_
  have hsize : n < UInt64.size := of_decide_eq_true hlt
  have htoNat : (UInt64.ofNat n).toNat = n := UInt64.toNat_ofNat_of_lt' hsize
  refine Ensures.map (Q := (· < UInt64.ofNat n)) (Ensures.require (fun _ => trivial) fun hne => ?_) fun v hv => ?_
  · exact (ensures_belowFrom (bne_iff_ne.1 hne) tries 0).mono (fun _ h => h.elim) fun _ h => h
  · rw [UInt64.lt_iff_toNat_lt, htoNat] at hv
    exact hv

variable {tries : Nat} {ns vs : List Nat} {m m' : Machine F σ}

theorem OneByOne.drawn (h : OneByOne (indexBelow tries) m ns vs m') : m'.drawn = m.drawn ++ vs := by
  induction h with
  | nil m => exact (List.append_nil _).symm
  | @cons m m₁ m' n v ns vs first rest ih =>
    have hfirst := drawn_run_indexBelow tries n m
    rw [first] at hfirst
    rw [ih, hfirst]
    exact List.append_assoc _ [v] vs

theorem OneByOne.lt (h : OneByOne (indexBelow tries) m ns vs m') : List.Forall₂ (· < ·) vs ns :=
  (h.forall₂ fun n _ => ensures_indexBelow tries n).flip

end Draw

theorem BreaksOff.drawn {tries n : Nat} {m : Machine F σ} {r : Outcome F β × Machine F σ}
    (h : BreaksOff ((Draw.indexBelow tries n).run m) r) : r.2.drawn = m.drawn := by
  have hdrawn := Draw.drawn_run_indexBelow tries n m
  rw [h.machine_eq, hdrawn]
  generalize (Draw.indexBelow tries n : Draw F Nat).run m = q at h ⊢
  cases h <;> exact List.append_nil _

end

/-! ## Bounded draws from given words -/

/-- words that settle draws below the bounds at the numbers: for every bound, words to redraw and then one that is accepted -/
inductive Spelled : (bounds : List Nat) → (words : List UInt64) → (numbers : List Nat) → Prop where
  | nil : Spelled [] [] []
  | cons {n : Nat} {rejected : List UInt64} {w : UInt64} {ns vs : List Nat} {ws : List UInt64} (hpos : 0 < n)
    (hsize : n < UInt64.size) (hrejected : ∀ u ∈ rejected, acceptLimit (UInt64.ofNat n) ≤ u)
    (hw : w < acceptLimit (UInt64.ofNat n)) (rest : Spelled ns ws vs) :
    Spelled (n :: ns) (rejected ++ [w] ++ ws) (w.toNat % n :: vs)

/-- a positive bound that fits a word is not rounded to zero -/
theorem ofNat_ne_zero {n : Nat} (hpos : 0 < n) (hsize : n < UInt64.size) : UInt64.ofNat n ≠ 0 := by
  intro h
  have htoNat : (UInt64.ofNat n).toNat = n := UInt64.toNat_ofNat_of_lt' hsize
  rw [h] at htoNat
  exact hpos.ne htoNat

/-- numbers below the bounds are words that settle the draws at themselves -/
theorem spelled_self {ns vs : List Nat} (h : List.Forall₂ (· < ·) vs ns) (hsize : ∀ n ∈ ns, n < UInt64.size) :
    Spelled ns (vs.map UInt64.ofNat) vs := by
  induction h with
  | nil => exact .nil
  | @cons v n vs ns hv _ ih =>
    have hn : n < UInt64.size := hsize n List.mem_cons_self
    have hpos : 0 < n := Nat.zero_lt_of_lt hv
    have htoNat : (UInt64.ofNat v).toNat = v := UInt64.toNat_ofNat_of_lt' (hv.trans hn)
    have hbound : (UInt64.ofNat n).toNat = n := UInt64.toNat_ofNat_of_lt' hn
    have haccepted : UInt64.ofNat v < acceptLimit (UInt64.ofNat n) := by
      rw [UInt64.lt_iff_toNat_lt, htoNat]
      apply Nat.lt_of_lt_of_le hv
      apply Nat.le_of_dvd (acceptLimit_pos (ofNat_ne_zero hpos hn))
      have hdvd := dvd_acceptLimit (UInt64.ofNat n)
      rwa [hbound] at hdvd
    have hrest := ih fun n hn => hsize n (List.mem_cons_of_mem _ hn)
    have hspelled := @Spelled.cons n [] (UInt64.ofNat v) ns vs _ hpos hn (fun u hu => absurd hu List.not_mem_nil) haccepted hrest
    rw [htoNat, Nat.mod_eq_of_lt hv] at hspelled
    exact hspelled

section
variable [Entropy σ]

theorem Serves.split {x y : σ} {ws ws' : List UInt64} {lines : List LogLine} (h : Serves x (ws ++ ws') lines y) :
    ∃ z log log', Serves x ws log z ∧ Serves z ws' log' y := by
  induction ws generalizing x lines with
  | nil => exact ⟨x, [], lines, .nil x, h⟩
  | cons w ws ih =>
    cases h with
    | cons first rest =>
      obtain ⟨z, log, log', hws, hws'⟩ := ih rest
      exact ⟨z, _, log', .cons first hws, hws'⟩

variable [Arith F]

namespace Draw

/-- a position is drawn from words to redraw and one that is accepted -/
theorem run_indexBelow {n : Nat} (hpos : 0 < n) (hsize : n < UInt64.size) {rejected : List UInt64} {w : UInt64}
    (hrejected : ∀ u ∈ rejected, acceptLimit (UInt64.ofNat n) ≤ u) (hw : w < acceptLimit (UInt64.ofNat n))
    {m : Machine F σ} {lines : List LogLine} {y : σ} (h : Serves m.source (rejected ++ [w]) lines y) {tries : Nat}
    (htries : rejected.length < tries) :
    ∃ m', (indexBelow tries n).run m = (.value (w.toNat % n), m') ∧ m'.source = y ∧
      m'.consumed = m.consumed + 8 * (rejected.length + 1) ∧ m'.spare = m.spare := by
  obtain ⟨m', hrun, hsource, huses⟩ := run_belowFrom hrejected hw h htries 0
  have hmod : (w % UInt64.ofNat n).toNat = w.toNat % n := by
    rw [UInt64.toNat_mod, UInt64.toNat_ofNat_of_lt' hsize]
  refine ⟨m', ?_, hsource, huses.consumed, huses.spare⟩
  rw [indexBelow_eq, require, if_pos (decide_eq_true hsize), wordBelow_of_ne_zero (ofNat_ne_zero hpos hsize), map_eq, run_bind,
    hrun, ← hmod]
  rfl

/-- **Draws in turn from given words.** On a source that serves words that settle the draws, the numbers come out, these words are
read and no more, and the spare is left alone. The tries only have to reach as far as there are words. -/
theorem oneByOne_of_spelled {ns vs : List Nat} {ws : List UInt64} (h : Spelled ns ws vs) {m : Machine F σ} {lines : List LogLine}
    {y : σ} (hserves : Serves m.source ws lines y) {tries : Nat} (htries : ws.length ≤ tries) :
    ∃ m', OneByOne (indexBelow tries) m ns vs m' ∧ m'.source = y ∧ m'.consumed = m.consumed + 8 * ws.length ∧
      m'.spare = m.spare := by
  induction h generalizing m lines with
  | nil =>
    cases hserves
    exact ⟨m, .nil m, rfl, rfl, rfl⟩
  | @cons n rejected w ns vs ws hpos hsize hrejected hw _ ih =>
    rw [List.length_append, List.length_append, List.length_singleton] at htries
    obtain ⟨z, log, log', hfirst, hrest⟩ := hserves.split
    have hfew : rejected.length < tries := by omega
    obtain ⟨m₁, hrun, rfl, hread, hspare⟩ := run_indexBelow hpos hsize hrejected hw hfirst hfew
    obtain ⟨m', hturn, hsource, hread', hspare'⟩ := ih hrest (by omega)
    refine ⟨m', .cons hrun hturn, hsource, ?_, hspare'.trans hspare⟩
    rw [hread', hread, List.length_append, List.length_append, List.length_singleton]
    omega

end Draw

end

end Sampling
