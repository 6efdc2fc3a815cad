/-
Deviates come in pairs and are handed out in turn.

`Balanced keeps before events after` is the account of a stretch of a run: with spares kept, the spare held before and the deviates
of the pairs computed are, in order, the deviates handed out and the spare held after; without, the firsts of the pairs are what
was handed out, and the spare was not touched. Balanced stretches follow one another (`Balanced.trans`), so the account holds of a
fill, of a deviate, of a run (by induction on the program), of a request and of every list of requests, whatever other
generators do in between and wherever the source fails.

`deviates_in_turn` reads the account off: with spares kept, deviates 2i and 2i + 1 handed out (from zero) are the first and the
second of pair i, and the spare is the second of the last pair exactly if the number handed out is odd.
-/
import Sampling.Proofs.ParameterFault
import Sampling.Proofs.Run

namespace Sampling

variable {F σ α : Type}

/-! ## Accounts -/

namespace Event

def pair? : Event F → Option (F × F)
  | pair first second => some (first, second)
  | _ => none

def handedOut? : Event F → Option F
  | handedOut z => some z
  | _ => none

/-- an event that has to do with no deviate -/
def Quiet (e : Event F) : Prop := e.pair? = none ∧ e.handedOut? = none

end Event

/-- the pairs computed, oldest first -/
def pairsIn (events : List (Event F)) : List (F × F) := events.filterMap Event.pair?

/-- the deviates handed out, oldest first -/
def handedOutIn (events : List (Event F)) : List F := events.filterMap Event.handedOut?

def deviatesOf (pairs : List (F × F)) : List F := pairs.flatMap fun z => [z.1, z.2]

@[simp] theorem pairsIn_append (es es' : List (Event F)) : pairsIn (es ++ es') = pairsIn es ++ pairsIn es' :=
  List.filterMap_append

@[simp] theorem handedOutIn_append (es es' : List (Event F)) :
    handedOutIn (es ++ es') = handedOutIn es ++ handedOutIn es' :=
  List.filterMap_append

@[simp] theorem deviatesOf_append (zs zs' : List (F × F)) : deviatesOf (zs ++ zs') = deviatesOf zs ++ deviatesOf zs' :=
  List.flatMap_append

theorem pairsIn_quiet {es : List (Event F)} (h : ∀ e ∈ es, e.Quiet) : pairsIn es = [] :=
  List.filterMap_eq_nil_iff.2 fun e he => (h e he).1

theorem handedOutIn_quiet {es : List (Event F)} (h : ∀ e ∈ es, e.Quiet) : handedOutIn es = [] :=
  List.filterMap_eq_nil_iff.2 fun e he => (h e he).2

/-- the account of a stretch of a run, from one state of the spare to another -/
structure Balanced (keeps : Bool) (before : Option F) (events : List (Event F)) (after : Option F) : Prop where
  kept : keeps = true → before.toList ++ deviatesOf (pairsIn events) = handedOutIn events ++ after.toList
  unkept : keeps = false → handedOutIn events = (pairsIn events).map Prod.fst ∧ after = before

theorem Balanced.quiet {keeps : Bool} {spare : Option F} {es : List (Event F)} (h : ∀ e ∈ es, e.Quiet) :
    Balanced keeps spare es spare := by
  refine ⟨fun _ => ?_, fun _ => ⟨?_, rfl⟩⟩
  · rw [pairsIn_quiet h, handedOutIn_quiet h]
    simp [deviatesOf]
  · rw [pairsIn_quiet h, handedOutIn_quiet h, List.map_nil]

theorem Balanced.trans {keeps : Bool} {before between after : Option F} {es es' : List (Event F)}
    (h : Balanced keeps before es between) (h' : Balanced keeps between es' after) :
    Balanced keeps before (es ++ es') after := by
  refine ⟨fun hk => ?_, fun hk => ?_⟩
  · calc before.toList ++ deviatesOf (pairsIn (es ++ es'))
        = (before.toList ++ deviatesOf (pairsIn es)) ++ deviatesOf (pairsIn es') := by simp
      _ = handedOutIn es ++ (between.toList ++ deviatesOf (pairsIn es')) := by rw [h.kept hk, List.append_assoc]
      _ = handedOutIn (es ++ es') ++ after.toList := by rw [h'.kept hk, handedOutIn_append, List.append_assoc]
  · obtain ⟨hout, hsame⟩ := h.unkept hk
    obtain ⟨hout', hsame'⟩ := h'.unkept hk
    exact ⟨by rw [handedOutIn_append, pairsIn_append, List.map_append, hout, hout'], hsame'.trans hsame⟩

/-! ### Reading the account -/

/-- deviates handed out in turn: firsts at even places, seconds at odd ones, and the second that is still owed is the spare -/
structure InTurn (pairs : List (F × F)) (out : List F) (spare : Option F) : Prop where
  count : pairs.length = (out.length + 1) / 2
  first : ∀ i, out[2 * i]? = (pairs[i]?).map Prod.fst
  second : ∀ i, 2 * i + 1 < out.length → out[2 * i + 1]? = (pairs[i]?).map Prod.snd
  spare : spare = if out.length % 2 = 1 then (pairs[out.length / 2]?).map Prod.snd else none

theorem length_deviatesOf (zs : List (F × F)) : (deviatesOf zs).length = 2 * zs.length := by
  induction zs with
  | nil => rfl
  | cons z rest ih =>
    have hcons : deviatesOf (z :: rest) = z.1 :: z.2 :: deviatesOf rest := rfl
    rw [hcons, List.length_cons, List.length_cons, List.length_cons, ih]
    omega

theorem getElem?_deviatesOf (zs : List (F × F)) (i : Nat) :
    (deviatesOf zs)[2 * i]? = (zs[i]?).map Prod.fst ∧ (deviatesOf zs)[2 * i + 1]? = (zs[i]?).map Prod.snd := by
  induction zs generalizing i with
  | nil => simp [deviatesOf]
  | cons z rest ih =>
    have hcons : deviatesOf (z :: rest) = z.1 :: z.2 :: deviatesOf rest := rfl
    rw [hcons]
    cases i with
    | zero => exact ⟨rfl, rfl⟩
    | succ i =>
      have heven : 2 * (i + 1) = 2 * i + 1 + 1 := by omega
      rw [heven]
      simpa only [List.getElem?_cons_succ] using ih i

theorem Balanced.inTurn {es : List (Event F)} {after : Option F} (h : Balanced true none es after) :
    InTurn (pairsIn es) (handedOutIn es) after := by
  have hall : deviatesOf (pairsIn es) = handedOutIn es ++ after.toList := h.kept rfl
  have hlen : 2 * (pairsIn es).length = (handedOutIn es).length + after.toList.length := by
    rw [← length_deviatesOf, hall, List.length_append]
  have hspare : after.toList.length ≤ 1 := by cases after <;> simp
  have hcount : (pairsIn es).length = ((handedOutIn es).length + 1) / 2 := by omega
  have hget : ∀ j, j < (handedOutIn es).length → (handedOutIn es)[j]? = (deviatesOf (pairsIn es))[j]? := by
    intro j hj
    rw [hall, List.getElem?_append_left hj]
  refine ⟨hcount, fun i => ?_, fun i hi => ?_, ?_⟩
  · by_cases hi : 2 * i < (handedOutIn es).length
    · rw [hget _ hi]
      exact (getElem?_deviatesOf _ i).1
    · -- past the end there is no pair either: an odd end would leave room for a first
      have hi' : (pairsIn es).length ≤ i := by omega
      rw [List.getElem?_eq_none (by omega), List.getElem?_eq_none hi', Option.map_none]
  · rw [hget _ hi]
    exact (getElem?_deviatesOf _ i).2
  · cases after with
    | none =>
      have heven : ¬ (handedOutIn es).length % 2 = 1 := by
        simp only [Option.toList_none, List.length_nil] at hlen
        omega
      rw [if_neg heven]
    | some b =>
      have hodd : (handedOutIn es).length % 2 = 1 := by
        simp only [Option.toList_some, List.length_singleton] at hlen
        omega
      have hplace : 2 * ((handedOutIn es).length / 2) + 1 = (handedOutIn es).length := by omega
      rw [if_pos hodd, ← (getElem?_deviatesOf _ _).2, hplace, hall]
      simp

/-! ## Machines -/

namespace Machine

/-- the machine after its source was read: the spare stays, and nothing happened to deviates -/
structure Reads (m m' : Machine F σ) : Prop where
  keepsSpare : m'.keepsSpare = m.keepsSpare
  spare : m'.spare = m.spare
  events : ∃ es : List (Event F), m'.trace = es.reverse ++ m.trace ∧ ∀ e ∈ es, e.Quiet

/-- the machine after a stretch whose account is balanced -/
structure Accounts (m m' : Machine F σ) : Prop where
  keepsSpare : m'.keepsSpare = m.keepsSpare
  events : ∃ es : List (Event F), m'.trace = es.reverse ++ m.trace ∧ Balanced m.keepsSpare m.spare es m'.spare

theorem Reads.refl (m : Machine F σ) : m.Reads m := ⟨rfl, rfl, [], rfl, by simp⟩

theorem Reads.trans {m₁ m₂ m₃ : Machine F σ} (h₁ : m₁.Reads m₂) (h₂ : m₂.Reads m₃) : m₁.Reads m₃ := by
  obtain ⟨es, ht, hq⟩ := h₁.events
  obtain ⟨es', ht', hq'⟩ := h₂.events
  refine ⟨h₂.keepsSpare.trans h₁.keepsSpare, h₂.spare.trans h₁.spare, es ++ es', ?_, ?_⟩
  · rw [ht', ht, List.reverse_append, List.append_assoc]
  · intro e he
    rcases List.mem_append.1 he with he | he
    · exact hq e he
    · exact hq' e he

theorem Reads.accounts {m m' : Machine F σ} (h : m.Reads m') : m.Accounts m' := by
  obtain ⟨es, ht, hq⟩ := h.events
  refine ⟨h.keepsSpare, es, ht, ?_⟩
  rw [h.spare]
  exact Balanced.quiet hq

theorem Accounts.trans {m₁ m₂ m₃ : Machine F σ} (h₁ : m₁.Accounts m₂) (h₂ : m₂.Accounts m₃) : m₁.Accounts m₃ := by
  obtain ⟨es, ht, hb⟩ := h₁.events
  obtain ⟨es', ht', hb'⟩ := h₂.events
  rw [h₁.keepsSpare] at hb'
  refine ⟨h₂.keepsSpare.trans h₁.keepsSpare, es ++ es', ?_, hb.trans hb'⟩
  rw [ht', ht, List.reverse_append, List.append_assoc]

variable [Entropy σ]

theorem reads_fill (m : Machine F σ) (n : Nat) : m.Reads (m.fill n).2 := by
  have hlogged : ∀ e ∈ (deliver m.source n).log.map (Event.logged (F := F)), e.Quiet := by
    intro e he
    obtain ⟨line, -, rfl⟩ := List.mem_map.1 he
    exact ⟨rfl, rfl⟩
  by_cases hn : n = 0
  · subst hn
    exact Reads.refl m
  · cases ho : (deliver m.source n).outcome with
    | ok b =>
      rw [fill_of_ok hn ho]
      refine ⟨rfl, rfl, _, rfl, fun e he => ?_⟩
      rcases List.mem_append.1 he with he | he
      · exact hlogged e he
      · cases List.mem_singleton.1 he
        exact ⟨rfl, rfl⟩
    | error x =>
      rw [fill_of_error hn ho]
      refine ⟨rfl, rfl, _, rfl, fun e he => ?_⟩
      rcases List.mem_append.1 he with he | he
      · exact hlogged e he
      · cases List.mem_singleton.1 he
        exact ⟨rfl, rfl⟩

theorem reads_word (m : Machine F σ) : m.Reads m.word.2 := by
  have h := m.reads_fill 8
  unfold word
  rcases hf : m.fill 8 with ⟨_ | b, m'⟩ <;> rw [hf] at h <;> exact h

variable [Arith F]

/-- a pair that fails at its first or its second word was only a read; otherwise the pair is all that came on top -/
theorem pair_reads (m : Machine F σ) :
    (∀ e, m.pair.1 = .error e → m.Reads m.pair.2) ∧
    ∀ z, m.pair.1 = .ok z → ∃ m₁, m.Reads m₁ ∧ m.pair.2 = m₁.record [.pair z.1 z.2] := by
  have h₁ := m.reads_word
  unfold pair
  rcases hf : m.word with ⟨_ | first, m₁⟩ <;> rw [hf] at h₁
  · exact ⟨fun _ _ => h₁, fun z hz => by cases hz⟩
  · have h₂ := m₁.reads_word
    dsimp only
    rcases hg : m₁.word with ⟨_ | second, m₂⟩ <;> rw [hg] at h₂
    · exact ⟨fun _ _ => h₁.trans h₂, fun z hz => by cases hz⟩
    · refine ⟨fun e he => (by cases he), fun z hz => ⟨m₂, h₁.trans h₂, ?_⟩⟩
      cases hz
      rfl

/-- a deviate that fails found no spare, handed out nothing and leaves the spare as it was -/
theorem deviate_failed {m : Machine F σ} {e : Failure} (h : m.deviate.1 = .error e) :
    m.waiting? = none ∧ m.Reads m.deviate.2 := by
  unfold deviate at h ⊢
  cases hw : m.waiting? with
  | some z => simp only [hw] at h; cases h
  | none =>
    refine ⟨rfl, ?_⟩
    simp only [hw] at h ⊢
    have hp := m.pair_reads.1
    rcases hf : m.pair with ⟨x | z, m'⟩ <;> simp only [hf] at h hp ⊢
    · exact hp x rfl
    · cases h

/-- a deviate handed out is the spare, or the first of a pair whose second becomes the spare if spares are kept -/
theorem deviate_granted {m : Machine F σ} {z : F} (h : m.deviate.1 = .ok z) :
    m.deviate.2.keepsSpare = m.keepsSpare ∧ ∃ es, m.deviate.2.trace = es.reverse ++ m.trace ∧ handedOutIn es = [z] ∧
      Balanced m.keepsSpare m.spare es m.deviate.2.spare := by
  unfold deviate at h ⊢
  cases hw : m.waiting? with
  | some b =>
    simp only [hw] at h ⊢
    cases h
    refine ⟨rfl, [.handedOut z], rfl, rfl, ?_⟩
    unfold waiting? at hw
    split at hw
    · rename_i hk
      exact ⟨fun _ => by rw [hw]; rfl, fun hn => by rw [hk] at hn; cases hn⟩
    · cases hw
  | none =>
    simp only [hw] at h ⊢
    have hp := m.pair_reads.2
    rcases hf : m.pair with ⟨x | b, m'⟩ <;> simp only [hf] at h hp ⊢
    · cases h
    · cases h
      obtain ⟨m₁, hm₁, rfl⟩ := hp b rfl
      obtain ⟨es, ht, hq⟩ := hm₁.events
      refine ⟨hm₁.keepsSpare, es ++ [.pair b.1 b.2, .handedOut b.1], ?_, ?_, ?_⟩
      · simp [ht]
      · rw [handedOutIn_append, handedOutIn_quiet hq]
        rfl
      · have hpairs : pairsIn (es ++ [.pair b.1 b.2, .handedOut b.1]) = [b] := by
          rw [pairsIn_append, pairsIn_quiet hq]
          rfl
        have hout : handedOutIn (es ++ [.pair b.1 b.2, .handedOut b.1]) = [b.1] := by
          rw [handedOutIn_append, handedOutIn_quiet hq]
          rfl
        refine ⟨fun hk => ?_, fun hk => ?_⟩
        · have hnone : m.spare = none := by simpa [waiting?, hk] using hw
          rw [hpairs, hout, hnone]
          simp [hm₁.keepsSpare, hk, deviatesOf]
        · rw [hpairs, hout]
          simp [hm₁.keepsSpare, hm₁.spare, hk]

/-- where no deviate waits, one is made of the next two words, or fails with the first of them that is refused -/
structure MadeOfWords (m : Machine F σ) : Prop where
  first_refused : ∀ {e m₁}, m.word = (.error e, m₁) → m.deviate = (.error e, m₁)
  second_refused : ∀ {first e m₁ m₂}, m.word = (.ok first, m₁) → m₁.word = (.error e, m₂) → m.deviate = (.error e, m₂)
  granted : ∀ {first second m₁ m₂}, m.word = (.ok first, m₁) → m₁.word = (.ok second, m₂) →
    m.deviate.1 = .ok (boxMuller first second).1 ∧
      ∃ es, m.deviate.2.trace = es.reverse ++ m.trace ∧ pairsIn es = [boxMuller first second]

theorem madeOfWords {m : Machine F σ} (h : m.waiting? = none) : m.MadeOfWords where
  first_refused hword := by simp only [deviate, pair, h, hword]
  second_refused hfirst hsecond := by simp only [deviate, pair, h, hfirst, hsecond]
  granted {first second m₁ m₂} hfirst hsecond := by
    have hread₁ : m.Reads m₁ := by simpa only [hfirst] using m.reads_word
    have hread₂ : m₁.Reads m₂ := by simpa only [hsecond] using m₁.reads_word
    obtain ⟨es, ht, hq⟩ := (hread₁.trans hread₂).events
    simp only [deviate, pair, h, hfirst, hsecond]
    refine ⟨trivial, es ++ [.pair (boxMuller first second).1 (boxMuller first second).2,
      .handedOut (boxMuller first second).1], ?_, ?_⟩
    · simp [ht]
    · rw [pairsIn_append, pairsIn_quiet hq]
      rfl

theorem accounts_deviate (m : Machine F σ) : m.Accounts m.deviate.2 := by
  cases h : m.deviate.1 with
  | error e => exact (deviate_failed h).2.accounts
  | ok z =>
    obtain ⟨hk, es, ht, -, hb⟩ := deviate_granted h
    exact ⟨hk, es, ht, hb⟩

end Machine

theorem Draw.accounts_run [Entropy σ] [Arith F] (p : Draw F α) (m : Machine F σ) : m.Accounts (p.run m).2 := by
  refine p.run_preserves (fun m' n h => h.trans (m'.reads_fill n).accounts) (fun m' h => h.trans m'.accounts_deviate) ?_
    (Machine.Reads.refl m).accounts
  intro m' bound value redraws h
  have hread : m'.Reads (m'.record [.settled bound value redraws]) :=
    ⟨rfl, rfl, [.settled bound value redraws], rfl, by simp [Event.Quiet, Event.pair?, Event.handedOut?]⟩
  exact h.trans hread.accounts

theorem Draw.run_spare [Entropy σ] [Arith F] {D : Prop} {E : Fault F → Prop} {Q : α → Prop} {p : Draw F α} (hD : ¬ D)
    (h : p.Ensures D E Q) (m : Machine F σ) : (p.run m).2.spare = m.spare := by
  induction h generalizing m with
  | done _ => rfl
  | fault _ => rfl
  | stuck => rfl
  | @fill n next h ih =>
    have hread := (m.reads_fill n).spare
    simp only [run]
    rcases hf : m.fill n with ⟨e | b, m'⟩ <;> rw [hf] at hread
    · exact hread
    · exact (ih b (Machine.length_fill hf) m').trans hread
  | deviate hd _ _ => exact absurd hd hD
  | settled _ ih => exact ih _

/-! ## Sessions -/

def Request.takesDeviates [Arith F] : Request F → Bool
  | .call _ _ c => c.takesDeviates
  | _ => false

namespace Session

/-- every generator is still there, with its spare -/
def SameSpares (s s' : Session F σ) : Prop :=
  ∀ (g : Nat) (gen : Generator F), s.generators[g]? = some gen →
    ∃ gen' : Generator F, s'.generators[g]? = some gen' ∧ gen'.spare = gen.spare

theorem SameSpares.refl (s : Session F σ) : s.SameSpares s := fun _ gen hg => ⟨gen, hg, rfl⟩

variable {s : Session F σ} {g : Nat} {gen : Generator F}

theorem sameSpares_keep (hg : s.generators[g]? = some gen) {m : Machine F σ} (hm : m.spare = gen.spare) :
    s.SameSpares (s.keep g gen m) := by
  intro g' gen' hg'
  by_cases h : g = g'
  · subst h
    rw [hg] at hg'
    cases hg'
    exact ⟨_, generators_keep_self hg m, hm⟩
  · exact ⟨gen', by rw [generators_keep_of_ne h, hg'], rfl⟩

variable [Entropy σ] [Arith F]

/-- a program that leaves the spare of every machine leaves all spares of a session -/
theorem sameSpares_step_of_program {r : Request F} {p : Generator F → Draw F (Value F)} (hp : s.program? r = some (g, p))
    (h : ∀ gen (m : Machine F σ), ((p gen).run m).2.spare = m.spare) : s.SameSpares (s.step r).2 := by
  by_cases hs : s.Holds g
  · obtain ⟨gen, source, hg, hs⟩ := hs
    rw [step_of_program hp hg hs]
    exact sameSpares_keep hg (h gen _)
  · rw [step_of_absent hp hs]
    exact SameSpares.refl s

theorem sameSpares_step_of_takes_none {r : Request F} (hr : r.takesDeviates = false) : s.SameSpares (s.step r).2 := by
  have hD : ¬ r.takesDeviates = true := by rw [hr]; exact Bool.false_ne_true
  cases hp : s.program? r with
  | none =>
    intro g gen hg
    obtain ⟨tables, ht⟩ := generators_step_of_no_program hp hg
    exact ⟨_, ht, rfl⟩
  | some gp =>
    refine sameSpares_step_of_program hp fun gen m => ?_
    cases r with
    | call g strict c =>
      cases hp
      rcases c.fault_or_blameless with ⟨f, -, hP⟩ | hP
      · exact congrArg (fun p => (p.run m).2.spare) (hP gen.clock gen.tries)
      · exact Draw.run_spare hD (hP gen.clock gen.tries) m
    | drawRank t =>
      simp only [program?, Option.map_eq_some_iff] at hp
      obtain ⟨z, -, heq⟩ := hp
      cases heq
      have hrank : (Draw.zipfRank z).Blameless False fun _ => False := Draw.blameless_zipfRank z
      exact Draw.run_spare not_false (hrank.map _) m
    | _ => cases hp

theorem balanced_step (hg : s.generators[g]? = some gen) (r : Request F) :
    ∃ gen', (s.step r).2.generators[g]? = some gen' ∧ gen'.keepsSpare = gen.keepsSpare ∧
      Balanced gen.keepsSpare gen.spare (s.eventsOf g r) gen'.spare := by
  have idle : Balanced gen.keepsSpare gen.spare [] gen.spare := Balanced.quiet (by simp)
  cases hp : s.program? r with
  | none =>
    obtain ⟨tables, ht⟩ := generators_step_of_no_program hp hg
    rw [eventsOf_of_no_program hp]
    exact ⟨_, ht, rfl, idle⟩
  | some gp =>
    obtain ⟨g', p⟩ := gp
    by_cases hne : g' = g
    · subst hne
      cases hs : s.sources[gen.source]? with
      | none =>
        have habs : ¬ s.Holds g' := by
          rintro ⟨gen', source, hg', hs'⟩
          rw [hg] at hg'
          cases hg'
          rw [hs] at hs'
          cases hs'
        rw [eventsOf_of_absent hp habs, step_of_absent hp habs]
        exact ⟨gen, hg, rfl, idle⟩
      | some source =>
        rw [eventsOf_of_program hp hg hs, step_of_program hp hg hs]
        refine ⟨_, generators_keep_self hg _, rfl, ?_⟩
        obtain ⟨es, ht, hb⟩ := ((p gen).accounts_run (gen.machine source)).events
        have htrace : ((p gen).run (gen.machine source)).2.trace.reverse = es := by
          rw [ht]
          simp [Generator.machine]
        rw [htrace]
        exact hb
    · rw [eventsOf_of_ne hp hne]
      refine ⟨gen, ?_, rfl, idle⟩
      by_cases hs : s.Holds g'
      · obtain ⟨gen', source, hg', hs'⟩ := hs
        rw [step_of_program hp hg' hs', generators_keep_of_ne hne, hg]
      · rw [step_of_absent hp hs, hg]

theorem balanced_run (hg : s.generators[g]? = some gen) (rs : List (Request F)) :
    ∃ gen', (s.run rs).2.generators[g]? = some gen' ∧ gen'.keepsSpare = gen.keepsSpare ∧
      Balanced gen.keepsSpare gen.spare (s.history g rs) gen'.spare := by
  induction rs generalizing s gen with
  | nil => exact ⟨gen, hg, rfl, Balanced.quiet (by simp [history])⟩
  | cons r rest ih =>
    obtain ⟨gen₁, hg₁, hk₁, hb₁⟩ := balanced_step hg r
    obtain ⟨gen₂, hg₂, hk₂, hb₂⟩ := ih hg₁
    rw [hk₁] at hb₂
    exact ⟨gen₂, hg₂, hk₂.trans hk₁, hb₁.trans hb₂⟩

theorem handedOut_standardNormal {strict : Bool} {z : F}
    (h : (s.step (.call g strict .standardNormal)).1.ending = .value (.rounded z)) :
    handedOutIn (s.eventsOf g (.call g strict .standardNormal)) = [z] := by
  have hs : s.Holds g := holds_of_step_call fun habs => by rw [habs] at h; cases h
  obtain ⟨gen, source, hg, hs⟩ := hs
  rw [step_call hg hs] at h
  rw [eventsOf_of_program rfl hg hs]
  simp only [Call.program, Draw.map_eq, Draw.standardNormal, Draw.bind, Draw.run] at h ⊢
  rcases hd : (gen.machine source).deviate with ⟨e | z', m⟩
  · simp only [hd, ending] at h
    split at h <;> cases h
  · simp only [hd, ending] at h ⊢
    cases h
    obtain ⟨-, es, ht, hout, -⟩ := Machine.deviate_granted (congrArg Prod.fst hd)
    rw [hd] at ht
    rw [ht]
    simpa [Generator.machine] using hout

/-- **Deviates are handed out in turn.** Take any session and any generator of it that holds no spare, and let the session
answer any list of requests, to this generator and others, wherever sources fail. With spares kept, deviates 2i and 2i + 1
handed out on it (from zero) are the first and the second of pair i, and its spare is the second of the last pair exactly if
the number handed out is odd. Without, deviate i is the first of pair i and there is never a spare. A direct request is
answered with the one deviate it hands out. A deviate that fails, at the first or the second word of its pair, hands out nothing
and leaves no spare; and requests that take no deviate, or fail with a parameter error, leave all spares as they were. Where no
deviate waits, a refused first or second word makes a deviate fail, and the pair computed is that of the two words read. -/
theorem deviates_in_turn :
    (∀ (s : Session F σ) (g : Nat) (gen : Generator F) (rs : List (Request F)), s.generators[g]? = some gen →
      gen.spare = none → ∃ gen', (s.run rs).2.generators[g]? = some gen' ∧
        (gen.keepsSpare = true → InTurn (pairsIn (s.history g rs)) (handedOutIn (s.history g rs)) gen'.spare) ∧
        (gen.keepsSpare = false →
          handedOutIn (s.history g rs) = (pairsIn (s.history g rs)).map Prod.fst ∧ gen'.spare = none)) ∧
    (∀ (s : Session F σ) (g : Nat) (strict : Bool) (z : F),
      (s.step (.call g strict .standardNormal)).1.ending = .value (.rounded z) →
        handedOutIn (s.eventsOf g (.call g strict .standardNormal)) = [z]) ∧
    (∀ (m : Machine F σ) (e : Failure), m.deviate.1 = .error e →
      m.Reads m.deviate.2 ∧ (m.keepsSpare = true → m.deviate.2.spare = none)) ∧
    (∀ (s : Session F σ) (r : Request F),
      (r.takesDeviates = false ∨ ∃ e, (s.step r).1.ending.error? = some e ∧ e.isParameter = true) →
        s.SameSpares (s.step r).2) ∧
    ∀ m : Machine F σ, m.waiting? = none → m.MadeOfWords := by
  refine ⟨fun s g gen rs hg hnone => ?_, fun s g strict z hz => handedOut_standardNormal hz, fun m e he => ?_, fun s r hr => ?_,
    fun m hm => Machine.madeOfWords hm⟩
  · obtain ⟨gen', hg', -, hb⟩ := balanced_run hg rs
    rw [hnone] at hb
    refine ⟨gen', hg', fun hk => ?_, fun hk => hb.unkept hk⟩
    rw [hk] at hb
    exact hb.inTurn
  · obtain ⟨hw, hread⟩ := Machine.deviate_failed he
    refine ⟨hread, fun hk => ?_⟩
    rw [hread.spare]
    simpa [Machine.waiting?, hk] using hw
  · rcases hr with hr | ⟨e, h, he⟩
    · exact sameSpares_step_of_takes_none hr
    · have hpresent : (s.step r).1.ending ≠ .absent := fun habs => by rw [habs] at h; cases h
      obtain ⟨f, hf⟩ := rejected_of_parameter h he
      rw [step_of_rejected hf hpresent]
      exact SameSpares.refl s

/-- three direct requests take two pairs, and the second of the second pair is kept -/
theorem deviates_in_turn_three :
    let gen : Generator Float := { source := 0, keepsSpare := true, tries := 5 }
    let s : Session Float Replay := { sources := #[⟨#[1, 2, 3], 0⟩], generators := #[gen] }
    let events := s.history 0 (List.replicate 3 (.call 0 false .standardNormal))
    (handedOutIn events).length = 3 ∧ (pairsIn events).length = 2 ∧ (handedOutIn events)[2]? = (pairsIn events)[1]?.map Prod.fst := by
  intro gen s events
  obtain ⟨gen', -, hturn, -⟩ := deviates_in_turn.1 s 0 gen (List.replicate 3 (.call 0 false .standardNormal)) rfl rfl
  have hout : (handedOutIn events).length = 3 := by
    simp only [events, s, gen]
    decide +kernel
  exact ⟨hout, by rw [(hturn rfl).count, hout], (hturn rfl).first 1⟩

end Session

end Sampling
