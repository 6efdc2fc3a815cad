/-
Sources that serve given words.

`Serves x ws lines y`: asked for eight bytes again and again, `x` grants the words `ws` and has then become `y`, with `lines`
logged on the way; `ServesAll x ws` is that without end. A replay of a list of words serves that list. What a machine has used up
from one moment to another is kept in one record (`Machine.Uses`): the bytes it was served, the lines it logged and the draws it
accepted; uses add up.

Loops over words have a bound on their tries. `EndsAfter` and `NeverEnds` speak of the loop that has none: it ends after so many
words, whatever bound lets it read them, or every bound is used up.
-/
import Sampling.Proofs.Run
import Sampling.Source.Replay
import Sampling.Uniform

namespace Sampling

variable {F σ α : Type}

/-! ## Words in a row -/

/-- fills of eight bytes, made one after the other, are granted with these words -/
inductive Serves [Entropy σ] : σ → List UInt64 → List LogLine → σ → Prop where
  | nil (x : σ) : Serves x [] [] x
  | cons {x x' y : σ} {w : UInt64} {ws : List UInt64} {log lines : List LogLine}
    (first : Entropy.fill x 8 = ⟨.ok (Bytes.ofWord w), x', log⟩) (rest : Serves x' ws lines y) :
    Serves x (w :: ws) (log ++ lines) y

/-- fills of eight bytes are granted with these words without end -/
def ServesAll [Entropy σ] (x : σ) (ws : Nat → UInt64) : Prop :=
  ∀ k, ∃ lines y, Serves x ((List.range k).map ws) lines y

theorem ServesAll.first [Entropy σ] {x : σ} {ws : Nat → UInt64} (h : ServesAll x ws) :
    ∃ x' log, Entropy.fill x 8 = ⟨.ok (Bytes.ofWord (ws 0)), x', log⟩ ∧ ServesAll x' fun i => ws (i + 1) := by
  have hsucc : ∀ k, (List.range (k + 1)).map ws = ws 0 :: (List.range k).map fun i => ws (i + 1) := by
    intro k
    rw [List.range_succ_eq_map, List.map_cons, List.map_map]
    rfl
  obtain ⟨lines, y, hone⟩ := h 1
  rw [hsucc] at hone
  cases hone with
  | @cons _ x' _ _ _ log _ first _ =>
    refine ⟨x', log, first, ?_⟩
    intro k
    obtain ⟨lines, y, hmore⟩ := h (k + 1)
    rw [hsucc] at hmore
    cases hmore with
    | cons first' rest =>
      rw [first] at first'
      cases first'
      exact ⟨_, _, rest⟩

namespace Replay

theorem serves_behind (front : Bytes) (ws : List UInt64) :
    Serves ⟨(front ++ ws.flatMap Bytes.ofWord).toArray, front.length⟩ ws []
      (⟨(front ++ ws.flatMap Bytes.ofWord).toArray, (front ++ ws.flatMap Bytes.ofWord).length⟩ : Replay) := by
  induction ws generalizing front with
  | nil =>
    rw [List.flatMap_nil, List.append_nil]
    exact .nil _
  | cons w ws ih =>
    have hscript : front ++ (w :: ws).flatMap Bytes.ofWord = (front ++ Bytes.ofWord w) ++ ws.flatMap Bytes.ofWord := by
      rw [List.flatMap_cons, List.append_assoc]
    have hposition : (front ++ Bytes.ofWord w).length = front.length + 8 := by
      rw [List.length_append, Bytes.length_ofWord]
    have hroom : front.length + 8 ≤ ((front ++ Bytes.ofWord w) ++ ws.flatMap Bytes.ofWord).toArray.size := by
      rw [← hposition, List.size_toArray]
      exact (List.prefix_append _ _).length_le
    have hword : ((((front ++ Bytes.ofWord w) ++ ws.flatMap Bytes.ofWord).toArray).extract front.length
        (front.length + 8)).toList = Bytes.ofWord w := by
      rw [Array.toList_extract, List.extract_eq_take_drop, List.append_assoc, List.drop_left, Nat.add_sub_cancel_left]
      exact List.take_left' (Bytes.length_ofWord w)
    have hfill := fill_of_le (r := ⟨((front ++ Bytes.ofWord w) ++ ws.flatMap Bytes.ofWord).toArray, front.length⟩) hroom
    rw [hword, ← hposition] at hfill
    rw [hscript]
    exact .cons hfill (ih (front ++ Bytes.ofWord w))

theorem serves_ofWords (ws : List UInt64) :
    Serves (ofWords ws) ws [] (⟨(ws.flatMap Bytes.ofWord).toArray, (ws.flatMap Bytes.ofWord).length⟩ : Replay) :=
  serves_behind [] ws

end Replay

/-! ## What a machine uses up -/

/-- from one machine to the other these bytes were served, lines logged and draws accepted; the spare is the same -/
structure Machine.Uses (m m' : Machine F σ) (bytes : Nat) (lines : List LogLine) (draws : List (UInt64 × UInt64)) : Prop where
  keepsSpare : m'.keepsSpare = m.keepsSpare
  spare : m'.spare = m.spare
  consumed : m'.consumed = m.consumed + bytes
  log : m'.log = m.log ++ lines
  accepted : m'.accepted = m.accepted ++ draws

/-- the line an accepted draw leaves in the log: none if nothing was redrawn -/
def redrawLines (bound : UInt64) (redraws : UInt32) : List LogLine :=
  if redraws = 0 then [] else [.redrawn bound redraws]

namespace Machine

variable {m m₁ m₂ : Machine F σ} {bytes bytes' : Nat} {lines lines' : List LogLine} {draws draws' : List (UInt64 × UInt64)}

theorem Uses.trans (h : m.Uses m₁ bytes lines draws) (h' : m₁.Uses m₂ bytes' lines' draws') :
    m.Uses m₂ (bytes + bytes') (lines ++ lines') (draws ++ draws') where
  keepsSpare := h'.keepsSpare.trans h.keepsSpare
  spare := h'.spare.trans h.spare
  consumed := by rw [h'.consumed, h.consumed, Nat.add_assoc]
  log := by rw [h'.log, h.log, List.append_assoc]
  accepted := by rw [h'.accepted, h.accepted, List.append_assoc]

theorem uses_record (m : Machine F σ) (x : σ) (es : List (Event F)) :
    m.Uses ({ m with source := x }.record es) (Event.total es) (es.filterMap Event.line?)
      (es.filterMap Event.settled?) where
  keepsSpare := rfl
  spare := rfl
  consumed := consumed_record { m with source := x } es
  log := log_record { m with source := x } es
  accepted := accepted_record { m with source := x } es

theorem uses_served (m : Machine F σ) (x : σ) (log : List LogLine) (b : Bytes) :
    m.Uses ({ m with source := x }.record (log.map Event.logged ++ [Event.served b])) b.length log [] := by
  have hsize : Event.total (log.map Event.logged ++ [Event.served b] : List (Event F)) = b.length := by
    rw [Event.total_append, Event.total_logged, Nat.zero_add]
    rfl
  have hlog : (log.map Event.logged ++ [Event.served b]).filterMap (Event.line? (F := F)) = log := by
    simp [List.filterMap_map, Function.comp_def, Event.line?]
  have hdraws : (log.map Event.logged ++ [Event.served b]).filterMap (Event.settled? (F := F)) = [] := by
    rw [settled_logged_append]
    rfl
  have huses := m.uses_record x (log.map Event.logged ++ [Event.served b])
  rwa [hsize, hlog, hdraws] at huses

theorem uses_settled (m : Machine F σ) (bound value : UInt64) (redraws : UInt32) :
    m.Uses (m.record [.settled bound value redraws]) 0 (redrawLines bound redraws) [(bound, value)] := by
  have huses := m.uses_record m.source [.settled bound value redraws]
  have hlog : [Event.settled bound value redraws].filterMap (Event.line? (F := F)) = redrawLines bound redraws := by
    unfold redrawLines
    by_cases h : redraws = 0
    · subst h
      rfl
    · rw [if_neg h, List.filterMap_cons, Event.line?, if_pos (UInt32.pos_iff_ne_zero.2 h)]
      rfl
  rwa [hlog] at huses

end Machine

/-! ## Loops over words -/

namespace Draw

variable [Entropy σ] [Arith F]

/-- a loop that is given enough tries ends with `a` when it has read `words` words; with fewer tries it runs out of them -/
structure EndsAfter (p : (tries : Nat) → Draw F α) (m : Machine F σ) (words : Nat) (a : α) : Prop where
  value : ∀ tries, words ≤ tries → ∃ m', (p tries).run m = (.value a, m') ∧ m'.consumed = m.consumed + 8 * words
  stuck : ∀ tries, tries < words → ∃ m', (p tries).run m = (.stuck, m') ∧ m'.consumed = m.consumed + 8 * tries

theorem EndsAfter.unique {p : (tries : Nat) → Draw F α} {m : Machine F σ} {words words' : Nat} {a a' : α}
    (h : EndsAfter p m words a) (h' : EndsAfter p m words' a') : words = words' ∧ a = a' := by
  have hnot : ∀ {j k : Nat} {b c : α}, EndsAfter p m j b → EndsAfter p m k c → ¬ j < k := by
    intro j k b c hj hk hlt
    obtain ⟨m₁, hvalue, -⟩ := hj.value j (Nat.le_refl j)
    obtain ⟨m₂, hstuck, -⟩ := hk.stuck j hlt
    rw [hvalue] at hstuck
    cases hstuck
  obtain rfl : words = words' := by
    have hle := hnot h h'
    have hge := hnot h' h
    omega
  obtain ⟨m₁, hvalue, -⟩ := h.value words (Nat.le_refl words)
  obtain ⟨m₂, hvalue', -⟩ := h'.value words (Nat.le_refl words)
  rw [hvalue] at hvalue'
  cases hvalue'
  exact ⟨rfl, rfl⟩

/-- a loop that reads a word with every try and has not ended when it runs out of tries, however many they are -/
def NeverEnds (p : (tries : Nat) → Draw F α) (m : Machine F σ) : Prop :=
  ∀ tries, ∃ m', (p tries).run m = (.stuck, m') ∧ m'.consumed = m.consumed + 8 * tries

theorem NeverEnds.not_endsAfter {p : (tries : Nat) → Draw F α} {m : Machine F σ} (h : NeverEnds p m) (words : Nat) (a : α) :
    ¬ EndsAfter p m words a := by
  intro hends
  obtain ⟨m', hvalue, -⟩ := hends.value words (Nat.le_refl words)
  obtain ⟨m'', hstuck, -⟩ := h words
  rw [hvalue] at hstuck
  cases hstuck

end Draw

/-! ## Drawing the words -/

section
variable [Entropy σ] {m : Machine F σ} {x : σ} {w : UInt64} {log : List LogLine}

theorem Machine.fill_word (h : Entropy.fill m.source 8 = ⟨.ok (Bytes.ofWord w), x, log⟩) :
    ∃ m', m.fill 8 = (.ok (Bytes.ofWord w), m') ∧ m'.source = x ∧ m.Uses m' 8 log [] := by
  have hok : (Entropy.fill m.source 8).outcome = .ok (Bytes.ofWord w) := by rw [h]
  have hdeliver : deliver m.source 8 = ⟨.ok (Bytes.ofWord w), x, log⟩ := by rw [deliver_of_ok (by decide) hok, h]
  have hfill := Machine.fill_of_ok (m := m) (b := Bytes.ofWord w) (n := 8) (by decide) (by rw [hdeliver])
  rw [hdeliver] at hfill
  refine ⟨_, hfill, rfl, ?_⟩
  exact m.uses_served x log (Bytes.ofWord w)

/-- **A word is drawn.** The word the source serves next is handed to the rest of the program. -/
theorem Draw.run_word [Arith F] (h : Entropy.fill m.source 8 = ⟨.ok (Bytes.ofWord w), x, log⟩) (k : UInt64 → Draw F α) :
    ∃ m', ((word : Draw F UInt64).bind k).run m = (k w).run m' ∧ m'.source = x ∧ m.Uses m' 8 log [] := by
  obtain ⟨m', hfill, hsource, huses⟩ := Machine.fill_word h
  refine ⟨m', ?_, hsource, huses⟩
  simp only [word, bind, run, hfill, Bytes.word_ofWord]

/-- **A unit number is drawn.** It is that of the word the source serves next. -/
theorem Draw.run_unit [Arith F] (h : Entropy.fill m.source 8 = ⟨.ok (Bytes.ofWord w), x, log⟩) (k : F → Draw F α) :
    ∃ m', ((unit : Draw F F).bind k).run m = (k (unitOf w)).run m' ∧ m'.source = x ∧ m.Uses m' 8 log [] := by
  rw [unit, map_eq, bind_assoc]
  exact run_word h fun v => k (unitOf v)

end

end Sampling
