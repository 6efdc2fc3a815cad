/-
Exact reads do not show how a script is cut into chunks, nor where it interrupts.

All that can show is the list of bytes and lasting failures of the script (`Script.items`). `exactly n` takes an exact read off such a
list, item by item; `Answers` says what that means. One read of the reader that is no interruption takes off an opening of the list
(`ReadsOff`, `read_readsOff`), reading on passes over interruptions, which are no items (`readPast_readsOff`), and so the loop of
requests comes to what `exactly` says, whichever openings it was given (`readOn_exactly`).

`fills_ignore_chunking`: fills of a source over a script are exact reads off its items; what they take, granted or not, is an
opening of the script's bytes; and scripts with the same items, as after cutting, joining or interrupting, are answered alike.
-/
import Sampling.Source.Locked

namespace Sampling

/-! ## Items -/

/-- what can be read off a script: a byte, or a failure that is no interruption -/
inductive Item where
  | byte (b : UInt8)
  | failure (e : Failure)
deriving DecidableEq, Repr

def Item.byte? : Item → Option UInt8
  | .byte b => some b
  | .failure _ => none

/-- the items of an entry; interruptions have none -/
def ScriptEntry.items : ScriptEntry → List Item
  | .chunk b => b.map .byte
  | .failure e => if e.transient then [] else [.failure e]

namespace Script

/-- no chunk is empty -/
def Filled (s : Script) : Prop := .chunk [] ∉ s

instance (s : Script) : Decidable s.Filled := inferInstanceAs (Decidable (_ ∉ _))

/-- the bytes and lasting failures of a script in order -/
def items (s : Script) : List Item := s.flatMap ScriptEntry.items

variable {s : Script} {e : ScriptEntry}

theorem items_cons (e : ScriptEntry) (s : Script) : items (e :: s) = e.items ++ items s := List.flatMap_cons

theorem items_append (s t : Script) : items (s ++ t) = items s ++ items t := List.flatMap_append

theorem Filled.head (h : Filled (e :: s)) : e ≠ .chunk [] := fun he => h (he ▸ List.mem_cons_self)

theorem Filled.tail (h : Filled (e :: s)) : Filled s := fun hs => h (List.mem_cons_of_mem e hs)

theorem Filled.cons (he : e ≠ .chunk []) (h : Filled s) : Filled (e :: s) := by
  intro hmem
  rcases List.mem_cons.1 hmem with heq | hs
  · exact he heq.symm
  · exact h hs

theorem filterMap_byte (b : Bytes) : (b.map Item.byte).filterMap Item.byte? = b := by
  rw [List.filterMap_map]
  exact List.filterMap_some

theorem filterMap_items (s : Script) : s.items.filterMap Item.byte? = s.bytes := by
  induction s with
  | nil => rfl
  | cons e s ih =>
    rw [items_cons, List.filterMap_append, ih]
    cases e with
    | chunk b =>
      rw [ScriptEntry.items, filterMap_byte]
      rfl
    | failure e => cases he : e.transient <;> simp [ScriptEntry.items, he, Item.byte?, bytes]

end Script

/-! ## Exact reads off items -/

/-- what was written into the buffer, to the end or not -/
def taken : Except Refusal Bytes → Bytes
  | .ok b => b
  | .error e => e.written

/-- the outcome of a read that goes on behind bytes already read -/
def behind (got : Bytes) : Except Refusal Bytes → Except Refusal Bytes
  | .ok b => .ok (got ++ b)
  | .error e => .error ⟨got ++ e.written, e.failure⟩

@[simp] theorem behind_nil (o : Except Refusal Bytes) : behind [] o = o := by
  cases o <;> rfl

@[simp] theorem behind_behind (got b : Bytes) (o : Except Refusal Bytes) : behind got (behind b o) = behind (got ++ b) o := by
  cases o <;> simp [behind]

/-- read exactly `n` bytes off items: the outcome, and the items that are left -/
def exactly : Nat → List Item → Except Refusal Bytes × List Item
  | 0, items => (.ok [], items)
  | _ + 1, [] => (.error ⟨[], .endOfInput⟩, [])
  | _ + 1, .failure e :: items => (.error ⟨[], e⟩, items)
  | n + 1, .byte b :: items => (behind [b] (exactly n items).1, (exactly n items).2)

def exactlyAll : List Nat → List Item → List (Except Refusal Bytes) × List Item
  | [], items => ([], items)
  | n :: ns, items =>
    let rest := exactlyAll ns (exactly n items).2
    ((exactly n items).1 :: rest.1, rest.2)

/-- how an exact read of `n` bytes may end, and what it leaves -/
inductive Answers (n : Nat) : List Item → Except Refusal Bytes → List Item → Prop where
  /-- the next `n` items are bytes -/
  | granted (b : Bytes) (rest : List Item) (full : b.length = n) : Answers n (b.map .byte ++ rest) (.ok b) rest
  /-- fewer than `n` bytes, then a failure, which is used up -/
  | failed (b : Bytes) (e : Failure) (rest : List Item) (short : b.length < n) :
    Answers n (b.map .byte ++ .failure e :: rest) (.error ⟨b, e⟩) rest
  /-- fewer than `n` bytes, then the end -/
  | ended (b : Bytes) (short : b.length < n) : Answers n (b.map .byte) (.error ⟨b, .endOfInput⟩) []

theorem Answers.cons {n : Nat} {items rest : List Item} {o : Except Refusal Bytes} (h : Answers n items o rest) (x : UInt8) :
    Answers (n + 1) (.byte x :: items) (behind [x] o) rest := by
  cases h with
  | granted b _ full => exact .granted (x :: b) rest (congrArg (· + 1) full)
  | failed b e _ short => exact .failed (x :: b) e rest (Nat.succ_lt_succ short)
  | ended b short => exact .ended (x :: b) (Nat.succ_lt_succ short)

/-- **What an exact read off items is.** -/
theorem answers_exactly (n : Nat) (items : List Item) : Answers n items (exactly n items).1 (exactly n items).2 := by
  induction n generalizing items with
  | zero => exact .granted [] items rfl
  | succ n ih =>
    match items with
    | [] => exact .ended [] n.succ_pos
    | .failure e :: items => exact .failed [] e items n.succ_pos
    | .byte x :: items => exact (ih items).cons x

theorem exactly_append (b : Bytes) (n : Nat) (items : List Item) :
    exactly (b.length + n) (b.map .byte ++ items) = (behind b (exactly n items).1, (exactly n items).2) := by
  induction b with
  | nil => simp
  | cons x b ih =>
    rw [List.length_cons, Nat.add_right_comm, List.map_cons, List.cons_append, exactly, ih, behind_behind]
    rfl

/-- an exact read takes the bytes it wrote off the items, and no other byte -/
theorem Answers.bytes_eq {n : Nat} {items rest : List Item} {o : Except Refusal Bytes} (h : Answers n items o rest) :
    items.filterMap Item.byte? = taken o ++ rest.filterMap Item.byte? := by
  cases h with
  | granted b => rw [List.filterMap_append, Script.filterMap_byte, taken]
  | failed b e => rw [List.filterMap_append, Script.filterMap_byte, List.filterMap_cons_none rfl, taken]
  | ended b => rw [Script.filterMap_byte, taken, List.filterMap_nil, List.append_nil]

/-! ## Requests -/

section
variable {ρ : Type} [Reader ρ] {r : ρ} {missing : Nat} {reply : Reply ρ}
  (hreply : readPast (Reader.patience r) r (missing + 1) = reply)
include hreply

theorem readOn_of_bytes {x : UInt8} {b : Bytes} (h : reply.outcome = .ok (x :: b)) {requests : Nat} {got : Bytes}
    {log : List LogLine} :
    readOn (requests + 1) r (missing + 1) got log =
      readOn requests reply.next (missing - b.length) (got ++ x :: b) (log ++ reply.log) := by
  simp only [readOn, hreply, h]

theorem readOn_of_failure {e : Refusal} (h : reply.outcome = .error e) {requests : Nat} {got : Bytes} {log : List LogLine} :
    readOn (requests + 1) r (missing + 1) got log =
      ⟨.error ⟨got ++ e.written, e.failure⟩, reply.next, log ++ reply.log⟩ := by
  simp only [readOn, hreply, h]

theorem readOn_of_end (h : reply.outcome = .ok []) {requests : Nat} {got : Bytes} {log : List LogLine} :
    readOn (requests + 1) r (missing + 1) got log = ⟨.error ⟨got, .endOfInput⟩, reply.next, log ++ reply.log⟩ := by
  simp only [readOn, hreply, h]

end

/-! ## Single reads -/

/-- one read that is no interruption takes off an opening of the items: some bytes, or a failure, or nothing at the end -/
inductive ReadsOff (n : Nat) : List Item → Except Refusal Bytes → List Item → Prop where
  | bytes (x : UInt8) (b : Bytes) (rest : List Item) (fits : (x :: b).length ≤ n) :
    ReadsOff n ((x :: b).map .byte ++ rest) (.ok (x :: b)) rest
  | failure (e : Failure) (rest : List Item) : ReadsOff n (.failure e :: rest) (.error ⟨[], e⟩) rest
  | ended : ReadsOff n [] (.ok []) []

namespace Script

variable {s : Script} {n : Nat}

/-- **One read** is an interruption, which changes no item, or takes off an opening of the items. -/
theorem read_readsOff (hs : s.Filled) (hn : n ≠ 0) :
    (read s n).next.Filled ∧
      if (read s n).interrupted then (read s n).next.items = s.items
      else ReadsOff n s.items (read s n).outcome (read s n).next.items := by
  match s with
  | [] => exact ⟨hs, .ended⟩
  | .failure e :: s =>
    refine ⟨hs.tail, ?_⟩
    rw [items_cons, ScriptEntry.items]
    show if e.transient then _ else _
    split
    · rfl
    · exact .failure e (items s)
  | .chunk b :: s =>
    have hb : b ≠ [] := fun hb => hs.head (congrArg ScriptEntry.chunk hb)
    obtain ⟨x, b', hx⟩ := List.exists_cons_of_ne_nil (l := b.take n) (by simp [hb, hn])
    have hfits : (x :: b').length ≤ n := hx ▸ List.length_take_le n b
    -- what is left of the chunk stays in front, if anything is left
    have hnext : (read (.chunk b :: s) n).next.Filled ∧
        items (.chunk b :: s) = (x :: b').map .byte ++ (read (.chunk b :: s) n).next.items := by
      rw [← hx]
      by_cases hlength : b.length ≤ n
      · rw [read, if_pos hlength, List.take_of_length_le hlength]
        exact ⟨hs.tail, items_cons _ s⟩
      · rw [read, if_neg hlength]
        refine ⟨hs.tail.cons ?_, ?_⟩
        · intro hdrop
          injection hdrop with hdrop
          exact hlength (List.drop_eq_nil_iff.1 hdrop)
        · rw [items_cons, items_cons, ScriptEntry.items, ScriptEntry.items, ← List.append_assoc, ← List.map_append,
            List.take_append_drop]
    refine ⟨hnext.1, ?_⟩
    show ReadsOff n _ (.ok (b.take n)) _
    rw [hnext.2, hx]
    exact .bytes x b' _ hfits

/-- **Reading on past interruptions** takes off an opening of the items. -/
theorem readPast_readsOff {again : Nat} (hs : s.Filled) (hn : n ≠ 0) (hagain : s.countP isInterruption ≤ again) :
    (readPast again s n).next.Filled ∧ ReadsOff n s.items (readPast again s n).outcome (readPast again s n).next.items := by
  induction again generalizing s with
  | zero =>
    obtain ⟨hfilled, hread⟩ := read_readsOff hs hn
    have hcalm : (read s n).interrupted = false := readPast_not_interrupted 0 s n hagain
    rw [hcalm] at hread
    exact ⟨hfilled, hread⟩
  | succ again ih =>
    obtain ⟨hfilled, hread⟩ := read_readsOff hs hn
    have hunfold : readPast (again + 1) s n =
        if (read s n).interrupted then (readPast again (read s n).next n).after (read s n).log else read s n := rfl
    rw [hunfold]
    split at hread
    · rename_i hinterrupted
      have hfewer := interruptions_lt s n hinterrupted
      rw [if_pos hinterrupted, ← hread]
      exact ih hfilled (by omega)
    · rename_i hcalm
      rw [if_neg hcalm]
      exact ⟨hfilled, hread⟩

/-! ## Exact reads -/

/-- **The loop of requests** reads exactly what is missing, behind what it has. -/
theorem readOn_exactly {requests missing : Nat} (hs : s.Filled) (hrequests : missing ≤ requests) (got : Bytes) (log : List LogLine) :
    (readOn requests s missing got log).outcome = behind got (exactly missing s.items).1 ∧
      (readOn requests s missing got log).next.items = (exactly missing s.items).2 ∧
      (readOn requests s missing got log).next.Filled := by
  induction requests generalizing s missing got log with
  | zero =>
    obtain rfl : missing = 0 := by omega
    exact ⟨by simp [readOn, exactly, behind], rfl, hs⟩
  | succ requests ih =>
    cases missing with
    | zero => exact ⟨by simp [readOn, exactly, behind], rfl, hs⟩
    | succ missing =>
      obtain ⟨hfilled, hread⟩ := readPast_readsOff hs missing.succ_ne_zero (Nat.le_refl (s.countP isInterruption))
      generalize hreply : readPast (s.countP isInterruption) s (missing + 1) = reply at hfilled hread
      generalize houtcome : reply.outcome = outcome at hread
      generalize hitems : s.items = items at hread
      generalize hrest : reply.next.items = rest at hread
      cases hread with
      | bytes x b rest fits =>
        have hfit : b.length ≤ missing := Nat.le_of_succ_le_succ fits
        have hsplit : missing + 1 = (x :: b).length + (missing - b.length) := by
          rw [List.length_cons]
          omega
        have hrequests' : missing - b.length ≤ requests := by omega
        obtain ⟨ihoutcome, ihitems, ihfilled⟩ := ih hfilled hrequests' (got ++ x :: b) (log ++ reply.log)
        rw [readOn_of_bytes hreply houtcome, hsplit, exactly_append, behind_behind, ← hrest]
        exact ⟨ihoutcome, ihitems, ihfilled⟩
      | failure e rest =>
        rw [readOn_of_failure hreply houtcome]
        exact ⟨rfl, hrest, hfilled⟩
      | ended =>
        rw [readOn_of_end hreply houtcome]
        exact ⟨by simp [exactly, behind], hrest, hfilled⟩

/-- **A fill is an exact read off the items.** -/
theorem fill_exactly (hs : s.Filled) (n : Nat) :
    (Entropy.fill (Locked.mk s) n).outcome = (exactly n s.items).1 ∧
      (Entropy.fill (Locked.mk s) n).next.reader.items = (exactly n s.items).2 ∧
      (Entropy.fill (Locked.mk s) n).next.reader.Filled := by
  have hread := readOn_exactly hs (Nat.le_refl n) [] []
  rwa [behind_nil] at hread

/-- **So are fills one after the other.** -/
theorem fillAll_exactly (hs : s.Filled) (ns : List Nat) :
    (fillAll (Locked.mk s) ns).1 = (exactlyAll ns s.items).1 ∧
      (fillAll (Locked.mk s) ns).2.reader.items = (exactlyAll ns s.items).2 ∧
      (fillAll (Locked.mk s) ns).2.reader.Filled := by
  induction ns generalizing s with
  | nil => exact ⟨rfl, rfl, hs⟩
  | cons n ns ih =>
    obtain ⟨houtcome, hitems, hfilled⟩ := fill_exactly hs n
    obtain ⟨ihoutcomes, ihitems, ihfilled⟩ := ih hfilled
    rw [hitems] at ihoutcomes ihitems
    refine ⟨?_, ihitems, ihfilled⟩
    calc (fillAll (Locked.mk s) (n :: ns)).1
        = (Entropy.fill (Locked.mk s) n).outcome :: (fillAll (Entropy.fill (Locked.mk s) n).next ns).1 := rfl
      _ = (exactlyAll (n :: ns) s.items).1 := by rw [houtcome, ihoutcomes, exactlyAll]

/-- no byte is lost between fills or taken twice -/
theorem taken_exactlyAll (ns : List Nat) (items : List Item) :
    (exactlyAll ns items).1.flatMap taken ++ (exactlyAll ns items).2.filterMap Item.byte? = items.filterMap Item.byte? := by
  induction ns generalizing items with
  | nil => rfl
  | cons n ns ih =>
    calc (exactlyAll (n :: ns) items).1.flatMap taken ++ (exactlyAll (n :: ns) items).2.filterMap Item.byte?
        = taken (exactly n items).1 ++ (exactly n items).2.filterMap Item.byte? := by
          rw [exactlyAll, List.flatMap_cons, List.append_assoc, ih]
      _ = items.filterMap Item.byte? := (answers_exactly n items).bytes_eq.symm

end Script

open Script in
/-- **Fills of a source over a script do not show how it is cut, nor where it interrupts.** Let no chunk be empty.
- After any fills, a further one is an exact read off the items that are left: it is granted with the next `n` of them if these
  are bytes, else it fails with the first failure, which is then used up, or with the end of the input; interruptions are no items.
- What the fills have taken, those that failed included, and the bytes that are left are together the bytes of the script.
- Another script with the same items is answered alike, fill by fill.
- Cutting a chunk in two, or joining two, and putting in an interruption are such changes. -/
theorem fills_ignore_chunking (s : Script) (hs : s.Filled) :
    (∀ (ns : List Nat) (n : Nat), let z := (fillAll (Locked.mk s) ns).2
      Answers n z.reader.items (Entropy.fill z n).outcome (Entropy.fill z n).next.reader.items) ∧
    (∀ ns : List Nat, (fillAll (Locked.mk s) ns).1.flatMap taken ++ (fillAll (Locked.mk s) ns).2.reader.bytes = s.bytes) ∧
    (∀ t : Script, t.Filled → t.items = s.items → ∀ ns : List Nat, (fillAll (Locked.mk t) ns).1 = (fillAll (Locked.mk s) ns).1) ∧
    (∀ (front back : Script) (b b' : Bytes), b ≠ [] → b' ≠ [] → s = front ++ .chunk (b ++ b') :: back →
      ∀ ns : List Nat, (fillAll (Locked.mk (front ++ .chunk b :: .chunk b' :: back)) ns).1 = (fillAll (Locked.mk s) ns).1) ∧
    ∀ (front back : Script) (e : Failure), e.transient = true → s = front ++ back →
      ∀ ns : List Nat, (fillAll (Locked.mk (front ++ .failure e :: back)) ns).1 = (fillAll (Locked.mk s) ns).1 := by
  have halike : ∀ t : Script, t.Filled → t.items = s.items →
      ∀ ns : List Nat, (fillAll (Locked.mk t) ns).1 = (fillAll (Locked.mk s) ns).1 := by
    intro t ht hitems ns
    rw [(fillAll_exactly ht ns).1, (fillAll_exactly hs ns).1, hitems]
  refine ⟨?_, ?_, halike, ?_, ?_⟩
  · intro ns n z
    obtain ⟨-, -, hz⟩ := fillAll_exactly hs ns
    obtain ⟨houtcome, hitems, -⟩ := fill_exactly hz n
    show Answers n z.reader.items (Entropy.fill (Locked.mk z.reader) n).outcome (Entropy.fill (Locked.mk z.reader) n).next.reader.items
    rw [houtcome, hitems]
    exact answers_exactly n z.reader.items
  · intro ns
    obtain ⟨houtcomes, hitems, -⟩ := fillAll_exactly hs ns
    rw [← filterMap_items, ← filterMap_items, houtcomes, hitems]
    exact taken_exactlyAll ns s.items
  · rintro front back b b' hb hb' rfl
    apply halike
    · simp_all [Filled]
    · simp [items_append, items_cons, ScriptEntry.items]
  · rintro front back e he rfl
    apply halike
    · simp_all [Filled]
    · simp [items_append, items_cons, ScriptEntry.items, he]

/-- four fills across two chunks and a failure, the last two of them refused; the same with one chunk cut where a fill ends, and with
pieces of one byte and interruptions between them -/
theorem fills_ignore_chunking_cut_and_interrupted :
    let broken : Failure := ⟨.brokenPipe, "source unplugged"⟩
    let interruption : Failure := ⟨.interrupted, "try again"⟩
    let s : Script := [.chunk [1, 2, 3, 4, 5], .failure broken, .chunk [6]]
    let cut : Script := [.chunk [1, 2], .chunk [3, 4, 5], .failure broken, .chunk [6]]
    let pieces : Script := [.chunk [1], .failure interruption, .failure interruption, .chunk [2], .chunk [3, 4, 5],
      .failure interruption, .failure broken, .chunk [6]]
    (s.Filled ∧ pieces.Filled) ∧
      (fillAll (Locked.mk s) [2, 2, 2, 2]).1 = [.ok [1, 2], .ok [3, 4], .error ⟨[5], broken⟩, .error ⟨[6], .endOfInput⟩] ∧
      (fillAll (Locked.mk cut) [2, 2, 2, 2]).1 = (fillAll (Locked.mk s) [2, 2, 2, 2]).1 ∧
      (fillAll (Locked.mk pieces) [2, 2, 2, 2]).1 = (fillAll (Locked.mk s) [2, 2, 2, 2]).1 := by
  intro broken interruption s cut pieces
  have hs : s.Filled := by decide
  have hpieces : pieces.Filled := by decide
  obtain ⟨-, -, halike, hcut, -⟩ := fills_ignore_chunking s hs
  refine ⟨⟨hs, hpieces⟩, ?_, ?_, ?_⟩
  · exact (Script.fillAll_exactly hs [2, 2, 2, 2]).1
  · exact hcut [] [.failure broken, .chunk [6]] [1, 2] [3, 4, 5] (by decide) (by decide) rfl [2, 2, 2, 2]
  · exact halike pieces hpieces (by decide) [2, 2, 2, 2]

end Sampling
