/-
A replay serves its script, then its last byte, however it is cut into fills.

The position carries everything. `Replay.ahead` is a stretch of the supply in front of the position; a fill hands out the stretch of
its length and moves on (`fill_eq`), and moves add up (`after_after`), although the position stops at the end of the script. Both
statements hold of fills that start before that end and stop behind it, so lists of fills need no cases (`fillAll_eq`).

Read in words, a replay serves `wordAt 0, wordAt 1, …` without end (`serves_after`). From the end of the script on it is one word,
eight copies of the last byte (`wordAt_of_le`).

`replay_serves_script`: every byte of every list of fills, and every word that a generator over a replay of words draws.
-/
import Mathlib.Algebra.GroupWithZero.Nat
import Sampling.Arith.Binary64
import Sampling.Proofs.SessionStep
import Sampling.Proofs.WordStream

namespace Sampling

variable {F σ : Type}

/-! ## Bytes -/

namespace Replay

/-- how many bytes of the script have not been served -/
def unread (r : Replay) : Nat := r.script.size - r.consumed

/-- the replay that has served `n` more bytes; repeated bytes are not counted -/
def after (r : Replay) (n : Nat) : Replay := { r with consumed := r.consumed + min n r.unread }

/-- the stretch of the supply that starts `start` bytes in front of the position -/
def ahead (r : Replay) (start count : Nat) : Bytes := (List.range' (r.consumed + start) count).map (byteAt r.script)

@[simp] theorem length_ahead (r : Replay) (start count : Nat) : (r.ahead start count).length = count := by
  simp [ahead]

@[simp] theorem after_zero (r : Replay) : r.after 0 = r := by
  simp [after]

theorem byteAt_of_le {script : Array UInt8} {i : Nat} (h : script.size ≤ i) : byteAt script i = last script := by
  simp [byteAt, Array.getD, Nat.not_lt.2 h]

/-- byte `i` of the supply is the script's byte there, or its last one, or zero if there is none -/
theorem byteAt_eq (script : Array UInt8) (i : Nat) : byteAt script i = script.getD (min i (script.size - 1)) 0 := by
  rcases Nat.lt_or_ge i script.size with h | h
  · have hmin : min i (script.size - 1) = i := by omega
    simp [byteAt, hmin, Array.getD, h]
  · have hmin : min i (script.size - 1) = script.size - 1 := by omega
    rw [byteAt_of_le h, hmin, last, Array.back?, Array.getD_eq_getD_getElem?]

theorem after_after (r : Replay) (j k : Nat) : (r.after j).after k = r.after (j + k) := by
  have hmoved : r.consumed + min j r.unread + min k (r.script.size - (r.consumed + min j r.unread)) =
      r.consumed + min (j + k) r.unread := by
    unfold unread
    omega
  simp only [after, unread] at hmoved ⊢
  rw [hmoved]

/-- moving on shifts what is ahead; that the position stops at the end of the script does not show -/
theorem ahead_after (r : Replay) (k start count : Nat) : (r.after k).ahead start count = r.ahead (k + start) count := by
  have hscript : (r.after k).script = r.script := rfl
  apply List.ext_getElem
  · simp
  · intro i hi _
    simp only [ahead, List.getElem_map, List.getElem_range', hscript]
    rcases Nat.le_total k r.unread with h | h
    · congr 1
      simp only [after]
      omega
    · have hsize : r.script.size ≤ (r.after k).consumed := by
        simp only [after, unread] at h ⊢
        omega
      have hsize' : r.script.size ≤ r.consumed + k := by
        unfold unread at h
        omega
      rw [byteAt_of_le (by omega), byteAt_of_le (by omega)]

theorem ahead_append (r : Replay) (start m n : Nat) : r.ahead start m ++ r.ahead (start + m) n = r.ahead start (m + n) := by
  rw [ahead, ahead, ahead, ← List.map_append, ← Nat.add_assoc, List.range'_append_1]

/-- **One fill hands out the stretch of its length and moves on by it.** -/
theorem fill_eq (r : Replay) (n : Nat) : Entropy.fill r n = ⟨.ok (r.ahead 0 n), r.after n, []⟩ := by
  have hlength : (r.script.extract r.consumed (r.consumed + n)).toList.length = min n r.unread := by
    rw [Array.length_toList, Array.size_extract, unread]
    omega
  have hbytes : (r.script.extract r.consumed (r.consumed + n)).toList ++
      List.replicate (n - min n r.unread) (last r.script) = r.ahead 0 n := by
    apply List.ext_getElem
    · rw [List.length_append, List.length_replicate, hlength, length_ahead]
      omega
    · intro i hi hn
      rw [length_ahead] at hn
      simp only [ahead, List.getElem_map, List.getElem_range', Nat.one_mul, Nat.add_zero]
      rw [List.getElem_append]
      split
      · rename_i hin
        rw [hlength, unread] at hin
        have hsize : r.consumed + i < r.script.size := by omega
        simp [byteAt, Array.getD, hsize]
      · rename_i hout
        rw [hlength, unread] at hout
        rw [List.getElem_replicate, byteAt_of_le (by omega)]
  show Replay.fill r n = _
  simp only [fill, hlength, hbytes, after]

/-- **A list of fills** is granted, fill by fill, and the buffers put together are the stretch of their total length. -/
theorem fillAll_eq (r : Replay) (ns : List Nat) :
    ∃ buffers : List Bytes, fillAll r ns = (buffers.map .ok, r.after ns.sum) ∧ buffers.map List.length = ns ∧
      buffers.flatten = r.ahead 0 ns.sum := by
  induction ns generalizing r with
  | nil => exact ⟨[], by simp [fillAll], rfl, by simp [ahead]⟩
  | cons n ns ih =>
    obtain ⟨buffers, hfills, hlengths, hflatten⟩ := ih (r.after n)
    refine ⟨r.ahead 0 n :: buffers, ?_, ?_, ?_⟩
    · simp only [fillAll, fill_eq, hfills, after_after, List.map_cons, List.sum_cons]
    · simp [hlengths]
    · calc (r.ahead 0 n :: buffers).flatten = r.ahead 0 n ++ r.ahead (0 + n) ns.sum := by
            rw [List.flatten_cons, hflatten, ahead_after, Nat.add_zero, Nat.zero_add]
        _ = r.ahead 0 (n :: ns).sum := by rw [ahead_append, List.sum_cons]

/-! ## Words -/

/-- the word that starts `8 * j` bytes in front of the position -/
def wordAt (r : Replay) (j : Nat) : UInt64 := Bytes.word (r.ahead (8 * j) 8)

def echo (b : UInt8) : UInt64 := Bytes.word (List.replicate 8 b)

theorem wordAt_after (r : Replay) (j k : Nat) : (r.after (8 * k)).wordAt j = r.wordAt (k + j) := by
  rw [wordAt, wordAt, ahead_after, Nat.mul_add]

theorem wordAt_of_le {r : Replay} {j : Nat} (h : r.unread ≤ 8 * j) : r.wordAt j = echo (last r.script) := by
  have hbytes : r.ahead (8 * j) 8 = List.replicate 8 (last r.script) := by
    rw [List.eq_replicate_iff]
    refine ⟨length_ahead r _ 8, ?_⟩
    intro b hb
    obtain ⟨i, hi, rfl⟩ := List.mem_map.1 hb
    rw [List.mem_range'_1] at hi
    unfold unread at h
    exact byteAt_of_le (by omega)
  rw [wordAt, hbytes, echo]

theorem fill_wordAt (r : Replay) : Entropy.fill r 8 = ⟨.ok (Bytes.ofWord (r.wordAt 0)), r.after 8, []⟩ := by
  rw [fill_eq, wordAt, Nat.mul_zero, Bytes.ofWord_word (length_ahead r 0 8)]

/-- **A replay never runs out of words.** -/
theorem serves_after (r : Replay) (k : Nat) : Serves r ((List.range k).map r.wordAt) [] (r.after (8 * k)) := by
  induction k generalizing r with
  | zero =>
    rw [Nat.mul_zero, after_zero]
    exact .nil r
  | succ k ih =>
    have hrest := ih (r.after (8 * 1))
    have hwords : (List.range k).map (r.after (8 * 1)).wordAt = (List.range k).map fun j => r.wordAt (j + 1) := by
      apply List.map_congr_left
      intro j _
      rw [wordAt_after, Nat.add_comm]
    rw [hwords, after_after, ← Nat.mul_add, Nat.add_comm 1 k] at hrest
    rw [List.range_succ_eq_map, List.map_cons, List.map_map]
    exact .cons (fill_wordAt r) hrest

theorem servesAll_wordAt (r : Replay) : ServesAll r r.wordAt := fun k => ⟨_, _, r.serves_after k⟩

end Replay

/-! ## Replays of words -/

theorem Serves.unique [Entropy σ] {x y y' : σ} {ws ws' : List UInt64} {lines lines' : List LogLine} (h : Serves x ws lines y)
    (h' : Serves x ws' lines' y') (hlength : ws.length = ws'.length) : ws = ws' := by
  induction h generalizing ws' lines' y' with
  | nil x => exact (List.length_eq_zero_iff.1 hlength.symm).symm
  | cons first rest ih =>
    cases h' with
    | nil => cases hlength
    | cons first' rest' =>
      rw [first] at first'
      injection first' with hoffered hnext
      injection hoffered with hoffered
      subst hnext
      have hword := congrArg Bytes.word hoffered
      rw [Bytes.word_ofWord, Bytes.word_ofWord] at hword
      rw [hword, ih rest' (Nat.succ.inj hlength)]

namespace Replay

def topByte (w : UInt64) : UInt8 := (w >>> 56).toUInt8

theorem getLast?_ofWord (w : UInt64) : (Bytes.ofWord w).getLast? = some (topByte w) := by
  have htop : (UInt8.ofNat (w.toNat / 256 / 256 / 256 / 256 / 256 / 256 / 256)) = topByte w := by
    have hshift : (w >>> 56).toNat = w.toNat / 2 ^ 56 := by
      rw [UInt64.toNat_shiftRight, Nat.shiftRight_eq_div_pow]
      rfl
    have hdiv : w.toNat / 256 / 256 / 256 / 256 / 256 / 256 / 256 = w.toNat / 2 ^ 56 := by omega
    rw [← UInt8.toNat_inj, topByte, UInt64.toNat_toUInt8, hshift, UInt8.toNat_ofNat', hdiv]
  rw [← htop]
  rfl

/-- the byte that repeats after words is the most significant one of the last word -/
theorem last_ofWords (ws : List UInt64) : last (ofWords ws).script = topByte (ws.getLast?.getD 0) := by
  rcases List.eq_nil_or_concat ws with rfl | ⟨front, w, rfl⟩
  · rfl
  · rw [List.concat_eq_append, ofWords, last, List.back?_toArray, List.flatMap_append, List.flatMap_singleton, List.getLast?_append,
      getLast?_ofWord, List.getLast?_concat]
    rfl

/-- **The words of a replay of words** are these words, then the echo of the most significant byte of the last one. -/
theorem wordAt_ofWords (ws : List UInt64) (i : Nat) :
    (ofWords ws).wordAt i = ws.getD i (echo (topByte (ws.getLast?.getD 0))) := by
  rcases Nat.lt_or_ge i ws.length with hi | hi
  · have hserved := (serves_after (ofWords ws) ws.length).unique (serves_ofWords ws) (by simp)
    have hword : ((List.range ws.length).map (ofWords ws).wordAt)[i]? = ws[i]? := by rw [hserved]
    rw [List.getElem?_map, List.getElem?_range hi, Option.map_some] at hword
    rw [List.getD_eq_getElem?_getD, ← hword, Option.getD_some]
  · have hsize : (ofWords ws).unread = 8 * ws.length := by
      show (ws.flatMap Bytes.ofWord).toArray.size - 0 = 8 * ws.length
      simp [List.length_flatMap, List.map_const', Nat.mul_comm]
    rw [wordAt_of_le (by omega), last_ofWords, List.getD_eq_getElem?_getD, List.getElem?_eq_none hi, Option.getD_none]

end Replay

/-! ## Drawing the words -/

section
variable [Arith F] {s : Session F Replay} {g : Nat} {gen : Generator F} {r : Replay}

/-- one word drawn: the next word of the replay, which moves on by eight bytes; the generator stays as it is -/
theorem Session.step_word (hg : s.generators[g]? = some gen) (hr : s.sources[gen.source]? = some r) (strict : Bool) :
    (s.step (.call g strict .word)).1 = { ending := .value (.integer (r.wordAt 0).toNat) } ∧
      (s.step (.call g strict .word)).2.generators[g]? = some gen ∧
      (s.step (.call g strict .word)).2.sources[gen.source]? = some (r.after 8) := by
  obtain ⟨m', hrun, hsource, huses⟩ := Draw.run_word (m := gen.machine r) r.fill_wordAt
    fun w => (.done (.integer w.toNat) : Draw F (Value F))
  have hprogram : (Call.word.program gen.clock gen.tries : Draw F (Value F)) =
      Draw.word.bind fun w => .done (.integer w.toNat) := rfl
  rw [← hprogram, Draw.run] at hrun
  have hspare : m'.spare = gen.spare := huses.spare
  rw [Session.step_call hg hr, hrun]
  refine ⟨rfl, ?_, ?_⟩
  · rw [Session.generators_keep_self hg, hspare]
  · obtain ⟨hlt, -⟩ := Array.getElem?_eq_some_iff.1 hr
    rw [← hsource]
    exact Array.getElem?_setIfInBounds_self_of_lt hlt

theorem Session.run_words (hg : s.generators[g]? = some gen) (hr : s.sources[gen.source]? = some r) (strict : Bool) (k : Nat) :
    (s.run (List.replicate k (.call g strict .word))).1 =
      (List.range k).map fun i => { ending := .value (.integer (r.wordAt i).toNat) } := by
  induction k generalizing s r with
  | zero => rfl
  | succ k ih =>
    obtain ⟨hanswer, hg', hr'⟩ := Session.step_word hg hr strict
    have hwords : ∀ i, (r.after 8).wordAt i = r.wordAt (i + 1) := by
      intro i
      rw [Nat.add_comm, ← Replay.wordAt_after]
    have hrest := ih hg' hr'
    simp only [hwords] at hrest
    rw [List.replicate_succ, List.range_succ_eq_map, List.map_cons, List.map_map]
    simp only [Session.run, hanswer, hrest, Function.comp_def, Nat.succ_eq_add_one]

end

/-- **A replay serves its script, then its last byte.**
- Every fill of every list of fills is granted with the length asked for. Byte `i`, counted over all of them, is byte `i` of the
  script, or the script's last byte from there on, or zero if the script is empty; and the bytes counted as served are as many as
  were asked for in all, up to the length of the script. So it is after each of the fills.
- A generator over the replay of a list of words draws these words in order and after them, without end, eight copies of the most
  significant byte of the last one, or zero if there is none. -/
theorem replay_serves_script [Arith F] (script : Array UInt8) (ns : List Nat) :
    (∃ buffers : List Bytes, fillAll ({ script } : Replay) ns =
        (buffers.map .ok, { script, consumed := min ns.sum script.size }) ∧ buffers.map List.length = ns ∧
      ∀ i < ns.sum, buffers.flatten[i]? = some (script.getD (min i (script.size - 1)) 0)) ∧
    ∀ (ws : List UInt64) (s : Session F Replay) (g : Nat) (gen : Generator F), s.generators[g]? = some gen →
      s.sources[gen.source]? = some (.ofWords ws) → ∀ (strict : Bool) (k : Nat),
      (s.run (List.replicate k (.call g strict .word))).1 = (List.range k).map fun i =>
        { ending := .value (.integer (ws.getD i (Replay.echo (Replay.topByte (ws.getLast?.getD 0)))).toNat) } := by
  refine ⟨?_, ?_⟩
  · obtain ⟨buffers, hfills, hlengths, hflatten⟩ := Replay.fillAll_eq { script } ns
    have hmoved : ({ script } : Replay).after ns.sum = { script, consumed := min ns.sum script.size } := by
      simp [Replay.after, Replay.unread]
    refine ⟨buffers, hmoved ▸ hfills, hlengths, ?_⟩
    intro i hi
    simp [hflatten, Replay.ahead, Replay.byteAt_eq, hi]
  · intro ws s g gen hg hr strict k
    rw [Session.run_words hg hr strict k]
    simp only [Replay.wordAt_ofWords]

/-- four fills across the end of three bytes; two words, then the top byte of the second one eight times -/
theorem replay_serves_script_to_the_end :
    let gen : Generator Float := { source := 0, keepsSpare := true, tries := 1 }
    let s : Session Float Replay := { sources := #[.ofWords [7, 0x8100000000000000]], generators := #[gen] }
    (∃ buffers : List Bytes, fillAll ({ script := #[1, 2, 3] } : Replay) [2, 0, 2, 1] =
        (buffers.map .ok, { script := #[1, 2, 3], consumed := 3 }) ∧ buffers.flatten[4]? = some 3) ∧
      (s.generators[0]? = some gen ∧ s.sources[gen.source]? = some (.ofWords [7, 0x8100000000000000])) ∧
      (s.run (List.replicate 4 (.call 0 false .word))).1 =
        [7, 0x8100000000000000, 0x8181818181818181, 0x8181818181818181].map fun z => { ending := .value (.integer z) } := by
  intro gen s
  obtain ⟨⟨buffers, hfills, -, hbytes⟩, hwords⟩ := replay_serves_script (F := Float) #[1, 2, 3] [2, 0, 2, 1]
  refine ⟨⟨buffers, hfills, ?_⟩, ⟨rfl, rfl⟩, ?_⟩
  · exact hbytes 4 (by decide)
  · exact hwords [7, 0x8100000000000000] s 0 gen rfl rfl false 4

end Sampling
