/-
A seeded source delivers one keystream, however it is cut into fills.

The reader's position carries everything: after `n` bytes the next word to compute is the first that starts at `n` or later, and
the carry is what lies between `n` and that word (`Keystream.after`). `read_after` moves the position by one read, whatever
its length; `fillAll_after` by any list of fills.

`fills_deliver_keystream`: the buffers of any list of fills, put together, are the opening of the keystream, and sources read in
different cuts of one total are the same from there on.
-/
import Mathlib.Tactic.Ring
import Sampling.Source.Seeded

namespace Sampling

/-- the bytes of granted fills, in order -/
def delivered (outcomes : List (Except Refusal Bytes)) : Bytes :=
  outcomes.flatMap fun
    | .ok b => b
    | .error _ => []

@[simp] theorem delivered_map_ok (buffers : List Bytes) : delivered (buffers.map .ok) = buffers.flatten := by
  simp [delivered, List.flatMap_map, List.flatMap_id']

/-! ## Slices -/

namespace ChaCha.Stream

variable (s : Stream)

theorem take_slice (start : Nat) {k count : Nat} (h : k ≤ count) : (s.slice start count).take k = s.slice start k := by
  obtain ⟨rest, rfl⟩ := Nat.exists_eq_add_of_le h
  rw [← slice_append]
  exact List.take_left' (length_slice s start k)

theorem drop_slice (start : Nat) {k count : Nat} (h : k ≤ count) :
    (s.slice start count).drop k = s.slice (start + k) (count - k) := by
  obtain ⟨rest, rfl⟩ := Nat.exists_eq_add_of_le h
  rw [← slice_append, Nat.add_sub_cancel_left]
  exact List.drop_left' (length_slice s start k)

/-- the bytes of a word are the slice of its four positions -/
theorem ofHalf_word (i : Nat) : Bytes.ofHalf (s.word i) = s.slice (4 * i) 4 := by
  apply List.ext_getElem
  · simp
  · intro j hj _
    have hj4 : j < 4 := by simpa using hj
    have hdiv : (4 * i + j) / 4 = i := by omega
    have hmod : (4 * i + j) % 4 = j := by omega
    simp [slice, byte, hdiv, hmod, hj4]

theorem words_eq_slice (first count : Nat) : Keystream.words s first count = s.slice (4 * first) (4 * count) := by
  induction count generalizing first with
  | zero => rfl
  | succ count ih =>
    have hw : Keystream.words s first (count + 1) = Bytes.ofHalf (s.word first) ++ Keystream.words s (first + 1) count := by
      simp [Keystream.words, List.range'_succ]
    rw [hw, ih, ofHalf_word, show 4 * (first + 1) = 4 * first + 4 by ring, slice_append]
    congr 1
    omega

end ChaCha.Stream

/-! ## Positions of a reader -/

namespace Keystream

/-- the reader of a stream that has delivered its first `n` bytes -/
def after (stream : ChaCha.Stream) (n : Nat) : Keystream where
  stream := stream
  next := (n + 3) / 4
  carry := stream.slice n (4 * ((n + 3) / 4) - n)

theorem ofSeed_eq_after (seed label : Bytes) : ofSeed seed label = after (Derivation.keystream seed label) 0 := rfl

theorem read_of_le (k : Keystream) (m : Nat) (h : m ≤ k.carry.length) :
    k.read m = (k.carry.take m, { k with carry := k.carry.drop m }) := by
  have hlen : (k.carry.take m).length = m := by simp [h]
  simp [read, hlen, words]

/-- a read that goes on behind the carry: whole words, then the opening of one more -/
theorem read_of_ge (k : Keystream) (m whole split : Nat) (hs : split < 4) (h : m = k.carry.length + (4 * whole + split)) :
    k.read m = (k.carry ++ words k.stream k.next whole ++ (Bytes.ofHalf (k.stream.word (k.next + whole))).take split,
      if split = 0 then { k with next := k.next + whole, carry := [] }
      else { k with
        next := k.next + whole + 1, carry := (Bytes.ofHalf (k.stream.word (k.next + whole))).drop split }) := by
  have hkept : k.carry.take m = k.carry := List.take_of_length_le (by omega)
  have hdrop : k.carry.drop m = [] := List.drop_eq_nil_of_le (by omega)
  have hwhole : (m - k.carry.length) / 4 = whole := by omega
  have hsplit : (m - k.carry.length) % 4 = split := by omega
  simp only [read, hkept, hdrop, hwhole, hsplit]
  split_ifs with h0
  · simp [h0]
  · rfl

/-- **One read moves the position by its length** and delivers the slice it passes over. -/
theorem read_after (stream : ChaCha.Stream) (n m : Nat) :
    (after stream n).read m = (stream.slice n m, after stream (n + m)) := by
  have hlen : (after stream n).carry.length = 4 * ((n + 3) / 4) - n := by simp [after]
  by_cases h : m ≤ (after stream n).carry.length
  · have hnext : (n + m + 3) / 4 = (n + 3) / 4 := by omega
    rw [read_of_le _ _ h]
    rw [hlen] at h
    simp only [after, hnext, stream.take_slice n h, stream.drop_slice n h]
    congr 3
    omega
  · -- the read passes the carry and `whole` words and ends `split` bytes into word `w`
    obtain ⟨whole, split, hs, hm⟩ : ∃ whole split, split < 4 ∧ m = (after stream n).carry.length + (4 * whole + split) :=
      ⟨(m - (after stream n).carry.length) / 4, (m - (after stream n).carry.length) % 4, by omega, by omega⟩
    rw [read_of_ge _ _ whole split hs hm]
    obtain ⟨w, hw⟩ : ∃ w, w = (n + 3) / 4 + whole := ⟨_, rfl⟩
    have hend : n + m = 4 * w + split := by omega
    have hword : (after stream n).next + whole = w := hw.symm
    simp only [hword]
    refine Prod.ext ?_ ?_
    · have hbody : (after stream n).carry ++ Keystream.words stream (after stream n).next whole =
          stream.slice n (4 * w - n) := by
        have hstart : 4 * ((n + 3) / 4) = n + (4 * ((n + 3) / 4) - n) := by omega
        simp only [after]
        rw [stream.words_eq_slice, hstart, Nat.add_sub_cancel_left, stream.slice_append]
        congr 1
        omega
      have hsplit : (Bytes.ofHalf (stream.word w)).take split = stream.slice (n + (4 * w - n)) split := by
        rw [stream.ofHalf_word, stream.take_slice _ (by omega)]
        congr 1
        omega
      show (after stream n).carry ++ Keystream.words stream (after stream n).next whole ++
        (Bytes.ofHalf (stream.word w)).take split = stream.slice n m
      rw [hbody, hsplit, stream.slice_append]
      congr 1
      omega
    · split_ifs with h0
      · have hnext : (n + m + 3) / 4 = w := by omega
        have hcarry : 4 * w - (n + m) = 0 := by omega
        simp [after, hnext, hcarry, ChaCha.Stream.slice]
      · have hnext : (n + m + 3) / 4 = w + 1 := by omega
        have hcarry : 4 * (w + 1) - (n + m) = 4 - split := by omega
        have hrest : (Bytes.ofHalf (stream.word w)).drop split = stream.slice (n + m) (4 - split) := by
          rw [stream.ofHalf_word, stream.drop_slice _ (Nat.le_of_lt hs), hend]
        simp only [after, hnext, hcarry, hrest]

end Keystream

/-! ## Runs of fills -/

/-- the slices a list of fills cuts a stream into, from a position on -/
def ChaCha.Stream.cut (s : ChaCha.Stream) : (start : Nat) → List Nat → List Bytes
  | _, [] => []
  | start, n :: ns => s.slice start n :: s.cut (start + n) ns

namespace ChaCha.Stream

variable (s : Stream)

theorem lengths_cut (start : Nat) (ns : List Nat) : (s.cut start ns).map List.length = ns := by
  induction ns generalizing start with
  | nil => rfl
  | cons n ns ih => simp [cut, ih]

theorem flatten_cut (start : Nat) (ns : List Nat) : (s.cut start ns).flatten = s.slice start ns.sum := by
  induction ns generalizing start with
  | nil => rfl
  | cons n ns ih => rw [cut, List.flatten_cons, ih, slice_append, List.sum_cons]

end ChaCha.Stream

theorem Keystream.fillAll_after (stream : ChaCha.Stream) (n : Nat) (ns : List Nat) :
    fillAll (after stream n) ns = ((stream.cut n ns).map .ok, after stream (n + ns.sum)) := by
  induction ns generalizing n with
  | nil => rfl
  | cons m ns ih =>
    have hfill : Entropy.fill (after stream n) m = ⟨.ok (stream.slice n m), after stream (n + m), []⟩ := by
      show Keystream.fill (after stream n) m = _
      simp only [Keystream.fill, read_after]
    simp only [fillAll, hfill, ih, ChaCha.Stream.cut, List.map_cons, List.sum_cons, Nat.add_assoc]

/-- **A seeded source delivers its keystream, however it is cut.** Every fill of every list of fills is granted with a buffer of
the length asked for, and the buffers put together are the opening of the keystream of the seed and label; two sources of one
seed and label that were read in different cuts of the same total have delivered the same bytes, and answer every further
list of fills alike. -/
theorem fills_deliver_keystream (seed label : Bytes) (ns : List Nat) :
    (∃ buffers : List Bytes, (fillAll (Keystream.ofSeed seed label) ns).1 = buffers.map .ok ∧
      buffers.map List.length = ns ∧ buffers.flatten = (Derivation.keystream seed label).slice 0 ns.sum) ∧
    ∀ ms : List Nat, ms.sum = ns.sum →
      delivered (fillAll (Keystream.ofSeed seed label) ms).1 = delivered (fillAll (Keystream.ofSeed seed label) ns).1 ∧
      ∀ later, fillAll (fillAll (Keystream.ofSeed seed label) ms).2 later =
        fillAll (fillAll (Keystream.ofSeed seed label) ns).2 later := by
  have hrun : ∀ ls, fillAll (Keystream.ofSeed seed label) ls =
      (((Derivation.keystream seed label).cut 0 ls).map .ok, Keystream.after (Derivation.keystream seed label) (0 + ls.sum)) :=
    fun ls => by rw [Keystream.ofSeed_eq_after, Keystream.fillAll_after]
  refine ⟨⟨(Derivation.keystream seed label).cut 0 ns, ?_, ?_, ?_⟩, fun ms hms => ⟨?_, fun later => ?_⟩⟩
  · rw [hrun]
  · exact ChaCha.Stream.lengths_cut _ 0 ns
  · exact ChaCha.Stream.flatten_cut _ 0 ns
  · rw [hrun, hrun, delivered_map_ok, delivered_map_ok, ChaCha.Stream.flatten_cut, ChaCha.Stream.flatten_cut, hms]
  · rw [hrun, hrun, hms]

/-- a hundred bytes at once and in two odd pieces -/
theorem fills_deliver_keystream_hundred :
    [100].sum = [37, 63].sum ∧
    delivered (fillAll (Keystream.ofSeed (Bytes.ofText "chunks") []) [100]).1 =
      delivered (fillAll (Keystream.ofSeed (Bytes.ofText "chunks") []) [37, 63]).1 :=
  ⟨by decide, ((fills_deliver_keystream (Bytes.ofText "chunks") [] [37, 63]).2 [100] (by decide)).1⟩

end Sampling
