/-
Zeros and ones in the pre-test of the runs test.

The runs test stops early if the share of ones is too far from one half. Turning every bit over (`complement`) turns the imbalance of
ones and zeros around (`imbalance_complement`), so by the exact criterion, that its square is at least 16 times the number of bits, a
byte string and its complement stop early together. In binary64, below `2 ^ 33` bits, they do off the threshold and need not on it: there
the two shares are rounded at different places (`stopsEarly_up_to_rounding`).
-/
import Sampling.Proofs.Share
import Sampling.Proofs.Verdicts

namespace Sampling.Battery

open Binary64

/-! ## Complements -/

def complement (data : Bytes) : Bytes := data.map (~~~ ·)

theorem testBit_not (x : UInt8) {shift : ℕ} (h : shift < 8) : (~~~x).toNat.testBit shift = !x.toNat.testBit shift := by
  have hbits : (~~~x.toBitVec).getLsbD shift = (decide (shift < 8) && !x.toBitVec.getLsbD shift) := BitVec.getLsbD_not
  rwa [decide_eq_true h, Bool.true_and] at hbits

theorem bitsOfByte_not (x : UInt8) : bitsOfByte (~~~x) = (bitsOfByte x).map not := by
  rw [bitsOfByte, bitsOfByte, List.map_map]
  refine List.map_congr_left fun shift hshift => testBit_not x ?_
  simp only [List.mem_cons, List.not_mem_nil, or_false] at hshift
  omega

theorem bits_complement (data : Bytes) : bits (complement data) = (bits data).map not := by
  simp [bits, complement, List.flatMap_map, List.map_flatMap, bitsOfByte_not]

@[simp] theorem length_bits_complement (data : Bytes) : (bits (complement data)).length = (bits data).length := by
  simp [bits_complement]

theorem ones_add_ones_complement (data : Bytes) : ones (bits data) + ones (bits (complement data)) = (bits data).length := by
  rw [bits_complement, ones, ones, List.countP_map, List.length_eq_countP_add_countP id]
  exact congrArg _ (List.countP_congr fun b _ => by simp)

/-- **Complements turn the imbalance around.** -/
theorem imbalance_complement (data : Bytes) :
    imbalance (ones (bits (complement data))) (bits data).length = -imbalance (ones (bits data)) (bits data).length := by
  have hsum := ones_add_ones_complement data
  unfold imbalance
  omega

/-! ## Stopping early -/

/-- the runs test reports the share of ones and counts no runs -/
def StopsEarly (t : Tails Float) (data : Bytes) : Prop := ∃ v proportion, runs t data = some v ∧ v.details = .proportion proportion

section
variable {t : Tails Float} {data : Bytes}

theorem stopsEarly_iff (hn : 100 ≤ (bits data).length) :
    StopsEarly t data ↔ unbalanced (share (ones (bits data)) (bits data).length) (bits data).length = true := by
  have hshare : (Arith.ofNat (ones (bits data)) / Arith.ofNat (bits data).length : Float) =
      share (ones (bits data)) (bits data).length := rfl
  unfold StopsEarly runs
  dsimp only
  rw [if_neg (by omega), hshare]
  constructor
  · rintro ⟨v, proportion, hv, hdetails⟩
    by_contra hpre
    rw [if_neg hpre] at hv
    obtain ⟨p, -, rfl⟩ := Option.map_eq_some_iff.1 hv
    cases hdetails
  · intro hpre
    exact ⟨_, _, if_pos hpre, rfl⟩

theorem stopsEarly_complement_iff (hn : 100 ≤ (bits data).length) : StopsEarly t (complement data) ↔
    unbalanced (share (ones (bits (complement data))) (bits data).length) (bits data).length = true := by
  have hcomplement := stopsEarly_iff (t := t) ((length_bits_complement data).symm ▸ hn)
  rwa [length_bits_complement] at hcomplement

/-- off the threshold, and below `2 ^ 33` bits, the exact criterion decides -/
theorem stopsEarly_off_threshold (hlong : 100 ≤ (bits data).length) (hshort : (bits data).length < 2 ^ 33)
    (hne : imbalance (ones (bits data)) (bits data).length ^ 2 ≠ 16 * (bits data).length) :
    (StopsEarly t data ↔ 16 * (bits data).length ≤ imbalance (ones (bits data)) (bits data).length ^ 2) ∧
      (StopsEarly t (complement data) ↔ StopsEarly t data) := by
  have heven : Even (bits data).length := even_iff_two_dvd.2 (by rw [length_bits]; omega)
  have hsum := ones_add_ones_complement data
  have hturned : imbalance (ones (bits (complement data))) (bits data).length ^ 2 =
      imbalance (ones (bits data)) (bits data).length ^ 2 := by rw [imbalance_complement, neg_sq]
  rw [stopsEarly_complement_iff hlong, stopsEarly_iff hlong, unbalanced_iff_of_ne heven hlong hshort (by omega) hne,
    unbalanced_iff_of_ne heven hlong hshort (by omega) (by rwa [hturned]), hturned]
  exact ⟨Iff.rfl, Iff.rfl⟩

/-- on the threshold, rounding decides -/
theorem stopsEarly_on_threshold (hlong : 100 ≤ (bits data).length) (hshort : (bits data).length < 2 ^ 53)
    (heq : imbalance (ones (bits data)) (bits data).length ^ 2 = 16 * (bits data).length) :
    ∃ j, (bits data).length = (4 * j) ^ 2 ∧
      (ones (bits data) = 8 * j * (j + 1) ∧ (StopsEarly t data ↔ 2 ^ 52 ≤ j * roundQuotient (2 ^ 52) j) ∧
          (StopsEarly t (complement data) ↔ 2 ^ 53 ≤ j * roundQuotient (2 ^ 53) j) ∨
        ones (bits data) = 8 * j * (j - 1) ∧ (StopsEarly t data ↔ 2 ^ 53 ≤ j * roundQuotient (2 ^ 53) j) ∧
          (StopsEarly t (complement data) ↔ 2 ^ 52 ≤ j * roundQuotient (2 ^ 52) j)) := by
  have h8 : 8 ∣ (bits data).length := ⟨data.length, length_bits data⟩
  obtain ⟨j, hn, hsides⟩ := exists_root_of_threshold h8 (ones_add_ones_complement data) heq
  rw [stopsEarly_complement_iff hlong, stopsEarly_iff hlong]
  rw [hn] at hlong hshort ⊢
  have hj : 3 ≤ j := by
    by_contra hsmall
    have hle : (4 * j) ^ 2 ≤ (4 * 2) ^ 2 := Nat.pow_le_pow_left (by omega) 2
    omega
  refine ⟨j, rfl, ?_⟩
  rcases hsides with ⟨hones, hzeros⟩ | ⟨hones, hzeros⟩ <;> rw [hones, hzeros]
  · exact Or.inl ⟨rfl, unbalanced_above_iff hj hshort, unbalanced_below_iff hj hshort⟩
  · exact Or.inr ⟨rfl, unbalanced_below_iff hj hshort, unbalanced_above_iff hj hshort⟩

end

/-- **A byte string and its complement stop early together, but for rounding.** For any number of bits from a hundred on:
- what stops early satisfies the exact criterion, and what satisfies it stops early, both up to a margin of `n / 2 ^ 51` bits;
- below `2 ^ 33` bits the margin hides nothing, so off the threshold a byte string stops early exactly by the criterion, and with its
  complement;
- on the threshold there are `(4 * j) ^ 2` bits, and stopping early depends on how a quotient is rounded: of `2 ^ 52` by `j` with more
  ones than zeros, of `2 ^ 53` by `j` with fewer, so that a byte string and its complement need not stop together. -/
theorem stopsEarly_up_to_rounding (t : Tails Float) (data : Bytes) (hlong : 100 ≤ (bits data).length)
    (hshort : (bits data).length < 2 ^ 53) :
    let n := (bits data).length
    let k := ones (bits data)
    ((StopsEarly t data → 16 * n ≤ (|(imbalance k n : ℚ)| + n / 2 ^ 51) ^ 2) ∧
      (n / 2 ^ 51 ≤ |(imbalance k n : ℚ)| → 16 * n ≤ (|(imbalance k n : ℚ)| - n / 2 ^ 51) ^ 2 → StopsEarly t data)) ∧
    (n < 2 ^ 33 → imbalance k n ^ 2 ≠ 16 * n →
      (StopsEarly t data ↔ 16 * n ≤ imbalance k n ^ 2) ∧ (StopsEarly t (complement data) ↔ StopsEarly t data)) ∧
    (imbalance k n ^ 2 = 16 * n → ∃ j, n = (4 * j) ^ 2 ∧
      (k = 8 * j * (j + 1) ∧ (StopsEarly t data ↔ 2 ^ 52 ≤ j * roundQuotient (2 ^ 52) j) ∧
          (StopsEarly t (complement data) ↔ 2 ^ 53 ≤ j * roundQuotient (2 ^ 53) j) ∨
        k = 8 * j * (j - 1) ∧ (StopsEarly t data ↔ 2 ^ 53 ≤ j * roundQuotient (2 ^ 53) j) ∧
          (StopsEarly t (complement data) ↔ 2 ^ 52 ≤ j * roundQuotient (2 ^ 52) j))) := by
  intro n k
  have hk : k ≤ n := List.countP_le_length
  have hstops : StopsEarly t data ↔ unbalanced (share k n) n = true := stopsEarly_iff hlong
  refine ⟨⟨fun h => ?_, fun hx hpast => ?_⟩, fun hsmall hne => ?_, fun heq => ?_⟩
  · exact sq_imbalance_of_unbalanced hlong hshort hk (hstops.1 h)
  · exact hstops.2 (unbalanced_of_sq_imbalance (by omega) hshort hk hx hpast)
  · exact stopsEarly_off_threshold hlong hsmall hne
  · exact stopsEarly_on_threshold hlong hshort heq

/-- 144 bits, 96 of them ones -/
def tilted : Bytes := (List.replicate 6 [0xee, 0x79, 0xce]).flatten

theorem bits_tilted : (bits tilted).length = 144 ∧ ones (bits tilted) = 96 := by decide +kernel

/-- 104 ones are off the threshold, and 96 ones in 144 bits on it, where `j` is three -/
theorem stopsEarly_up_to_rounding_of_tilted :
    (StopsEarly Tails.special (List.replicate 13 0xff) ∧ StopsEarly Tails.special (complement (List.replicate 13 0xff))) ∧
    (StopsEarly Tails.special tilted ↔ 2 ^ 52 ≤ 3 * roundQuotient (2 ^ 52) 3) ∧
    (StopsEarly Tails.special (complement tilted) ↔ 2 ^ 53 ≤ 3 * roundQuotient (2 ^ 53) 3) := by
  constructor
  · have hbits : (bits (List.replicate 13 0xff)).length = 104 ∧ ones (bits (List.replicate 13 0xff)) = 104 := by decide +kernel
    have hall := stopsEarly_up_to_rounding Tails.special (List.replicate 13 0xff) (by rw [hbits.1]; norm_num)
      (by rw [hbits.1]; norm_num)
    rw [hbits.1, hbits.2] at hall
    obtain ⟨hexact, hsame⟩ := hall.2.1 (by norm_num) (by decide)
    exact ⟨hexact.2 (by decide), hsame.2 (hexact.2 (by decide))⟩
  · obtain ⟨hlength, hones⟩ := bits_tilted
    have hall := stopsEarly_up_to_rounding Tails.special tilted (by rw [hlength]; norm_num) (by rw [hlength]; norm_num)
    rw [hlength, hones] at hall
    obtain ⟨j, hj, hsides⟩ := hall.2.2 (by decide)
    obtain rfl : j = 3 := by nlinarith
    rcases hsides with ⟨-, habove, hbelow⟩ | ⟨hfewer, -⟩
    · exact ⟨habove, hbelow⟩
    · exact absurd hfewer (by decide)

/-- **The two sides differ**: 96 ones in 144 bits meet the criterion and do not stop early, 48 ones do. -/
theorem tilted_not_stopsEarly : 100 ≤ (bits tilted).length ∧
    16 * ((bits tilted).length : ℤ) ≤ imbalance (ones (bits tilted)) (bits tilted).length ^ 2 ∧
    ¬ StopsEarly Tails.special tilted ∧ StopsEarly Tails.special (complement tilted) := by
  obtain ⟨hlength, hones⟩ := bits_tilted
  have hones' : ones (bits (complement tilted)) = 48 := by decide +kernel
  have hlong : 100 ≤ (bits tilted).length := by rw [hlength]; norm_num
  rw [stopsEarly_complement_iff hlong, stopsEarly_iff hlong, hlength, hones, hones']
  refine ⟨by norm_num, by decide, ?_, ?_⟩
  · decide +kernel
  · decide +kernel

end Sampling.Battery
