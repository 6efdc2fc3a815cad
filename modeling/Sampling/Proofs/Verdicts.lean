/-
Verdict, p-value and grade of the byte battery stay in step.

A verdict comes from too few data, from a p-value, or from the pre-test of the runs test; each of the three keeps `InStep`: it
passed exactly if there is a p-value of at least 0.01, exactly if the grade is A or B, and without a p-value the statistic is zero
and the grade F. Which of the three it is depends on the length of the data alone, as long as the tail functions answer
(`Tails.Complete`): shares of bytes are compared with five in binary64, where the comparison is still exact (`share_lt_five_iff`),
and degrees of freedom stay positive. Points of grades are whole numbers, so their mean is computed without rounding
(`score_eq`), and the number of passed tests bounds it.
-/
import Sampling.Arith.Binary64
import Sampling.Battery.Bits
import Sampling.Proofs.Binary64

namespace Sampling.Battery

open Binary64

/-! ## Thresholds of p-values -/

theorem tenth_word : (0.1 : Float).toBits.toNat = 0x3fb999999999999a := by decide +kernel

theorem hundredth_word : (0.01 : Float).toBits.toNat = 0x3f847ae147ae147b := by decide +kernel

theorem hundredth_le_of_tenth_le {p : Float} (h : 0.1 ≤ p) : 0.01 ≤ p := by
  have hmagnitude := word_le_of_le tenth_word (by decide) (by decide) h
  rw [le_iff_word_le tenth_word (by decide) rfl hmagnitude] at h
  rw [le_iff_word_le hundredth_word (by decide) rfl hmagnitude]
  exact le_trans (by decide) h

theorem ofP_eq_a_or_b_iff (p : Float) : Grade.ofP (some p) = .a ∨ Grade.ofP (some p) = .b ↔ 0.01 ≤ p := by
  unfold Grade.ofP
  by_cases htenth : 0.1 ≤ p
  · simp [htenth, hundredth_le_of_tenth_le htenth]
  · by_cases hhundredth : 0.01 ≤ p
    · simp [htenth, hhundredth]
    · simp only [htenth, hhundredth, if_false, iff_false]
      split_ifs <;> decide

/-! ## Whole numbers in comparisons -/

theorem zero_lt_of_word {x : Float} {w : ℕ} (hx : x.toBits.toNat = w) (hw : w ≤ infinite) (h0 : w ≠ 0) : 0.0 < x :=
  (lt_iff_word_lt (v := 0) rfl (Nat.zero_le _) hx hw).2 (Nat.pos_of_ne_zero h0)

theorem zero_lt_ofNat {n : ℕ} (h : 0 < n) : (0.0 : Float) < Float.ofNat n :=
  zero_lt_of_word (toNat_ofNat n) (nearest_le_infinite n) (nearest_natCast_pos h)

/-- one less than a number from two on is positive, rounded or not -/
theorem zero_lt_ofNat_sub_one {n : ℕ} (h : 2 ≤ n) : (0.0 : Float) < Float.ofNat n - 1.0 := by
  have hone : (1.0 : Float).toBits.toNat = nearest (1 : ℕ) := toNat_ofNat 1
  have hone0 := nearest_natCast_pos one_pos
  obtain ⟨hnumber, hfinite⟩ := number_nearest_natCast (n := 1) (by norm_num)
  rcases (nearest_le_infinite n).lt_or_eq with hn | hn
  · have hword := toNat_sub (toNat_ofNat n) hn hone hone0 (nearest_natCast_lt (by norm_num) h)
    refine zero_lt_of_word hword (nearest_le_infinite _) ?_
    have htwo : ((2 : ℕ) : ℚ) ≤ number (nearest n) := natCast_le_number (by norm_num) h
    have hle : ((1 : ℕ) : ℚ) ≤ number (nearest n) - number (nearest (1 : ℕ)) := by
      rw [hnumber]
      push_cast at htwo ⊢
      linarith
    have hmono := nearest_mono hle
    omega
  · -- a number rounded to infinity stays there
    exact zero_lt_of_word (toNat_infinite_sub ((toNat_ofNat n).trans hn) hone hone0 hfinite) le_rfl (by decide)

/-- a share of 256 is below five exactly if it is one of fewer than 1280: 1279 / 256 is a magnitude itself, so nothing below five
rounds up to it -/
theorem share_lt_five_iff (n : ℕ) : Float.ofNat n / Float.ofNat 256 < 5.0 ↔ n < 1280 := by
  have hfive : (5.0 : Float).toBits.toNat = nearest (5 : ℕ) := toNat_ofNat 5
  obtain ⟨hnumber5, hfinite5⟩ := number_nearest_natCast (n := 5) (by norm_num)
  obtain ⟨hnumber256, hfinite256⟩ := number_nearest_natCast (n := 256) (by norm_num)
  have h256 := nearest_natCast_pos (n := 256) (by norm_num)
  rcases Nat.eq_zero_or_pos n with rfl | hpos
  · exact iff_of_true (by decide) (by norm_num)
  rcases (nearest_le_infinite n).lt_or_eq with hn | hn
  · have hword := toNat_div (toNat_ofNat n) (nearest_natCast_pos hpos) hn (toNat_ofNat 256) h256 hfinite256
    rw [lt_iff_word_lt hword (nearest_le_infinite _) hfive hfinite5.le, hnumber256]
    constructor
    · -- from 1280 on the exact share of the rounded number is at least five, and five is a magnitude
      contrapose!
      intro h
      have hshare : ((1280 : ℕ) : ℚ) ≤ number (nearest n) := natCast_le_number (by norm_num) h
      refine nearest_mono ?_
      push_cast at hshare ⊢
      linarith
    · intro h
      obtain ⟨w, hw, hnumber⟩ := exists_number (m := 1279) (e := -8) (by norm_num) (by norm_num) (by norm_num)
      refine nearest_lt hw.le ?_ ?_
      · have hle : (n : ℚ) ≤ 1279 := by exact_mod_cast Nat.le_of_lt_succ h
        rw [(number_nearest_natCast (by omega)).1, hnumber]
        norm_num
        linarith
      · rw [hnumber, hnumber5]
        norm_num
  · have hword := toNat_infinite_div ((toNat_ofNat n).trans hn) (toNat_ofNat 256) h256 hfinite256
    rw [lt_iff_word_lt hword le_rfl hfive hfinite5.le]
    refine iff_of_false (not_lt.2 hfinite5.le) fun h => ?_
    exact (number_nearest_natCast (n := n) (by omega)).2.ne hn

/-! ## Sizes -/

theorem length_bits (data : Bytes) : (bits data).length = 8 * data.length := by
  simp [bits, List.length_flatMap, bitsOfByte, Nat.mul_comm]

theorem sum_modify {counts : List ℕ} {i : ℕ} (h : i < counts.length) :
    (counts.modify i (· + 1)).sum = counts.sum + 1 := by
  induction counts generalizing i with
  | nil => exact absurd h (Nat.not_lt_zero i)
  | cons count counts ih =>
    cases i with
    | zero =>
      rw [List.modify_zero_cons, List.sum_cons, List.sum_cons]
      omega
    | succ i =>
      rw [List.modify_succ_cons, List.sum_cons, List.sum_cons, ih (Nat.lt_of_succ_lt_succ h)]
      omega

/-- counting keeps the number of counts, and adds one to their sum for each value in range -/
theorem foldl_tally {k : ℕ} (values : List ℤ) (counts : Array ℕ) (hsize : counts.size = k)
    (h : ∀ v ∈ values, 0 ≤ v ∧ v < k) :
    let counted := values.foldl (fun counts v => if 0 ≤ v then counts.modify v.toNat (· + 1) else counts) counts
    counted.size = k ∧ counted.toList.sum = counts.toList.sum + values.length := by
  induction values generalizing counts with
  | nil => exact ⟨hsize, rfl⟩
  | cons v values ih =>
    obtain ⟨h0, hk⟩ := h v List.mem_cons_self
    have hin : v.toNat < counts.toList.length := by
      rw [Array.length_toList]
      omega
    obtain ⟨hsize', hsum⟩ := ih (counts.modify v.toNat (· + 1)) (by rw [Array.size_modify, hsize])
      fun u hu => h u (List.mem_cons_of_mem v hu)
    rw [Array.toList_modify, sum_modify hin] at hsum
    rw [List.foldl_cons, if_pos h0]
    exact ⟨hsize', hsum.trans (by rw [List.length_cons]; omega)⟩

theorem tally_bytes (data : Bytes) :
    (tally 256 (data.map fun x => (x.toNat : ℤ))).length = 256 ∧
      (tally 256 (data.map fun x => (x.toNat : ℤ))).foldl (· + ·) 0 = data.length := by
  have hrange : ∀ v ∈ data.map fun x => (x.toNat : ℤ), 0 ≤ v ∧ v < (256 : ℕ) := by
    intro v hv
    obtain ⟨x, -, rfl⟩ := List.mem_map.1 hv
    have := x.toNat_lt
    omega
  obtain ⟨hsize, hsum⟩ := foldl_tally _ (Array.replicate 256 0) Array.size_replicate hrange
  refine ⟨hsize, ?_⟩
  rw [← List.sum_eq_foldl_nat]
  rw [Array.toList_replicate, List.sum_replicate_nat, List.length_map] at hsum
  exact hsum.trans (Nat.zero_add _)

/-- the name of a test plays no part in it -/
theorem evenness_eq_map {F : Type} [Arith F] (t : Tails F) (test test' : Test) (counts : List ℕ) (total : ℕ) :
    evenness t test' counts total = (evenness t test counts total).map fun v => { v with test := test' } := by
  unfold evenness
  dsimp only
  split_ifs
  · rfl
  · rfl
  · unfold Tails.aboveOr
    cases t.chiSquare? (Arith.ofNat (counts.length - 1)) with
    | none => rfl
    | some distribution =>
      dsimp only
      rw [Option.map_map]
      rfl

/-- **The byte test is the uniformity test** of the counts of bytes, under its own name: bytes that are fewer than words do not
overflow a sum of words. -/
theorem byteFrequency_eq_uniformity {F : Type} [Arith F] (t : Tails F) {data : Bytes} (hmany : 256 ≤ data.length)
    (hfew : data.length < UInt64.size) : byteFrequency t data =
      (uniformity t (tally 256 (data.map fun x => (x.toNat : ℤ)))).map fun v => { v with test := .byteFrequency } := by
  have htotal := (tally_bytes data).2
  rw [byteFrequency, if_neg (Nat.not_lt.2 hmany), uniformity, htotal, Nat.mod_eq_of_lt hfew]
  dsimp only
  rw [htotal]
  exact evenness_eq_map t .uniformity .byteFrequency _ _

/-! ## Verdicts in step -/

/-- no call panics, and there is a chi-square distribution with every positive number of degrees of freedom -/
structure Tails.Complete (t : Tails Float) : Prop where
  erfc : ∀ x, ∃ p, t.erfc x = some p
  chiSquare : ∀ degrees, 0.0 < degrees → ∃ distribution, t.chiSquare? degrees = some distribution ∧
    ∀ x, (∃ p, distribution.below x = some p) ∧ ∃ p, distribution.above x = some p

theorem Tails.special_complete : (Tails.special : Tails Float).Complete where
  erfc _ := ⟨_, rfl⟩
  chiSquare _ hdegrees := ⟨_, if_pos hdegrees, fun _ => ⟨⟨_, rfl⟩, ⟨_, rfl⟩⟩⟩

/-- passing, p-value and grade say the same, and the p-value is missing exactly on `short` data -/
structure Verdict.InStep (short : Prop) (v : Verdict Float) : Prop where
  passed_iff : v.passed = true ↔ ∃ p, v.p = some p ∧ 0.01 ≤ p
  grade_iff : v.passed = true ↔ v.grade = .a ∨ v.grade = .b
  absent_iff : v.p = none ↔ short
  absent : v.p = none → v.statistic = 0.0 ∧ v.grade = .f

/-- the test reaches a verdict under its own name, in step -/
def Judged (test : Test) (short : Prop) (result : Option (Verdict Float)) : Prop :=
  ∃ v, result = some v ∧ v.test = test ∧ v.InStep short

section
variable {t : Tails Float} {test : Test} {short : Prop}

theorem judged_insufficient (h : short) {needed got : ℕ} : Judged test short (some (.insufficient test needed got)) :=
  ⟨_, rfl, rfl, by simp [Verdict.insufficient], by simp [Verdict.insufficient], iff_of_true rfl h, fun _ => ⟨rfl, rfl⟩⟩

theorem judged_ofP (h : ¬ short) {p statistic : Float} {details : Details Float} :
    Judged test short (some (.ofP test p statistic details)) := by
  have hpassed : (Verdict.ofP test p statistic details).passed = true ↔ 0.01 ≤ p := decide_eq_true_iff
  refine ⟨_, rfl, rfl, ?_, ?_, iff_of_false (Option.some_ne_none p) h, fun hnone => absurd hnone (Option.some_ne_none p)⟩
  · rw [hpassed]
    exact ⟨fun hle => ⟨p, rfl, hle⟩, fun ⟨_, hp, hle⟩ => Option.some.inj hp ▸ hle⟩
  · exact hpassed.trans (ofP_eq_a_or_b_iff p).symm

theorem judged_twoSided (ht : t.Complete) (h : ¬ short) {z : Float} {details : Details Float} :
    Judged test short ((t.twoSided z).map fun p => .ofP test p z details) := by
  obtain ⟨p, hp⟩ := ht.erfc (Arith.abs z / Arith.sqrtTwo)
  rw [Tails.twoSided, hp]
  exact judged_ofP h

theorem judged_aboveOr (ht : t.Complete) (h : ¬ short) {degrees x : Float} (hdegrees : 0.0 < degrees)
    {missing : Verdict Float} {details : Details Float} :
    Judged test short (t.aboveOr degrees x missing fun p => .ofP test p x details) := by
  obtain ⟨distribution, hsome, hanswers⟩ := ht.chiSquare degrees hdegrees
  obtain ⟨p, hp⟩ := (hanswers x).2
  rw [Tails.aboveOr, hsome]
  dsimp only
  rw [hp]
  exact judged_ofP h

/-! ## Each test -/

theorem judged_monobit (ht : t.Complete) (data : Bytes) : Judged .monobit (data.length < 13) (monobit t data) := by
  have hbits := length_bits data
  unfold monobit
  dsimp only
  split_ifs with hshort
  · exact judged_insufficient (by omega)
  · exact judged_twoSided ht (by omega)

theorem judged_blockFrequency (ht : t.Complete) (data : Bytes) :
    Judged .blockFrequency (data.length < 160) (blockFrequency t data) := by
  have hbits := length_bits data
  unfold blockFrequency blockSize
  dsimp only
  split_ifs with hshort
  · exact judged_insufficient (by omega)
  · exact judged_aboveOr ht (by omega) (zero_lt_ofNat (by omega))

/-- two thresholds: 256 bytes to count at all, 1280 for a share of five -/
theorem judged_byteFrequency (ht : t.Complete) (data : Bytes) :
    Judged .byteFrequency (data.length < 1280) (byteFrequency t data) := by
  obtain ⟨hlength, htotal⟩ := tally_bytes data
  have hshare := share_lt_five_iff data.length
  unfold byteFrequency
  split_ifs with hshort
  · exact judged_insufficient (by omega)
  · unfold evenness
    dsimp only
    rw [hlength, htotal, if_neg (by norm_num)]
    split_ifs with hfive
    · exact judged_insufficient (hshare.1 hfive)
    · exact judged_aboveOr ht (fun h => hfive (hshare.2 h)) (zero_lt_ofNat (by norm_num))

/-- the pre-test fails with a p-value of zero, which is on the failing side too -/
theorem judged_runs (ht : t.Complete) (data : Bytes) : Judged .runs (data.length < 13) (runs t data) := by
  have hbits := length_bits data
  unfold runs
  dsimp only
  split_ifs with hshort hpre
  · exact judged_insufficient (by omega)
  · have hzero : ¬ (0.01 : Float) ≤ 0.0 := by decide
    refine ⟨_, rfl, rfl, ?_, by simp, iff_of_false (Option.some_ne_none _) (by omega), fun hnone => ?_⟩
    · exact iff_of_false Bool.false_ne_true fun ⟨_, hp, hle⟩ => hzero (Option.some.inj hp ▸ hle)
    · exact absurd hnone (Option.some_ne_none _)
  · exact judged_twoSided ht (by omega)

theorem judged_byteMoments (ht : t.Complete) (data : Bytes) :
    Judged .byteMoments (data.length < 50) (byteMoments t data) := by
  unfold byteMoments
  dsimp only
  split_ifs with hshort
  · exact judged_insufficient hshort
  · have hdegrees : (0.0 : Float) < (Arith.ofNat data.length : Float) - 1.0 := zero_lt_ofNat_sub_one (by omega)
    obtain ⟨distribution, hsome, hanswers⟩ := ht.chiSquare _ hdegrees
    obtain ⟨pMean, hmean⟩ := ht.erfc _
    rw [Tails.twoSided, hmean, hsome]
    dsimp only [Option.bind_eq_bind, Option.bind_some]
    obtain ⟨⟨below, hbelow⟩, above, habove⟩ := hanswers _
    rw [hbelow, habove]
    exact judged_ofP hshort

end

/-! ## Points -/

/-- the points of a grade, in steps of 25 -/
def Grade.steps : Grade → ℕ
  | a => 4
  | b => 3
  | c => 2
  | d => 1
  | f => 0

theorem points_eq (g : Grade) : g.points = Float.ofNat (25 * g.steps) := by
  cases g <;> exact eq_of_toNat (by decide)

theorem three_le_steps_iff (g : Grade) : 3 ≤ g.steps ↔ g = .a ∨ g = .b := by
  cases g <;> decide

theorem steps_le (g : Grade) : g.steps ≤ 4 := by
  cases g <;> decide

theorem foldl_points (grades : List Grade) (total : ℕ) (h : total + 100 * grades.length < 2 ^ 53) :
    (grades.map Grade.points).foldl (· + ·) (Float.ofNat total) =
      Float.ofNat (total + 25 * (grades.map Grade.steps).sum) := by
  induction grades generalizing total with
  | nil => rfl
  | cons g grades ih =>
    have hsteps := steps_le g
    rw [List.length_cons] at h
    rw [List.map_cons, List.foldl_cons, points_eq, ofNat_add_ofNat (by omega), ih _ (by omega), List.map_cons, List.sum_cons,
      Nat.mul_add, Nat.add_assoc]

/-- adding the neutral element of addition -/
theorem negativeZero_add {n : ℕ} (h : n < 2 ^ 53) : Arith.negativeZero + Float.ofNat n = Float.ofNat n := by
  rcases Nat.eq_zero_or_pos n with rfl | hn
  · exact eq_of_toNat (by decide)
  · have hzero : (Arith.negativeZero : Float).toModel.unpack = .zero .negative := unpack_zero rfl
    exact zero_add_word hzero (toNat_ofNat n) (nearest_natCast_pos hn) (number_nearest_natCast h).2

theorem ofNat_div_five {n : ℕ} (h : 5 * n < 2 ^ 53) : Float.ofNat (5 * n) / Float.ofNat 5 = Float.ofNat n := by
  rcases Nat.eq_zero_or_pos n with rfl | hn
  · exact eq_of_toNat (by decide)
  · obtain ⟨hnumber, hfinite⟩ := number_nearest_natCast h
    obtain ⟨hnumber5, hfinite5⟩ := number_nearest_natCast (n := 5) (by norm_num)
    refine eq_of_toNat ?_
    rw [toNat_div (toNat_ofNat _) (nearest_natCast_pos (by omega)) hfinite (toNat_ofNat 5) (nearest_natCast_pos (by norm_num))
      hfinite5, toNat_ofNat, hnumber, hnumber5, Nat.cast_mul, mul_div_cancel_left₀ _ (by norm_num)]

theorem sum_points {grades : List Grade} (h : 100 * grades.length < 2 ^ 53) (hne : grades ≠ []) :
    Arith.sum (grades.map Grade.points) = Float.ofNat (25 * (grades.map Grade.steps).sum) := by
  obtain ⟨g, rest, rfl⟩ := List.exists_cons_of_ne_nil hne
  have hsteps := steps_le g
  rw [List.length_cons] at h
  rw [Arith.sum, List.map_cons, List.foldl_cons, points_eq, negativeZero_add (by omega), foldl_points _ _ (by omega),
    List.map_cons, List.sum_cons, Nat.mul_add]

theorem sum_steps_le (grades : List Grade) : (grades.map Grade.steps).sum ≤ 4 * grades.length := by
  induction grades with
  | nil => exact le_rfl
  | cons g grades ih =>
    have := steps_le g
    rw [List.map_cons, List.sum_cons, List.length_cons]
    omega

theorem score_eq {grades : List Grade} (h : grades.length = 5) :
    score grades = Float.ofNat (5 * (grades.map Grade.steps).sum) := by
  have hne : grades ≠ [] := List.ne_nil_of_length_eq_add_one h
  have hle := sum_steps_le grades
  have hempty : ¬ grades.isEmpty := fun h => hne (List.isEmpty_iff.1 h)
  rw [score, if_neg hempty, sum_points (by omega) hne, h, show 25 * (grades.map Grade.steps).sum =
    5 * (5 * (grades.map Grade.steps).sum) by omega]
  exact ofNat_div_five (by omega)

/-- each passed verdict has three or four steps, each other one at most two -/
theorem sum_steps_bounds {vs : List (Verdict Float)} (h : ∀ v ∈ vs, v.passed = true ↔ v.grade = .a ∨ v.grade = .b) :
    3 * vs.countP (·.passed) ≤ (vs.map (·.grade.steps)).sum ∧
      (vs.map (·.grade.steps)).sum ≤ 2 * vs.countP (·.passed) + 2 * vs.length := by
  induction vs with
  | nil => exact ⟨le_rfl, le_rfl⟩
  | cons v vs ih =>
    obtain ⟨hlo, hhi⟩ := ih fun u hu => h u (List.mem_cons_of_mem v hu)
    have hgrade := (h v List.mem_cons_self).trans (three_le_steps_iff v.grade).symm
    have hsteps := steps_le v.grade
    rw [List.countP_cons, List.map_cons, List.sum_cons, List.length_cons]
    by_cases hpassed : v.passed = true
    · have := hgrade.1 hpassed
      rw [if_pos hpassed]
      omega
    · have := mt hgrade.2 hpassed
      rw [if_neg hpassed]
      omega

/-! ## The battery -/

section
variable {t : Tails Float}

theorem byteBattery_judged (ht : t.Complete) (data : Bytes) :
    List.Forall₂ (fun v entry => v.test = entry.1 ∧ v.InStep (data.length < entry.2)) (byteBattery t data)
      [(.monobit, 13), (.blockFrequency, 160), (.byteFrequency, 1280), (.runs, 13), (.byteMoments, 50)] := by
  have hget : ∀ {test : Test} {short : Prop} {result : Option (Verdict Float)}, Judged test short result →
      (result.getD .panicked).test = test ∧ (result.getD .panicked).InStep short := by
    rintro test short _ ⟨v, rfl, hv⟩
    exact hv
  exact .cons (hget (judged_monobit ht data)) <| .cons (hget (judged_blockFrequency ht data)) <|
    .cons (hget (judged_byteFrequency ht data)) <| .cons (hget (judged_runs ht data)) <|
    .cons (hget (judged_byteMoments ht data)) .nil

/-- **The verdicts of a byte string stay in step.** The five tests report under their names and in their order, and just the data
too short for a test leave it without a p-value, with statistic zero and grade F. A test passed exactly if there is a p-value of at
least 0.01, and exactly if its grade is A or B. So the score, a whole number, lies where the number of passed tests puts it. -/
theorem byteBattery_in_step (ht : t.Complete) (data : Bytes) :
    (byteBattery t data).map (fun v => (v.test.title, v.p.isNone)) =
        [("Monobit Frequency", decide (data.length < 13)), ("Block Frequency", decide (data.length < 160)),
          ("Byte Frequency", decide (data.length < 1280)), ("Runs Test", decide (data.length < 13)),
          ("Mean & Variance", decide (data.length < 50))] ∧
      (∀ v ∈ byteBattery t data,
        (v.passed = true ↔ ∃ p, v.p = some p ∧ 0.01 ≤ p) ∧ (v.passed = true ↔ v.grade = .a ∨ v.grade = .b) ∧
          (v.p = none → v.statistic = 0.0 ∧ v.grade = .f)) ∧
      ∃ points : ℕ, score ((byteBattery t data).map (·.grade)) = Float.ofNat points ∧
        75 * (byteBattery t data).countP (·.passed) ≤ 5 * points ∧
        5 * points ≤ 100 * (byteBattery t data).countP (·.passed) + 50 * (5 - (byteBattery t data).countP (·.passed)) := by
  have hjudged := byteBattery_judged ht data
  have hlength : (byteBattery t data).length = 5 := hjudged.length_eq
  have hverdicts : ∀ v ∈ byteBattery t data, ∃ short, v.InStep short :=
    ((List.forall₂_and_left _ _).1 (hjudged.imp fun v entry h => ⟨⟨_, h.2⟩, h⟩)).1
  refine ⟨?_, fun v hv => ?_, ?_⟩
  · have hentry : ∀ {v : Verdict Float} {entry : Test × ℕ}, v.test = entry.1 ∧ v.InStep (data.length < entry.2) →
        (v.test.title, v.p.isNone) = (entry.1.title, decide (data.length < entry.2)) := by
      rintro v entry ⟨htest, hstep⟩
      rw [htest, Prod.mk.injEq, Bool.eq_iff_iff, Option.isNone_iff_eq_none, decide_eq_true_iff]
      exact ⟨rfl, hstep.absent_iff⟩
    have hmap := List.forall₂_map_left_iff.2 (List.forall₂_map_right_iff.2 (hjudged.imp fun _ _ => hentry))
    rw [List.forall₂_eq_eq_eq] at hmap
    exact hmap
  · obtain ⟨short, hstep⟩ := hverdicts v hv
    exact ⟨hstep.passed_iff, hstep.grade_iff, hstep.absent⟩
  · have hbounds := sum_steps_bounds fun v hv => (hverdicts v hv).choose_spec.grade_iff
    have hscore : score ((byteBattery t data).map (·.grade)) = _ := score_eq (by rw [List.length_map, hlength])
    have hpassed := List.countP_le_length (p := (·.passed)) (l := byteBattery t data)
    rw [List.map_map] at hscore
    refine ⟨_, hscore, ?_, ?_⟩
    all_goals
      dsimp only [Function.comp_def]
      omega

/-- 160 bytes are too few to count bytes only -/
theorem byteBattery_in_step_of_160 : (Tails.special : Tails Float).Complete ∧
    (byteBattery (Tails.special : Tails Float) (List.replicate 160 0xa5)).map (fun v => (v.test.title, v.p.isNone)) =
      [("Monobit Frequency", false), ("Block Frequency", false), ("Byte Frequency", true), ("Runs Test", false),
        ("Mean & Variance", false)] := by
  have hmap := (byteBattery_in_step Tails.special_complete (List.replicate 160 0xa5)).1
  rw [List.length_replicate] at hmap
  exact ⟨Tails.special_complete, hmap⟩

end

end Sampling.Battery
