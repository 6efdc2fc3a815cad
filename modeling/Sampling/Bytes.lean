/-
Byte strings and the numbers they spell.

A fill request is answered with a `Bytes`. Integers are read least significant byte first; `spell` writes the low bytes of a
number in that order, and `value_spell` says that reading them back gives the number.
-/

namespace Sampling

/-- a byte string, in the order the bytes are delivered -/
abbrev Bytes := List UInt8

namespace Bytes

/-- the number a byte string spells, least significant byte first -/
def value (b : Bytes) : Nat :=
  b.foldr (fun x rest => x.toNat + 256 * rest) 0

/-- the low `count` bytes of `v`, least significant first -/
def spell : (count v : Nat) → Bytes
  | 0, _ => []
  | count + 1, v => UInt8.ofNat v :: spell count (v / 256)

/-- the 64-bit word eight bytes spell -/
def word (b : Bytes) : UInt64 := UInt64.ofNat (value b)

/-- the eight bytes of a word -/
def ofWord (w : UInt64) : Bytes := spell 8 w.toNat

def ofHalf (w : UInt32) : Bytes := spell 4 w.toNat

def ofText (text : String) : Bytes := text.toUTF8.data.toList

/-! ## Reading back -/

@[simp] theorem value_nil : value [] = 0 := rfl

@[simp] theorem value_cons (x : UInt8) (b : Bytes) : value (x :: b) = x.toNat + 256 * value b := rfl

@[simp] theorem length_spell (count v : Nat) : (spell count v).length = count := by
  induction count generalizing v with
  | zero => rfl
  | succ count ih => simp [spell, ih]

/-- writing and reading back keeps the value modulo the room there is -/
theorem value_spell (count v : Nat) : value (spell count v) = v % Nat.pow 256 count := by
  induction count generalizing v with
  | zero => simp [spell, Nat.mod_one]
  | succ count ih =>
    have hpow : Nat.pow 256 (count + 1) = 256 * Nat.pow 256 count := Nat.pow_succ'
    rw [spell, value_cons, ih, hpow, Nat.mod_mul, UInt8.toNat_ofNat']

/-- a byte string of length `n` spells a number below `256 ^ n` -/
theorem value_lt (b : Bytes) : value b < Nat.pow 256 b.length := by
  induction b with
  | nil => exact Nat.one_pos
  | cons x b ih =>
    have hx := x.toNat_lt
    have hpow : Nat.pow 256 (x :: b).length = 256 * Nat.pow 256 b.length := Nat.pow_succ'
    rw [value_cons, hpow]
    omega

theorem eq_of_value_eq {b c : Bytes} (hlen : b.length = c.length) (h : value b = value c) : b = c := by
  induction b generalizing c with
  | nil => exact (List.length_eq_zero_iff.1 hlen.symm).symm
  | cons x b ih =>
    cases c with
    | nil => cases hlen
    | cons y c =>
      have hx := x.toNat_lt
      have hy := y.toNat_lt
      rw [value_cons, value_cons] at h
      have hhead : x = y := UInt8.toNat_inj.1 (by omega)
      have htail : b = c := ih (Nat.succ.inj hlen) (by omega)
      rw [hhead, htail]

@[simp] theorem word_ofWord (w : UInt64) : word (ofWord w) = w := by
  have hw : w.toNat < Nat.pow 256 8 := w.toNat_lt
  unfold word ofWord
  rw [value_spell, Nat.mod_eq_of_lt hw, UInt64.ofNat_toNat]

theorem ofWord_word {b : Bytes} (h : b.length = 8) : ofWord (word b) = b := by
  have hlt : value b < Nat.pow 256 8 := h ▸ value_lt b
  have hword : (word b).toNat = value b := UInt64.toNat_ofNat_of_lt' hlt
  apply eq_of_value_eq
  · rw [ofWord, length_spell, h]
  · rw [ofWord, value_spell, hword, Nat.mod_eq_of_lt hlt]

@[simp] theorem length_ofWord (w : UInt64) : (ofWord w).length = 8 := length_spell 8 _

@[simp] theorem length_ofHalf (w : UInt32) : (ofHalf w).length = 4 := length_spell 4 _

end Bytes

end Sampling
