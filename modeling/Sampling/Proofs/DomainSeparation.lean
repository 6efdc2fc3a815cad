/-
Openings keep hashed strings apart.

Three kinds of string are hashed on the way to a keystream: for the key, for the stream number, and to fold a label into a seed. Each
kind has an opening of its own (`Role.opening`); after it come seeds and labels, which anyone may choose, to begin with another
kind's opening if they like. The label's opening goes on where the other two do, so it is not enough that the openings differ: none
of the three may open another (`opening_prefix_free`). Of two openings of one string one opens the other, and so a string was hashed
for one kind only (`Hashed.role_unique`).

`hashed_strings_apart`: what this means for keys, stream numbers and labelled seeds. Collisions of SHA-256 are not excluded, they are
what is left.
-/
import Sampling.Proofs.LabelSeparation

namespace Sampling.Derivation

/-! ## Openings -/

inductive Role where
  | derives (purpose : Purpose)
  | foldsLabel
deriving DecidableEq, Repr

/-- the bytes that every string hashed for a role opens with -/
def Role.opening : Role → Bytes
  | derives purpose => purposeHeader ++ purpose.tag
  | foldsLabel => labelHeader

/-- the strings hashed for a role, over all seeds and labels -/
inductive Hashed : Role → Bytes → Prop where
  | derives (purpose : Purpose) (seed : Bytes) : Hashed (.derives purpose) (purposeInput purpose seed)
  | foldsLabel (label seed : Bytes) : Hashed .foldsLabel (labelInput label seed)

section
variable {role role' : Role} {b c : Bytes}

theorem opening_prefix_free (h : role.opening <+: role'.opening) : role = role' := by
  revert h
  rcases role with (_ | _) | _ <;> rcases role' with (_ | _) | _ <;> decide

theorem Hashed.opening_isPrefix (h : Hashed role b) : role.opening <+: b := by
  cases h with
  | derives purpose seed => exact List.prefix_append _ seed
  | foldsLabel label seed =>
    rw [labelInput, List.append_assoc]
    exact List.prefix_append labelHeader _

/-- **A string is hashed for one role only**, whatever follows the opening. -/
theorem Hashed.role_unique (h : Hashed role b) (h' : Hashed role' b) : role = role' := by
  rcases List.prefix_or_prefix_of_prefix h.opening_isPrefix h'.opening_isPrefix with hopens | hopens
  · exact opening_prefix_free hopens
  · exact (opening_prefix_free hopens).symm

theorem Hashed.ne (h : Hashed role b) (h' : Hashed role' c) (hrole : role ≠ role') : b ≠ c := by
  rintro rfl
  exact hrole (h.role_unique h')

/-- one digest in two roles is a collision -/
theorem Hashed.collision (h : Hashed role b) (h' : Hashed role' c) (hrole : role ≠ role') (hdigest : Sha256.digest b = Sha256.digest c) :
    Collision b c :=
  ⟨h.ne h' hrole, hdigest⟩

end

/-! ## Keys, stream numbers and labelled seeds -/

theorem purposeInput_inj {purpose : Purpose} {s t : Bytes} : purposeInput purpose s = purposeInput purpose t ↔ s = t :=
  ⟨purposeInput_injective purpose, congrArg _⟩

/-- **Hashed strings tell what they are for.** Take any seeds `s`, `t` and `u` and any label, crafted or not.
- The strings hashed for the key of `s`, for the stream number of `t`, and to fold the label into `u` are three different ones.
- Two strings hashed for one purpose are the same exactly if their seeds are.
- So where the 32 bytes derived are the same for a key and a stream number, for one of them and a labelled seed, or for one purpose
  and two seeds, SHA-256 has a collision on the strings they were derived from. -/
theorem hashed_strings_apart (s t u label : Bytes) :
    (purposeInput .key s ≠ purposeInput .nonce t ∧ purposeInput .key s ≠ labelInput label u ∧
      purposeInput .nonce t ≠ labelInput label u) ∧
    (∀ purpose, purposeInput purpose s = purposeInput purpose t ↔ s = t) ∧
    (derive .key s = derive .nonce t → Collision (purposeInput .key s) (purposeInput .nonce t)) ∧
    (∀ purpose, label ≠ [] → derive purpose s = foldLabel u label → Collision (purposeInput purpose s) (labelInput label u)) ∧
    (∀ purpose, derive purpose s = derive purpose t → s = t ∨ Collision (purposeInput purpose s) (purposeInput purpose t)) := by
  have hkey : Hashed (.derives .key) (purposeInput .key s) := .derives .key s
  have hnonce : Hashed (.derives .nonce) (purposeInput .nonce t) := .derives .nonce t
  have hlabel : Hashed .foldsLabel (labelInput label u) := .foldsLabel label u
  refine ⟨⟨hkey.ne hnonce (by decide), hkey.ne hlabel (by decide), hnonce.ne hlabel (by decide)⟩, fun _ => purposeInput_inj,
    hkey.collision hnonce (by decide), fun purpose hne hsame => ?_, fun purpose hsame => ?_⟩
  · rw [foldLabel_of_ne_nil hne] at hsame
    exact (Hashed.derives purpose s).collision hlabel (by simp) hsame
  · exact (eq_or_collision hsame).imp_left (purposeInput_injective purpose)

/-- seeds and labels that begin with the other roles' tags -/
theorem hashed_strings_apart_crafted :
    let s : Bytes := Bytes.ofText "nonce label key"
    let t : Bytes := Bytes.ofText "key"
    let u : Bytes := []
    let label : Bytes := Bytes.ofText "key"
    label ≠ [] ∧ purposeInput .key s ≠ purposeInput .nonce t ∧ purposeInput .key s ≠ labelInput label u ∧
      purposeInput .nonce t ≠ labelInput label u ∧ purposeInput .key s ≠ purposeInput .key t := by
  intro s t u label
  obtain ⟨⟨hkeyNonce, hkeyLabel, hnonceLabel⟩, hseeds, -⟩ := hashed_strings_apart s t u label
  have hlabel : label ≠ [] := by decide
  have hst : s ≠ t := by decide
  exact ⟨hlabel, hkeyNonce, hkeyLabel, hnonceLabel, fun h => hst ((hseeds .key).1 h)⟩

end Sampling.Derivation
