/-
Labels and seeds run together.

What is hashed to fold a label into a seed is the label followed by the seed, with nothing between them and no length in front
(`labelInput`). Two pairs are therefore told apart exactly if label and seed, read as one string, differ (`labelInput_eq_iff`):
moving the front of the seed to the end of the label gives another pair with the very same keystream (`shifted_label`). Pairs are
safe from each other if their labels, or their seeds, are of one length.

That SHA-256 has no collisions is nowhere assumed: where a keystream should name its pair, the conclusion offers as the other case
two hashed strings, each a function of the pairs, that differ and have one digest (`Collision`).

`label_separation`: all of this for any two pairs.
-/
import Sampling.Source.Seeded

namespace Sampling.Derivation

variable {seed seed' label label' : Bytes}

/-! ## What is hashed -/

/-- two strings that differ and have one digest -/
def Collision (b c : Bytes) : Prop := b ≠ c ∧ Sha256.digest b = Sha256.digest c

theorem eq_or_collision {b c : Bytes} (h : Sha256.digest b = Sha256.digest c) : b = c ∨ Collision b c := by
  by_cases hbc : b = c
  · exact Or.inl hbc
  · exact Or.inr ⟨hbc, h⟩

/-- **Nothing stands between label and seed.** -/
theorem labelInput_eq_iff : labelInput label seed = labelInput label' seed' ↔ label ++ seed = label' ++ seed' := by
  unfold labelInput
  rw [List.append_assoc, List.append_assoc]
  exact List.append_right_inj labelHeader

theorem purposeInput_injective (purpose : Purpose) (h : purposeInput purpose seed = purposeInput purpose seed') :
    seed = seed' :=
  List.append_cancel_left h

theorem foldLabel_of_ne_nil (h : label ≠ []) (seed : Bytes) :
    foldLabel seed label = Sha256.digest (labelInput label seed) := by
  have hempty : label.isEmpty = false := List.isEmpty_eq_false_iff.2 h
  rw [foldLabel, hempty]
  rfl

theorem length_derive (purpose : Purpose) (seed : Bytes) : (derive purpose seed).length = 32 := Sha256.length_digest _

/-! ## What the keystream tells of the pair -/

/-- a keystream names the seed it was derived from, or the key was a collision -/
theorem keystream_names_folded (h : keystream seed label = keystream seed' label') :
    foldLabel seed label = foldLabel seed' label' ∨
      Collision (purposeInput .key (foldLabel seed label)) (purposeInput .key (foldLabel seed' label')) := by
  obtain ⟨hkey, -⟩ := ChaCha.Stream.ofKey_inj (length_derive _ _) (length_derive _ _) h
  rcases eq_or_collision hkey with hinput | hcollision
  · exact Or.inl (purposeInput_injective .key hinput)
  · exact Or.inr hcollision

/-- pairs that read the same as one string have one keystream -/
theorem keystream_of_append_eq (hlabel : label ≠ []) (hlabel' : label' ≠ []) (h : label ++ seed = label' ++ seed') :
    keystream seed label = keystream seed' label' := by
  have hfold : foldLabel seed label = foldLabel seed' label' := by
    rw [foldLabel_of_ne_nil hlabel, foldLabel_of_ne_nil hlabel', labelInput_eq_iff.2 h]
  unfold keystream
  rw [hfold]

/-- **The front of a seed may as well stand at the end of the label.** -/
theorem shifted_label (hlabel : label ≠ []) (front seed : Bytes) :
    Keystream.ofSeed (front ++ seed) label = Keystream.ofSeed seed (label ++ front) := by
  have hlabel' : label ++ front ≠ [] := List.append_ne_nil_of_left_ne_nil hlabel front
  have happend : label ++ (front ++ seed) = (label ++ front) ++ seed := (List.append_assoc label front seed).symm
  unfold Keystream.ofSeed
  rw [keystream_of_append_eq hlabel hlabel' happend]

/-- two pairs of texts that are different and read the same -/
theorem labels_run_together :
    let seed : Bytes := Bytes.ofText "bc"
    let seed' : Bytes := Bytes.ofText "c"
    let label : Bytes := Bytes.ofText "a"
    let label' : Bytes := Bytes.ofText "ab"
    seed ≠ seed' ∧ label ≠ label' ∧ label ≠ [] ∧ label' ≠ [] ∧ labelInput label seed = labelInput label' seed' ∧
      Keystream.ofSeed seed label = Keystream.ofSeed seed' label' := by
  intro seed seed' label label'
  have hlabel : label ≠ [] := by decide
  have hfront : seed = Bytes.ofText "b" ++ seed' := by decide
  have hlabels : label' = label ++ Bytes.ofText "b" := by decide
  have hinput : labelInput label seed = labelInput label' seed' := labelInput_eq_iff.2 (by decide)
  refine ⟨by decide, by decide, hlabel, by decide, hinput, ?_⟩
  rw [hfront, hlabels]
  exact shifted_label hlabel (Bytes.ofText "b") seed'

/-- **How far labels separate.** Take any two pairs of a seed and a label that is not empty.
- The strings hashed are the same exactly if label and seed read the same as one string, and both sources are then the same, to
  the last byte.
- If the labels, or the seeds, are of one length, different pairs have different strings hashed.
- If the keystreams are the same, the pairs read the same as one string, or SHA-256 has a collision: on the strings hashed for the
  labels, or on those hashed for the keys. -/
theorem label_separation (hlabel : label ≠ []) (hlabel' : label' ≠ []) :
    (labelInput label seed = labelInput label' seed' ↔ label ++ seed = label' ++ seed') ∧
    (label ++ seed = label' ++ seed' → Keystream.ofSeed seed label = Keystream.ofSeed seed' label') ∧
    (label.length = label'.length ∨ seed.length = seed'.length → (seed, label) ≠ (seed', label') →
      labelInput label seed ≠ labelInput label' seed') ∧
    (keystream seed label = keystream seed' label' → label ++ seed = label' ++ seed' ∨
      Collision (labelInput label seed) (labelInput label' seed') ∨
      Collision (purposeInput .key (foldLabel seed label)) (purposeInput .key (foldLabel seed' label'))) := by
  refine ⟨labelInput_eq_iff, ?_, ?_, ?_⟩
  · intro h
    unfold Keystream.ofSeed
    rw [keystream_of_append_eq hlabel hlabel' h]
  · intro hlength hpairs hinput
    have happend : label ++ seed = label' ++ seed' := labelInput_eq_iff.1 hinput
    have hparts : label = label' ∧ seed = seed' := by
      rcases hlength with hlength | hlength
      · exact List.append_inj happend hlength
      · exact List.append_inj' happend hlength
    apply hpairs
    rw [hparts.1, hparts.2]
  · intro h
    rcases keystream_names_folded h with hfold | hcollision
    · rw [foldLabel_of_ne_nil hlabel, foldLabel_of_ne_nil hlabel'] at hfold
      rcases eq_or_collision hfold with hinput | hcollision
      · exact Or.inl (labelInput_eq_iff.1 hinput)
      · exact Or.inr (Or.inl hcollision)
    · exact Or.inr (Or.inr hcollision)

/-- one seed under two labels -/
theorem label_separation_left_right :
    let seed : Bytes := Bytes.ofText "seed"
    let left : Bytes := Bytes.ofText "left"
    let right : Bytes := Bytes.ofText "right"
    left ≠ [] ∧ right ≠ [] ∧ labelInput left seed ≠ labelInput right seed := by
  intro seed left right
  have hleft : left ≠ [] := by decide
  have hright : right ≠ [] := by decide
  have hpairs : (seed, left) ≠ (seed, right) := by decide
  have hinput : labelInput left seed ≠ labelInput right seed :=
    (label_separation hleft hright).2.2.1 (Or.inr rfl) hpairs
  exact ⟨hleft, hright, hinput⟩

end Sampling.Derivation
