/-
A script that is replayed and a script that is read in place are one source, as long as the script lasts.

Any number of generators share the source. While no more bytes have been asked for than the script has, both sources stand at one
position, have granted the same calls, and what they have handed out is the opening of the script, cut by the calls (`InStep`).
A checked fill keeps this up to the end of the script, which once passed is passed for good, so runs of sessions that end within
the script are alike throughout (`Session.Alike.run`).

`replaying_eq_reading`: requests that ask for no more than the script holds are answered alike, and leave the same spares and the
same position after every one of them. The calls are those the sources themselves have written down.
-/
import Sampling.Proofs.ParameterFault
import Sampling.Proofs.SessionAlike
import Sampling.Proofs.SourceFailure

namespace Sampling

variable {F σ : Type}

/-! ## Calls on a source of a session -/

def asked (calls : List FillCall) : Nat := calls.foldr (fun c n => c.length + n) 0

theorem asked_cons (c : FillCall) (calls : List FillCall) : asked (c :: calls) = c.length + asked calls := rfl

@[simp] theorem asked_append (calls calls' : List FillCall) : asked (calls ++ calls') = asked calls + asked calls' := by
  induction calls with
  | nil => exact (Nat.zero_add _).symm
  | cons c calls ih => rw [List.cons_append, asked_cons, asked_cons, ih, Nat.add_assoc]

theorem asked_mono {calls calls' : List FillCall} (h : calls <+: calls') : asked calls ≤ asked calls' := by
  obtain ⟨rest, rfl⟩ := h
  rw [asked_append]
  exact Nat.le_add_right _ _

theorem asked_granted (buffers : List Bytes) : asked (buffers.map FillCall.granted) = buffers.flatten.length := by
  induction buffers with
  | nil => rfl
  | cons b buffers ih =>
    rw [List.map_cons, asked_cons, ih, List.flatten_cons, List.length_append]
    rfl

namespace Session

variable [Arith F] [Entropy σ]

/-- the fill calls made on a source while requests are answered, as the source saw them -/
def calls (s : Session F σ) (i : Nat) (rs : List (Request F)) : List FillCall :=
  (((s.recorded.run rs).2.sources[i]?).map Recorded.calls).getD []

/-- generators over a script that is replayed -/
def replaying (script : Bytes) (generators : Array (Generator F)) : Session F Replay :=
  { sources := #[⟨script.toArray, 0⟩], generators }

/-- generators over a script that is read in place -/
def reading (script : Bytes) (generators : Array (Generator F)) : Session F Cursor :=
  { sources := #[⟨script.toArray, 0⟩], generators }

end Session

/-! ## Recording a session -/

section
variable [Entropy σ]

variable [Arith F]

omit [Entropy σ] [Arith F] in
theorem Session.sources_recorded (s : Session F σ) (i : Nat) :
    s.recorded.sources[i]? = (s.sources[i]?).map fun x => ⟨x, []⟩ := by
  simp [recorded]

/-- recording changes no answer of a session whose sources are never interrupted -/
theorem Session.recorded_alike (hcalm : ∀ (x : σ) n, (Entropy.fill x n).interrupted = false) (s : Session F σ)
    {rs : List (Request F)} (hrs : ∀ r ∈ rs, r.ofGenerator = true) :
    (s.run rs).1 = (s.recorded.run rs).1 ∧ (s.run rs).2.Alike (fun x r => r.source = x) (s.recorded.run rs).2 := by
  have hrecorded : s.Alike (fun x r => r.source = x) s.recorded := by
    refine ⟨rfl, fun i => ?_⟩
    rw [s.sources_recorded]
    cases s.sources[i]? with
    | none => exact .none
    | some x => exact .some rfl
  have hu : Undisturbed fun (x : σ) (r : Recorded σ) => r.source = x :=
    ⟨fun {x _} _ n => deliver_not_interrupted (hcalm x n), fun {_ r} _ n => deliver_not_interrupted (hcalm r.source n)⟩
  exact hrecorded.run Recorded.answerAlike.within hu hrs fun _ _ _ => trivial

theorem Session.calls_opening (s : Session F σ) (i : Nat) {opening rs : List (Request F)} (h : opening <+: rs) :
    s.calls i opening <+: s.calls i rs := by
  obtain ⟨rest, rfl⟩ := h
  have hmoves := (s.recorded.run opening).2.moves_run rest i
  unfold calls
  rw [Session.run_append]
  generalize (s.recorded.run opening).2.sources[i]? = x at hmoves ⊢
  generalize ((s.recorded.run opening).2.run rest).2.sources[i]? = y at hmoves ⊢
  cases hmoves with
  | none => exact List.prefix_refl _
  | @some x y hxy =>
    refine hxy.keeps (Q := fun y => x.calls <+: y.calls) (fun y n hy => ?_) (List.prefix_refl _)
    rw [Recorded.fill_calls]
    exact hy.trans (List.prefix_append _ _)

end

/-! ## In step -/

/-- both sources have granted the same calls, whose bytes are the opening of the script, and stand behind them -/
def InStep (script : Bytes) (x : Recorded Replay) (y : Recorded Cursor) : Prop :=
  ∃ buffers : List Bytes, buffers.flatten <+: script ∧
    x = ⟨⟨script.toArray, buffers.flatten.length⟩, buffers.map FillCall.granted⟩ ∧
    y = ⟨⟨script.toArray, buffers.flatten.length⟩, buffers.map FillCall.granted⟩

/-- **A checked fill keeps sources in step** and is granted by both with the same bytes, if the script still covers it. -/
theorem InStep.deliver {script : Bytes} {x : Recorded Replay} {y : Recorded Cursor} (h : InStep script x y) {n : Nat}
    (hroom : asked x.calls + n ≤ script.length) :
    (deliver x n).outcome = (deliver y n).outcome ∧ InStep script (deliver x n).next (deliver y n).next := by
  by_cases hn : n = 0
  · subst hn
    exact ⟨rfl, h⟩
  · obtain ⟨buffers, ⟨rest, rfl⟩, rfl, rfl⟩ := h
    rw [asked_granted] at hroom
    have hle : buffers.flatten.length + n ≤ (buffers.flatten ++ rest).toArray.size := hroom
    have hrest : n ≤ rest.length := by
      rw [List.length_append] at hroom
      omega
    have hslice : ((buffers.flatten ++ rest).toArray.extract buffers.flatten.length (buffers.flatten.length + n)).toList =
        rest.take n := by
      rw [Array.toList_extract, List.extract_eq_take_drop, List.drop_left, Nat.add_sub_cancel_left]
    have hflat : (buffers ++ [rest.take n]).flatten = buffers.flatten ++ rest.take n := by simp
    have hlen : (buffers ++ [rest.take n]).flatten.length = buffers.flatten.length + n := by
      rw [hflat, List.length_append, List.length_take, Nat.min_eq_left hrest]
    rw [Recorded.deliver_of_ok hn (Replay.fill_of_le hle), Recorded.deliver_of_ok hn (Cursor.fill_of_le hle), hslice]
    refine ⟨rfl, buffers ++ [rest.take n], ?_, ?_, ?_⟩
    · rw [hflat]
      exact (List.prefix_append_right_inj _).2 (List.take_prefix n rest)
    · rw [hlen, List.map_append]
      rfl
    · rw [hlen, List.map_append]
      rfl

theorem InStep.calls_eq {script : Bytes} {x : Recorded Replay} {y : Recorded Cursor} (h : InStep script x y) :
    x.calls = y.calls := by
  obtain ⟨buffers, -, rfl, rfl⟩ := h
  rfl

theorem asked_deliver [Entropy σ] (x : Recorded σ) (n : Nat) : asked (deliver x n).next.calls = asked x.calls + n := by
  by_cases hn : n = 0
  · subst hn
    rfl
  · rw [Recorded.deliver_calls x hn, asked_append]
    rfl

theorem asked_fill_lt [Entropy σ] (limit : Nat) (x : Recorded σ) (n : Nat) (h : ¬ asked x.calls ≤ limit) :
    ¬ asked (Entropy.fill x n).next.calls ≤ limit := by
  rw [Recorded.fill_calls, asked_append]
  omega

theorem inStep_within (script : Bytes) :
    AnswerAlikeWithin (fun x : Recorded Replay => asked x.calls ≤ script.length) (InStep script) where
  left := asked_fill_lt script.length
  outcome {x _} h n hW := (h.deliver (asked_deliver x n ▸ hW)).1
  next {x _} h n hW := (h.deliver (asked_deliver x n ▸ hW)).2

theorem inStep_within_flip (script : Bytes) :
    AnswerAlikeWithin (fun y : Recorded Cursor => asked y.calls ≤ script.length) (fun y x => InStep script x y) where
  left := asked_fill_lt script.length
  outcome {y _} h n hW := (h.deliver (h.calls_eq ▸ asked_deliver y n ▸ hW)).1.symm
  next {y _} h n hW := (h.deliver (h.calls_eq ▸ asked_deliver y n ▸ hW)).2

theorem undisturbed_inStep (script : Bytes) : Undisturbed (InStep script) where
  first {x _} _ n := deliver_not_interrupted (x.source.fill_not_interrupted n)
  second {_ y} _ n := deliver_not_interrupted (y.source.fill_not_interrupted n)

/-! ## Sessions in step -/

namespace Session

variable [Arith F] {script : Bytes} {generators : Array (Generator F)} {rs : List (Request F)}

theorem within_of_asked [Entropy σ] {s : Session F σ} {limit : Nat} (hone : s.sources.size = 1)
    (h : asked (s.calls 0 rs) ≤ limit) : (s.recorded.run rs).2.Within fun x => asked x.calls ≤ limit := by
  intro i x hx
  have hmoves := s.recorded.moves_run rs i
  rw [hx] at hmoves
  have hi : i = 0 := by
    cases i with
    | zero => rfl
    | succ i =>
      have hnone : s.sources[i + 1]? = none := Array.getElem?_eq_none_iff.2 (by omega)
      rw [s.sources_recorded, hnone] at hmoves
      cases hmoves
  subst hi
  simpa only [calls, hx, Option.map_some, Option.getD_some] using h

/-- sessions that ask for no more than the script holds are alike, call by call -/
theorem inStep_run (hrs : ∀ r ∈ rs, r.ofGenerator = true)
    (h : asked ((replaying script generators).calls 0 rs) ≤ script.length ∨
      asked ((reading script generators).calls 0 rs) ≤ script.length) :
    ((replaying script generators).recorded.run rs).1 = ((reading script generators).recorded.run rs).1 ∧
      ((replaying script generators).recorded.run rs).2.Alike (InStep script) ((reading script generators).recorded.run rs).2 := by
  have hstart : InStep script ⟨⟨script.toArray, 0⟩, []⟩ ⟨⟨script.toArray, 0⟩, []⟩ := ⟨[], List.nil_prefix, rfl, rfl⟩
  have halike : (replaying script generators).recorded.Alike (InStep script) (reading script generators).recorded := by
    refine ⟨rfl, fun i => ?_⟩
    rw [sources_recorded, sources_recorded]
    cases i with
    | zero => exact .some hstart
    | succ i => exact .none
  rcases h with h | h
  · exact halike.run (inStep_within script) (undisturbed_inStep script) hrs (within_of_asked rfl h)
  · obtain ⟨hanswers, hend⟩ :=
      halike.symm.run (inStep_within_flip script) (undisturbed_inStep script).symm hrs (within_of_asked rfl h)
    exact ⟨hanswers.symm, hend.symm⟩

/-- what both sessions leave behind: the same generators, the same calls, and the opening of the script handed out -/
theorem inStep_end (hrs : ∀ r ∈ rs, r.ofGenerator = true)
    (h : asked ((replaying script generators).calls 0 rs) ≤ script.length ∨
      asked ((reading script generators).calls 0 rs) ≤ script.length) :
    ((replaying script generators).run rs).2.generators = ((reading script generators).run rs).2.generators ∧
      ∃ buffers : List Bytes, buffers.flatten <+: script ∧
        (replaying script generators).calls 0 rs = buffers.map FillCall.granted ∧
        (reading script generators).calls 0 rs = buffers.map FillCall.granted ∧
        ((replaying script generators).run rs).2.sources[0]? = some ⟨script.toArray, buffers.flatten.length⟩ ∧
        ((reading script generators).run rs).2.sources[0]? = some ⟨script.toArray, buffers.flatten.length⟩ := by
  have hstep := (inStep_run hrs h).2
  have hplain := ((replaying script generators).recorded_alike Replay.fill_not_interrupted hrs).2
  have hplain' := ((reading script generators).recorded_alike Cursor.fill_not_interrupted hrs).2
  refine ⟨?_, ?_⟩
  · rw [hplain.generators, hplain'.generators, hstep.generators]
  · rcases hstep.source_cases 0 with ⟨hnone, -⟩ | ⟨x, y, hx, hy, buffers, hscript, rfl, rfl⟩
    · have hmoves := (replaying script generators).recorded.moves_run rs 0
      rw [hnone, sources_recorded] at hmoves
      cases hmoves
    · obtain ⟨_, hx', rfl⟩ := hplain.source_of_some hx
      obtain ⟨_, hy', rfl⟩ := hplain'.source_of_some hy
      refine ⟨buffers, hscript, ?_, ?_, hx', hy'⟩
      · rw [calls, hx]
        rfl
      · rw [calls, hy]
        rfl

/-- **A script replayed and a script read in place are one source.** Any generators, whatever they keep, share a source over the
script, and are sent any requests. If no more bytes are asked for in all than the script holds, on the one source or on the
other, then all requests are answered alike over both. After each of them the generators are the same, with their spares, both
sources stand at the same position, and both have granted all calls with the same buffers, whichever generator called: put
together, the buffers are the opening of the script up to that position. -/
theorem replaying_eq_reading (hrs : ∀ r ∈ rs, r.ofGenerator = true)
    (h : asked ((replaying script generators).calls 0 rs) ≤ script.length ∨
      asked ((reading script generators).calls 0 rs) ≤ script.length) :
    ((replaying script generators).run rs).1 = ((reading script generators).run rs).1 ∧
    ∀ opening, opening <+: rs →
      ((replaying script generators).run opening).2.generators = ((reading script generators).run opening).2.generators ∧
      ∃ buffers : List Bytes, buffers.flatten <+: script ∧
        (replaying script generators).calls 0 opening = buffers.map FillCall.granted ∧
        (reading script generators).calls 0 opening = buffers.map FillCall.granted ∧
        ((replaying script generators).run opening).2.sources[0]? = some ⟨script.toArray, buffers.flatten.length⟩ ∧
        ((reading script generators).run opening).2.sources[0]? = some ⟨script.toArray, buffers.flatten.length⟩ := by
  refine ⟨?_, ?_⟩
  · rw [((replaying script generators).recorded_alike Replay.fill_not_interrupted hrs).1,
      ((reading script generators).recorded_alike Cursor.fill_not_interrupted hrs).1]
    exact (inStep_run hrs h).1
  · intro opening hopening
    -- the opening asks for no more than all requests do
    have hopeningrs : ∀ r ∈ opening, r.ofGenerator = true := fun r hr => hrs r (hopening.subset hr)
    have hreplaying := asked_mono ((replaying script generators).calls_opening 0 hopening)
    have hreading := asked_mono ((reading script generators).calls_opening 0 hopening)
    exact inStep_end hopeningrs (h.imp (Nat.le_trans hreplaying) (Nat.le_trans hreading))

/-- two generators over thirty-two bytes: a word, a bounded draw whose first word is redrawn, a read and a fill use them up -/
theorem replaying_eq_reading_redrawn :
    let script : Bytes := List.replicate 8 3 ++ List.replicate 8 0xff ++ List.replicate 16 5
    let generators : Array (Generator Float) :=
      #[{ source := 0, keepsSpare := true, tries := 3 }, { source := 0, keepsSpare := false, tries := 3 }]
    let rs : List (Request Float) := [.call 0 false .word, .call 1 false (.wordBelow 10), .readExact 1 5, .fill 0 3]
    asked ((replaying script generators).calls 0 rs) ≤ script.length ∧
      ((replaying script generators).run rs).1 = ((reading script generators).run rs).1 ∧
      ((replaying script generators).run rs).2.generators = ((reading script generators).run rs).2.generators := by
  intro script generators rs
  have hrs : ∀ r ∈ rs, r.ofGenerator = true := by decide
  have h : asked ((replaying script generators).calls 0 rs) ≤ script.length := by decide +kernel
  obtain ⟨hanswers, hopenings⟩ := replaying_eq_reading hrs (Or.inl h)
  exact ⟨h, hanswers, (hopenings rs (List.prefix_refl rs)).1⟩

end Session

end Sampling
