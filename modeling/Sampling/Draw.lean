/-
Programs that draw.

A sampler is a `Draw F α`: a tree that asks for bytes or for a standard normal deviate, reports a settled bounded draw, raises a
fault, or ends with a value. It never sees where the bytes come from and cannot catch a failed fill, so what a machine does with
failures, with the spare deviate and with the log holds of every sampler at once. `stuck` is the end of a rejection loop that
has used up the tries it was given.
-/
import Sampling.Fault

namespace Sampling

/-- a program that draws and ends with an `α`; its deviates are numbers of type `F` -/
inductive Draw (F α : Type) where
  | done (a : α)
  | fault (f : Fault F)
  | stuck
  | fill (n : Nat) (next : Bytes → Draw F α)
  | deviate (next : F → Draw F α)
  | settled (bound value : UInt64) (redraws : UInt32) (next : Draw F α)

namespace Draw

variable {F α β γ : Type}

def bind : Draw F α → (α → Draw F β) → Draw F β
  | done a, k => k a
  | fault f, _ => fault f
  | stuck, _ => stuck
  | fill n next, k => fill n fun b => (next b).bind k
  | deviate next, k => deviate fun z => (next z).bind k
  | settled bound value redraws next, k => settled bound value redraws (next.bind k)

instance : Monad (Draw F) where
  pure := done
  bind := bind

/-! ## Laws of sequencing -/

@[simp] theorem pure_eq (a : α) : (pure a : Draw F α) = done a := rfl

@[simp] theorem bind_eq (p : Draw F α) (k : α → Draw F β) : p >>= k = p.bind k := rfl

theorem map_eq (f : α → β) (p : Draw F α) : f <$> p = p.bind fun a => done (f a) := rfl

@[simp] theorem done_bind (a : α) (k : α → Draw F β) : (done a).bind k = k a := rfl

@[simp] theorem fault_bind (f : Fault F) (k : α → Draw F β) : (fault f).bind k = fault f := rfl

@[simp] theorem bind_done (p : Draw F α) : p.bind done = p := by
  induction p with
  | done a => rfl
  | fault f => rfl
  | stuck => rfl
  | fill n next ih => simp only [bind, ih]
  | deviate next ih => simp only [bind, ih]
  | settled bound value redraws next ih => simp only [bind, ih]

theorem bind_assoc (p : Draw F α) (k : α → Draw F β) (l : β → Draw F γ) :
    (p.bind k).bind l = p.bind fun a => (k a).bind l := by
  induction p with
  | done a => rfl
  | fault f => rfl
  | stuck => rfl
  | fill n next ih => simp only [bind, ih]
  | deviate next ih => simp only [bind, ih]
  | settled bound value redraws next ih => simp only [bind, ih]

instance : LawfulMonad (Draw F) := LawfulMonad.mk' _ (fun p => bind_done p) (fun _ _ => rfl) bind_assoc

/-! ## Guards -/

/-- go on only if a condition on the parameters holds -/
def require (ok : Bool) (f : Fault F) (p : Draw F α) : Draw F α :=
  if ok then p else fault f

/-- a parameter check's result as a program -/
def ofExcept : Except (Fault F) α → Draw F α
  | .ok a => done a
  | .error f => fault f

/-! ## One program for every item -/

/-- run a program for every item in turn; `got` holds the results so far, newest first -/
def eachFrom (p : α → Draw F β) : (got : List β) → List α → Draw F (List β)
  | got, [] => done got.reverse
  | got, x :: rest => do
    let y ← p x
    eachFrom p (y :: got) rest

/-- the results of a program for every item in turn, in list order -/
def each (p : α → Draw F β) (items : List α) : Draw F (List β) := eachFrom p [] items

/-- what has been got comes before what is to come -/
theorem eachFrom_eq (p : α → Draw F β) (got : List β) (items : List α) :
    eachFrom p got items = (each p items).bind fun ys => done (got.reverse ++ ys) := by
  induction items generalizing got with
  | nil => simp [each, eachFrom]
  | cons x rest ih =>
    unfold each eachFrom
    rw [bind_eq, bind_eq, bind_assoc]
    congr 1
    funext y
    rw [ih (y :: got), ih [y], bind_assoc]
    simp

@[simp] theorem each_nil (p : α → Draw F β) : each p [] = done [] := rfl

theorem each_cons (p : α → Draw F β) (x : α) (rest : List α) :
    each p (x :: rest) = (p x).bind fun y => (each p rest).bind fun ys => done (y :: ys) := by
  unfold each
  rw [eachFrom, bind_eq]
  congr 1
  funext y
  rw [eachFrom_eq]
  rfl

end Draw

end Sampling
