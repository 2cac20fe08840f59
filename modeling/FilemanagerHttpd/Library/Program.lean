import Mathlib

/-!
# Programs that talk to an environment

A program is a tree of calls: each inner node asks the environment one question
and continues with the answer, whatever it is. A leaf is a returned value or a
fault. Nothing here says what the calls mean; a `World` does, in `Runs`.

Loops take an explicit bound on the number of their iterations. A loop that uses
the bound up ends in the fault it was given, so a statement about every bound
covers every finite run of the unbounded loop.
-/

namespace FilemanagerHttpd.Library

/-- The calls a program may make, and the type of the answer to each. -/
structure Signature where
  Call : Type
  Answer : Call → Type

inductive Program (S : Signature) (F α : Type) where
  | done (a : α)
  | call (c : S.Call) (next : S.Answer c → Program S F α)
  | fault (f : F)

namespace Program

variable {S : Signature} {F α β γ σ : Type}

def bind : Program S F α → (α → Program S F β) → Program S F β
  | .done a, k => k a
  | .call c next, k => .call c (fun r => (next r).bind k)
  | .fault f, _ => .fault f

instance : Monad (Program S F) where
  pure := .done
  bind := Program.bind

/-- Ask one question and return its answer. -/
def ask (c : S.Call) : Program S F (S.Answer c) := .call c .done

@[simp] theorem pure_eq (a : α) : (pure a : Program S F α) = .done a := rfl
@[simp] theorem done_bind (a : α) (k : α → Program S F β) : (Program.done a >>= k) = k a := rfl
@[simp] theorem fault_bind (f : F) (k : α → Program S F β) :
    ((Program.fault f : Program S F α) >>= k) = .fault f := rfl
@[simp] theorem call_bind (c : S.Call) (next : S.Answer c → Program S F α)
    (k : α → Program S F β) :
    (Program.call c next >>= k) = .call c (fun r => next r >>= k) := rfl
@[simp] theorem ask_bind (c : S.Call) (k : S.Answer c → Program S F β) :
    ((ask c : Program S F _) >>= k) = .call c k := rfl

theorem bind_done (p : Program S F α) : (p >>= Program.done) = p := by
  induction p with
  | done a => rfl
  | call c next ih => rw [call_bind]; congr 1; funext r; exact ih r
  | fault f => rfl

theorem bind_assoc (p : Program S F α) (k : α → Program S F β) (l : β → Program S F γ) :
    (p >>= k >>= l) = p >>= fun a => k a >>= l := by
  induction p with
  | done a => rfl
  | call c next ih => simp only [call_bind]; congr 1; funext r; exact ih r
  | fault f => rfl

instance : LawfulMonad (Program S F) :=
  LawfulMonad.mk' _ (fun p => bind_done p) (fun _ _ => rfl) bind_assoc

/-- A computation without calls, as a program. -/
def ofExcept : Except F α → Program S F α
  | .ok a => .done a
  | .error f => .fault f

@[simp] theorem ofExcept_ok (a : α) : (ofExcept (.ok a) : Program S F α) = .done a := rfl
@[simp] theorem ofExcept_error (f : F) : (ofExcept (.error f) : Program S F α) = .fault f := rfl

instance : MonadLift (Except F) (Program S F) := ⟨ofExcept⟩

/-- Repeat `body` until it returns `.inr`, at most `n` times. -/
def iterate (out : F) (body : σ → Program S F (σ ⊕ β)) : Nat → σ → Program S F β
  | 0, _ => .fault out
  | n + 1, s => body s >>= fun
    | .inl s' => iterate out body n s'
    | .inr b => .done b

/-- The same program with other names for its faults. -/
def mapFault {E : Type} (f : F → E) : Program S F α → Program S E α
  | .done a => .done a
  | .call c next => .call c fun r => (next r).mapFault f
  | .fault e => .fault (f e)

@[simp] theorem iterate_zero (out : F) (body : σ → Program S F (σ ⊕ β)) (s : σ) :
    iterate out body 0 s = .fault out := rfl

end Program

end FilemanagerHttpd.Library
