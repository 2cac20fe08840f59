import FilemanagerHttpd.Library.Program

/-!
# Runs of a program in a world, and what holds along them

`Runs W p s q t` says that the program `p`, started in state `s` of the world
`W`, can reach the remaining program `q` with the world in state `t`. A run that
ends at `.done a` has returned `a`; a run may also be looked at anywhere before
that, so a fact about all runs is a fact about every moment of them.

`wp` is the weakest precondition for the same relation. It also carries the
`Duty` of the program: what must hold where it makes a call and where it faults.
-/

namespace FilemanagerHttpd.Library

variable {S : Signature} {F α β σ τ υ : Type}

/-- How the environment may answer a call, and how it changes by doing so. -/
def World (S : Signature) (σ : Type) := σ → (c : S.Call) → S.Answer c → σ → Prop

inductive Runs (W : World S σ) : Program S F α → σ → Program S F α → σ → Prop
  | refl (p : Program S F α) (s : σ) : Runs W p s p s
  | step {c : S.Call} {next : S.Answer c → Program S F α} {s s' t : σ} {r : S.Answer c}
      {q : Program S F α} :
      W s c r s' → Runs W (next r) s' q t → Runs W (.call c next) s q t

/-- What a program owes: a condition where it makes a call, and one where it faults. -/
structure Duty (S : Signature) (F σ : Type) where
  guard : S.Call → σ → Prop
  faulted : F → σ → Prop

/-- No duty: what the program returns is all that matters. -/
def Duty.none : Duty S F σ := ⟨fun _ _ => True, fun _ _ => True⟩

@[simp] theorem Duty.none_guard (c : S.Call) (s : σ) : (Duty.none : Duty S F σ).guard c s := trivial
@[simp] theorem Duty.none_faulted (f : F) (s : σ) : (Duty.none : Duty S F σ).faulted f s := trivial

/-- No fault, and nothing else. -/
def Duty.total : Duty S F σ := ⟨fun _ _ => True, fun _ _ => False⟩

@[simp] theorem Duty.total_guard (c : S.Call) (s : σ) :
    (Duty.total : Duty S F σ).guard c s := trivial

/-- Both duties. -/
def Duty.and (D E : Duty S F σ) : Duty S F σ :=
  ⟨fun c s => D.guard c s ∧ E.guard c s, fun f s => D.faulted f s ∧ E.faulted f s⟩

def wp (W : World S σ) (D : Duty S F σ) : Program S F α → (α → σ → Prop) → σ → Prop
  | .done a, Q, s => Q a s
  | .call c next, Q, s => D.guard c s ∧ ∀ r s', W s c r s' → wp W D (next r) Q s'
  | .fault f, _, s => D.faulted f s

section Rules

variable {W : World S σ} {D : Duty S F σ}

@[simp] theorem wp_done (a : α) (Q : α → σ → Prop) (s : σ) :
    wp W D (.done a) Q s ↔ Q a s := Iff.rfl

@[simp] theorem wp_fault (f : F) (Q : α → σ → Prop) (s : σ) :
    wp W D (.fault f) Q s ↔ D.faulted f s := Iff.rfl

@[simp] theorem wp_call (c : S.Call) (next : S.Answer c → Program S F α)
    (Q : α → σ → Prop) (s : σ) :
    wp W D (.call c next) Q s ↔
      D.guard c s ∧ ∀ r s', W s c r s' → wp W D (next r) Q s' := Iff.rfl

@[simp] theorem wp_ask (c : S.Call) (Q : S.Answer c → σ → Prop) (s : σ) :
    wp W D (Program.ask c) Q s ↔ D.guard c s ∧ ∀ r s', W s c r s' → Q r s' := Iff.rfl

theorem wp_bind (p : Program S F α) (k : α → Program S F β) (Q : β → σ → Prop) (s : σ) :
    wp W D (p >>= k) Q s ↔ wp W D p (fun a t => wp W D (k a) Q t) s := by
  induction p generalizing s with
  | done a => rfl
  | call c next ih =>
    rw [Program.call_bind, wp_call, wp_call]
    exact and_congr_right fun _ => forall₃_congr fun r s' _ => ih r s'
  | fault f => rfl

theorem wp_mono {p : Program S F α} {Q Q' : α → σ → Prop} {s : σ}
    (h : wp W D p Q s) (hQ : ∀ a t, Q a t → Q' a t) : wp W D p Q' s := by
  induction p generalizing s with
  | done a => exact hQ a s h
  | call c next ih => exact ⟨h.1, fun r s' hw => ih r (h.2 r s' hw)⟩
  | fault f => exact h

/-- Sequencing with a postcondition for the first part. -/
theorem wp_seq {p : Program S F α} {k : α → Program S F β} {R : α → σ → Prop}
    {Q : β → σ → Prop} {s : σ} (hp : wp W D p R s)
    (hk : ∀ a t, R a t → wp W D (k a) Q t) : wp W D (p >>= k) Q s :=
  (wp_bind p k Q s).mpr (wp_mono hp hk)

/-- Two preconditions hold together, duties included. -/
theorem wp_and {E : Duty S F σ} {p : Program S F α} {Q R : α → σ → Prop} {s : σ}
    (hq : wp W D p Q s) (hr : wp W E p R s) :
    wp W (D.and E) p (fun a t => Q a t ∧ R a t) s := by
  induction p generalizing s with
  | done a => exact ⟨hq, hr⟩
  | call c next ih =>
    exact ⟨⟨hq.1, hr.1⟩, fun r s' hw => ih r (hq.2 r s' hw) (hr.2 r s' hw)⟩
  | fault f => exact ⟨hq, hr⟩

/-- A weaker duty and a weaker postcondition. -/
theorem wp_weaken {E : Duty S F σ} {p : Program S F α} {Q R : α → σ → Prop} {s : σ}
    (h : wp W D p Q s) (hg : ∀ c t, D.guard c t → E.guard c t)
    (hx : ∀ f t, D.faulted f t → E.faulted f t) (hQ : ∀ a t, Q a t → R a t) :
    wp W E p R s := by
  induction p generalizing s with
  | done a => exact hQ a s h
  | call c next ih => exact ⟨hg c s h.1, fun r s' hw => ih r (h.2 r s' hw)⟩
  | fault f => exact hx f s h

/-- Other names for the faults change what is owed at them, and nothing else. -/
theorem wp_mapFault {E : Type} {D : Duty S E σ} (f : F → E) (p : Program S F α)
    (Q : α → σ → Prop) (s : σ) :
    wp W D (p.mapFault f) Q s ↔ wp W ⟨D.guard, fun e t => D.faulted (f e) t⟩ p Q s := by
  induction p generalizing s with
  | done a => rfl
  | call c next ih =>
    show D.guard c s ∧ _ ↔ D.guard c s ∧ _
    exact and_congr_right fun _ => forall₃_congr fun r s' _ => ih r s'
  | fault e => rfl

theorem wp_ofExcept (e : Except F α) (Q : α → σ → Prop) (s : σ) :
    wp W D (Program.ofExcept e) Q s ↔
      match e with
      | .ok a => Q a s
      | .error f => D.faulted f s := by cases e <;> rfl

/-- A computation without calls that is lifted in a `do` block. -/
theorem wp_lift {e : Except F α} {Q : α → σ → Prop} {s : σ} (hf : ∀ f, D.faulted f s)
    (hQ : ∀ a, e = .ok a → Q a s) : wp W D (liftM e : Program S F α) Q s := by
  cases e with
  | ok a => exact hQ a rfl
  | error f => exact hf f

/-- What a round of a loop owes: the invariant when the loop goes on, the postcondition when
it ends. -/
def AfterRound (I : υ → σ → Prop) (Q : β → σ → Prop) : υ ⊕ β → σ → Prop
  | .inl x, s => I x s
  | .inr b, s => Q b s

/-- The loop rule: an invariant that one round keeps, or turns into the result. -/
theorem wp_iterate {out : F} {body : υ → Program S F (υ ⊕ β)} {I : υ → σ → Prop}
    {Q : β → σ → Prop} (hout : ∀ s, D.faulted out s)
    (hbody : ∀ x s, I x s → wp W D (body x) (AfterRound I Q) s)
    (n : Nat) {x : υ} {s : σ} (h : I x s) :
    wp W D (Program.iterate out body n x) Q s := by
  induction n generalizing x s with
  | zero => exact hout s
  | succ n ih =>
    refine wp_seq (hbody x s h) ?_
    rintro (y | b) t ht
    · exact ih ht
    · exact ht

/-- The loop rule with a count of what is left to do, which each round lowers: a bound above the
count is never used up. -/
theorem wp_iterate_counted {out : F} {body : υ → Program S F (υ ⊕ β)}
    {I : Nat → υ → σ → Prop} {Q : β → σ → Prop}
    (hbody : ∀ k x s, I k x s →
      wp W D (body x) (AfterRound (fun y t => ∃ j < k, I j y t) Q) s)
    (n : Nat) {k : Nat} {x : υ} {s : σ} (h : I k x s) (hn : k < n) :
    wp W D (Program.iterate out body n x) Q s := by
  induction n generalizing k x s with
  | zero => exact absurd hn (Nat.not_lt_zero _)
  | succ n ih =>
    refine wp_seq (hbody k x s h) ?_
    rintro (y | b) t ht
    · obtain ⟨j, hj, hi⟩ : ∃ j < k, I j y t := ht
      exact ih hi (by omega)
    · exact ht

/-- The count is a measure of the loop's own state. -/
theorem wp_iterate_measure {out : F} {body : υ → Program S F (υ ⊕ β)}
    {I : υ → σ → Prop} {Q : β → σ → Prop} (μ : υ → Nat)
    (hbody : ∀ x s, I x s → wp W D (body x) (AfterRound (fun y t => I y t ∧ μ y < μ x) Q) s)
    (n : Nat) {x : υ} {s : σ} (h : I x s) (hn : μ x < n) :
    wp W D (Program.iterate out body n x) Q s := by
  refine wp_iterate_counted (I := fun k y t => I y t ∧ μ y = k) ?_ n ⟨h, rfl⟩ hn
  rintro k y t ⟨hi, rfl⟩
  refine wp_mono (hbody y t hi) ?_
  rintro (z | b) u hu
  · exact ⟨μ z, hu.2, hu.1, rfl⟩
  · exact hu

/-- What a step of the run leaves over still meets the precondition. -/
theorem wp_runs {p q : Program S F α} {Q : α → σ → Prop} {s t : σ}
    (h : wp W D p Q s) (hr : Runs W p s q t) : wp W D q Q t := by
  induction hr with
  | refl => exact h
  | step hw _ ih => exact ih (h.2 _ _ hw)

theorem wp_result {p : Program S F α} {Q : α → σ → Prop} {s t : σ} {a : α}
    (h : wp W D p Q s) (hr : Runs W p s (.done a) t) : Q a t := wp_runs h hr

/-- What is returned has been reached by a run. -/
theorem wp_reached {p : Program S F α} {Q : α → σ → Prop} {s : σ} (h : wp W D p Q s) :
    wp W D p (fun a t => Q a t ∧ Runs W p s (.done a) t) s := by
  induction p generalizing s with
  | done a => exact ⟨h, .refl _ _⟩
  | call c next ih =>
    refine ⟨h.1, fun r s' hw => ?_⟩
    apply wp_mono (ih r (h.2 r s' hw))
    intro a t ht
    exact ⟨ht.1, .step hw ht.2⟩
  | fault f => exact h

theorem wp_guard {p : Program S F α} {Q : α → σ → Prop} {s t : σ} {c : S.Call}
    {next : S.Answer c → Program S F α}
    (h : wp W D p Q s) (hr : Runs W p s (.call c next) t) : D.guard c t := (wp_runs h hr).1

theorem wp_faulted {p : Program S F α} {Q : α → σ → Prop} {s t : σ} {f : F}
    (h : wp W D p Q s) (hr : Runs W p s (.fault f) t) : D.faulted f t := wp_runs h hr

end Rules

namespace Runs

variable {W : World S σ}

theorem trans {p q r : Program S F α} {s t u : σ}
    (h₁ : Runs W p s q t) (h₂ : Runs W q t r u) : Runs W p s r u := by
  induction h₁ with
  | refl => exact h₂
  | step hw _ ih => exact .step hw (ih h₂)

/-- A run of the first part is a run of the sequence. -/
theorem bind {p q : Program S F α} {s t : σ} (h : Runs W p s q t) (k : α → Program S F β) :
    Runs W (p >>= k) s (q >>= k) t := by
  induction h with
  | refl => exact .refl _ _
  | step hw _ ih => exact .step hw ih

/-- A run of a sequence is still in its first part, or has finished it. -/
theorem of_bind {p : Program S F α} {k : α → Program S F β} {s t : σ} {q : Program S F β}
    (h : Runs W (p >>= k) s q t) :
    (∃ p', Runs W p s p' t ∧ q = (p' >>= k)) ∨
      ∃ a u, Runs W p s (.done a) u ∧ Runs W (k a) u q t := by
  induction p generalizing s with
  | done a => exact .inr ⟨a, s, .refl _ _, h⟩
  | call c next ih =>
    cases h with
    | refl => exact .inl ⟨_, .refl _ _, rfl⟩
    | step hw h' =>
      rcases ih _ h' with ⟨p', hp, hq⟩ | ⟨a, u, hp, hq⟩
      · exact .inl ⟨p', .step hw hp, hq⟩
      · exact .inr ⟨a, u, .step hw hp, hq⟩
  | fault f =>
    cases h with
    | refl => exact .inl ⟨_, .refl _ _, rfl⟩

/-- A sequence that has returned has finished both its parts. -/
theorem of_bind_done {p : Program S F α} {k : α → Program S F β} {s t : σ} {b : β}
    (h : Runs W (p >>= k) s (.done b) t) :
    ∃ a u, Runs W p s (.done a) u ∧ Runs W (k a) u (.done b) t := by
  rcases of_bind h with ⟨p', hp, hq⟩ | h
  · cases p' with
    | done a => exact ⟨a, t, hp, hq ▸ .refl _ _⟩
    | call => cases hq
    | fault => cases hq
  · exact h

/-- What has returned is over. -/
theorem done_eq {a b : α} {s t : σ} (h : Runs W (.done a : Program S F α) s (.done b) t) :
    a = b ∧ s = t := by
  cases h
  exact ⟨rfl, rfl⟩

end Runs

/-- One world follows another through `R` when each of its answers is one of the
other's, and the states stay related. -/
def Follows (W : World S σ) (V : World S τ) (R : σ → τ → Prop) : Prop :=
  ∀ s t c r t', R s t → V t c r t' → ∃ s', W s c r s' ∧ R s' t'

/-- A precondition carries over to a world that follows. -/
theorem wp_follows {W : World S σ} {V : World S τ} {D : Duty S F σ} {E : Duty S F τ}
    {R : σ → τ → Prop} (hf : Follows W V R)
    (hg : ∀ s t c, R s t → D.guard c s → E.guard c t)
    (hx : ∀ s t f, R s t → D.faulted f s → E.faulted f t)
    {p : Program S F α} {Q : α → σ → Prop} {s : σ} {t : τ} (hR : R s t)
    (h : wp W D p Q s) : wp V E p (fun a t' => ∃ s', R s' t' ∧ Q a s') t := by
  induction p generalizing s t with
  | done a => exact ⟨s, hR, h⟩
  | call c next ih =>
    refine ⟨hg s t c hR h.1, fun r t' hv => ?_⟩
    obtain ⟨s', hw, hR'⟩ := hf s t c r t' hR hv
    exact ih r hR' (h.2 r s' hw)
  | fault f => exact hx s t f hR h

end FilemanagerHttpd.Library
