import FilemanagerHttpd.Library.Runs

/-!
# What a program does whatever it is answered

`Within A P Q p` says that every call of `p` is in `A`, every fault in `P` and every
result in `Q`, for all answers of the environment, possible or not. It needs no world, so
it is proved once for a function and used in every precondition that its calls and
faults satisfy.
-/

namespace FilemanagerHttpd.Library

variable {S : Signature} {F α β σ υ : Type}

/-- The faults and the results of a computation without calls. -/
def Sound (P : F → Prop) (Q : α → Prop) : Except F α → Prop
  | .ok a => Q a
  | .error f => P f

namespace Sound

variable {P : F → Prop} {Q : α → Prop} {R : β → Prop}

theorem bind {e : Except F α} {k : α → Except F β} (he : Sound P Q e)
    (hk : ∀ a, Q a → Sound P R (k a)) : Sound P R (e >>= k) := by
  cases e with
  | ok a => exact hk a he
  | error f => exact he

theorem ite {c : Prop} [Decidable c] {d e : Except F α} (hd : Sound P Q d) (he : Sound P Q e) :
    Sound P Q (if c then d else e) := by
  by_cases hc : c
  · rw [if_pos hc]; exact hd
  · rw [if_neg hc]; exact he

theorem always (e : Except F α) : Sound (fun _ => True) (fun _ => True) e := by
  cases e <;> trivial

theorem mono {P' : F → Prop} {Q' : α → Prop} {e : Except F α} (he : Sound P Q e)
    (hP : ∀ f, P f → P' f) (hQ : ∀ a, Q a → Q' a) : Sound P' Q' e := by
  cases e with
  | ok a => exact hQ a he
  | error f => exact hP f he

/-- What is known of the result from elsewhere. -/
theorem also {R : α → Prop} {e : Except F α} (he : Sound P Q e) (h : ∀ a, e = .ok a → R a) :
    Sound P R e := by
  cases e with
  | ok a => exact h a rfl
  | error f => exact he

theorem any {e : Except F α} (he : Sound P Q e) : Sound P (fun _ => True) e := by
  cases e with
  | ok a => trivial
  | error f => exact he

/-- What is not a result. -/
theorem ne {e : Except F α} {a : α} (he : Sound P Q e) (ha : ¬ Q a) : e ≠ .ok a := by
  intro h
  rw [h] at he
  exact ha he

end Sound

def Within (A : S.Call → Prop) (P : F → Prop) (Q : α → Prop) : Program S F α → Prop
  | .done a => Q a
  | .call c next => A c ∧ ∀ r, Within A P Q (next r)
  | .fault f => P f

namespace Within

variable {A B : S.Call → Prop} {P R : F → Prop} {Q : α → Prop} {T : β → Prop}

theorem pure {a : α} (ha : Q a) : Within A P Q (Pure.pure a : Program S F α) := ha

theorem ask {c : S.Call} (hc : A c) : Within A P (fun _ => True) (Program.ask c : Program S F _) :=
  ⟨hc, fun _ => trivial⟩

theorem fault {f : F} (hf : P f) : Within A P Q (.fault f : Program S F α) := hf

theorem bind {p : Program S F α} {k : α → Program S F β} (hp : Within A P Q p)
    (hk : ∀ a, Q a → Within A P T (k a)) : Within A P T (p >>= k) := by
  induction p with
  | done a => exact hk a hp
  | call c next ih => exact ⟨hp.1, fun r => ih r (hp.2 r)⟩
  | fault f => exact hp

theorem ite {c : Prop} [Decidable c] {p q : Program S F α} (hp : Within A P Q p)
    (hq : Within A P Q q) : Within A P Q (if c then p else q) := by
  by_cases hc : c
  · rw [if_pos hc]; exact hp
  · rw [if_neg hc]; exact hq

/-- A computation without calls that is lifted in a `do` block. -/
theorem lift {e : Except F α} (he : Sound P Q e) : Within A P Q (liftM e : Program S F α) := by
  cases e with
  | ok a => exact he
  | error f => exact he

theorem mono {p : Program S F α} {Q' : α → Prop} (hp : Within A P Q p) (hA : ∀ c, A c → B c)
    (hP : ∀ f, P f → R f) (hQ : ∀ a, Q a → Q' a) : Within B R Q' p := by
  induction p with
  | done a => exact hQ a hp
  | call c next ih => exact ⟨hA c hp.1, fun r => ih r (hp.2 r)⟩
  | fault f => exact hP f hp

/-- The same calls and faults, whatever the result. -/
theorem any {p : Program S F α} (hp : Within A P Q p) : Within A P (fun _ => True) p :=
  hp.mono (fun _ h => h) (fun _ h => h) fun _ _ => trivial

theorem iterate {out : F} {body : υ → Program S F (υ ⊕ β)} (hout : P out)
    (hbody : ∀ x, Within A P (fun r => ∀ b, r = .inr b → T b) (body x)) (n : Nat) (x : υ) :
    Within A P T (Program.iterate out body n x) := by
  induction n generalizing x with
  | zero => exact hout
  | succ n ih =>
    refine bind (hbody x) ?_
    rintro (y | b) hr
    · exact ih y
    · exact hr b rfl

/-- A loop whose result may be any. -/
theorem loop {out : F} {body : υ → Program S F (υ ⊕ β)} (hout : P out)
    (hbody : ∀ x, Within A P (fun _ => True) (body x)) (n : Nat) (x : υ) :
    Within A P (fun _ => True) (Program.iterate out body n x) :=
  iterate hout (fun x => (hbody x).mono (fun _ h => h) (fun _ h => h) fun _ _ _ _ => trivial) n x

/-- A program whose calls keep an invariant of the world keeps it. -/
theorem wp {W : World S σ} {D : Duty S F σ} {I : σ → Prop} {p : Program S F α}
    (hp : Within A P Q p) (hguard : ∀ c s, A c → I s → D.guard c s)
    (hfault : ∀ f s, P f → I s → D.faulted f s)
    (hkeep : ∀ c s r s', A c → I s → W s c r s' → I s') {s : σ} (hs : I s) :
    wp W D p (fun a t => Q a ∧ I t) s := by
  induction p generalizing s with
  | done a => exact ⟨hp, hs⟩
  | call c next ih =>
    exact ⟨hguard c s hp.1 hs, fun r s' hw => ih r (hp.2 r) (hkeep c s r s' hp.1 hs hw)⟩
  | fault f => exact hfault f s hp hs

/-- The fault that a run ends in. -/
theorem faults {W : World S σ} {p : Program S F α} (hp : Within A P Q p) {s t : σ} {f : F}
    (hr : Runs W p s (.fault f) t) : P f := by
  generalize hq : Program.fault f = q at hr
  induction hr with
  | refl => subst hq; exact hp
  | step _ _ ih => exact ih (hp.2 _) hq

end Within

/-- What a program returns, however it is answered. -/
def Yields (Q : α → Prop) (p : Program S F α) : Prop :=
  Within (fun _ => True) (fun _ => True) Q p

namespace Yields

variable {Q R : α → Prop} {T : β → Prop}

theorem pure {a : α} (ha : Q a) : Yields Q (Pure.pure a : Program S F α) := ha

theorem any (p : Program S F α) : Yields (fun _ => True) p := by
  induction p with
  | done a => trivial
  | call c next ih => exact ⟨trivial, ih⟩
  | fault f => trivial

theorem bind {p : Program S F α} {k : α → Program S F β} (hp : Yields Q p)
    (hk : ∀ a, Q a → Yields T (k a)) : Yields T (p >>= k) := Within.bind hp hk

/-- What comes first may return anything. -/
theorem seq {p : Program S F α} {k : α → Program S F β} (hk : ∀ a, Yields T (k a)) :
    Yields T (p >>= k) := bind (any p) fun a _ => hk a

theorem ite {c : Prop} [Decidable c] {p q : Program S F α} (hp : c → Yields Q p)
    (hq : ¬ c → Yields Q q) : Yields Q (if c then p else q) := by
  by_cases hc : c
  · rw [if_pos hc]; exact hp hc
  · rw [if_neg hc]; exact hq hc

theorem fault {f : F} : Yields Q (.fault f : Program S F α) := trivial

theorem mono {p : Program S F α} (hp : Yields R p) (hQ : ∀ a, R a → Q a) : Yields Q p :=
  Within.mono hp (fun _ h => h) (fun _ h => h) hQ

/-- The loop rule: an invariant of the rounds. -/
theorem iterate {out : F} {body : υ → Program S F (υ ⊕ β)} {I : υ → Prop}
    (hbody : ∀ x, I x → Yields (Sum.elim I T) (body x)) (n : Nat) {x : υ} (hx : I x) :
    Yields T (Program.iterate out body n x) := by
  induction n generalizing x with
  | zero => trivial
  | succ n ih =>
    refine bind (hbody x hx) ?_
    rintro (y | b) hr
    · exact ih hr
    · exact hr

theorem returns {W : World S σ} {p : Program S F α} (hp : Yields Q p) {s t : σ} {a : α}
    (hr : Runs W p s (.done a) t) : Q a := by
  generalize hq : Program.done a = q at hr
  induction hr with
  | refl => subst hq; exact hp
  | step _ _ ih => exact ih (hp.2 _) hq

end Yields

/-- Calls, faults and results, proved apart. -/
theorem Within.yields {A : S.Call → Prop} {P : F → Prop} {Q R : α → Prop} {p : Program S F α}
    (hp : Within A P Q p) (hr : Yields R p) : Within A P R p := by
  induction p with
  | done a => exact hr
  | call c next ih => exact ⟨hp.1, fun r => ih r (hp.2 r) (hr.2 r)⟩
  | fault f => exact hp

end FilemanagerHttpd.Library
