import FilemanagerHttpd.Library.Conduct

/-!
# Resources that a program owns

A ledger tells what a state of the world holds, and what a call uses, gives back and takes up.
A program owns a part of what is held, and the rest is its frame. It uses and gives back what it
owns only, so whatever has been proved of it holds beside every frame, and the frame is held as
before when it returns.
-/

namespace FilemanagerHttpd.Library

variable {S : Signature} {F α β σ υ R : Type}

/-- What every call that does its duty keeps is kept, and the duty may be another one where it
holds. -/
theorem wp_keeps {W : World S σ} {D E : Duty S F σ} {I : σ → Prop} {p : Program S F α}
    {Q : α → σ → Prop} {s : σ}
    (hkeep : ∀ c t r t', D.guard c t → I t → W t c r t' → I t')
    (hguard : ∀ c t, D.guard c t → I t → E.guard c t)
    (hfault : ∀ f t, D.faulted f t → I t → E.faulted f t) (hI : I s)
    (hp : wp W D p Q s) : wp W E p (fun a t => Q a t ∧ I t) s := by
  induction p generalizing s with
  | done a => exact ⟨hp, hI⟩
  | call c next ih =>
    refine ⟨hguard c s hp.1 hI, fun r s' hw => ?_⟩
    exact ih r (hkeep c s r s' hp.1 hI hw) (hp.2 r s' hw)
  | fault f => exact hfault f s hp hI

/-- What is held, and what the calls do with it. -/
structure Ledger (W : World S σ) (R : Type) where
  held : σ → Multiset R
  uses : S.Call → Multiset R
  gives : S.Call → Multiset R
  takes : (c : S.Call) → S.Answer c → Multiset R
  held_step : ∀ {s : σ} {c : S.Call} {r : S.Answer c} {s' : σ} {rest : Multiset R}, W s c r s' →
    (held s).Nodup → held s = gives c + rest →
    held s' = rest + takes c r ∧ (rest + takes c r).Nodup

namespace Ledger

variable {W : World S σ} (L : Ledger W R)

/-- Exactly these resources are held, each of them once. -/
structure Holds (own : Multiset R) (s : σ) : Prop where
  held : L.held s = own
  nodup : own.Nodup

theorem Holds.step {L : Ledger W R} {own rest : Multiset R} {s s' : σ} {c : S.Call}
    {r : S.Answer c} (hs : L.Holds own s) (hw : W s c r s') (hgives : own = L.gives c + rest) :
    L.Holds (rest + L.takes c r) s' := by
  have hstep := L.held_step hw (hs.held ▸ hs.nodup) (hs.held.trans hgives)
  exact ⟨hstep.1, hstep.2⟩

/-- A call uses and gives back what is held, and nothing of the frame. -/
structure Proper (frame : Multiset R) (c : S.Call) (s : σ) : Prop where
  uses_held : ∀ x ∈ L.uses c, x ∈ L.held s ∧ x ∉ frame
  gives_held : L.gives c ≤ L.held s
  frame_kept : ∀ x ∈ L.gives c, x ∉ frame

/-- A duty, and to make proper calls only. -/
def duty (D : Duty S F σ) (frame : Multiset R) : Duty S F σ :=
  ⟨fun c s => D.guard c s ∧ L.Proper frame c s, D.faulted⟩

/-- With `own`, beside any frame, `p` does its duty with proper calls, and it ends in `Q` with
what it owns then. -/
def Owns (D : Duty S F σ) (own : Multiset R) (p : Program S F α)
    (Q : α → Multiset R → σ → Prop) (s : σ) : Prop :=
  ∀ frame, L.Holds (own + frame) s →
    wp W (L.duty D frame) p (fun a t => ∃ own', Q a own' t ∧ L.Holds (own' + frame) t) s

namespace Owns

variable {L} {D : Duty S F σ} {own extra : Multiset R} {Q Q' : α → Multiset R → σ → Prop}
  {T : β → Multiset R → σ → Prop} {s : σ}

theorem pure {a : α} (hQ : Q a own s) : L.Owns D own (Pure.pure a) Q s :=
  fun _ hs => ⟨own, hQ, hs⟩

theorem fault {f : F} (hf : D.faulted f s) : L.Owns D own (.fault f) Q s := fun _ _ => hf

theorem mono {p : Program S F α} (hp : L.Owns D own p Q s)
    (hQ : ∀ a o t, Q a o t → Q' a o t) : L.Owns D own p Q' s := by
  intro frame hs
  refine wp_mono (hp frame hs) ?_
  rintro a t ⟨o, ho, ht⟩
  exact ⟨o, hQ a o t ho, ht⟩

/-- What every run of the program ends in. -/
theorem also {p : Program S F α} {X : α → σ → Prop} (hp : L.Owns D own p Q s)
    (hX : wp W .none p X s) : L.Owns D own p (fun a o t => Q a o t ∧ X a t) s := by
  intro frame hs
  refine wp_weaken (wp_and (hp frame hs) hX) (fun _ _ hc => hc.1) (fun _ _ hf => hf.1) ?_
  rintro a t ⟨⟨o, ho, ht⟩, hx⟩
  exact ⟨o, ⟨ho, hx⟩, ht⟩

theorem seq {p : Program S F α} {k : α → Program S F β} (hp : L.Owns D own p Q s)
    (hk : ∀ a o t, Q a o t → L.Owns D o (k a) T t) : L.Owns D own (p >>= k) T s := by
  intro frame hs
  refine wp_seq (hp frame hs) ?_
  rintro a t ⟨o, ho, ht⟩
  exact hk a o t ho frame ht

/-- The frame rule: what else is owned is still owned. -/
theorem frame {p : Program S F α} (hp : L.Owns D own p Q s) (extra : Multiset R) :
    L.Owns D (own + extra) p (fun a o t => ∃ o', o = o' + extra ∧ Q a o' t) s := by
  intro frame hs
  rw [add_assoc] at hs
  have hless : ∀ x, x ∉ extra + frame → x ∉ frame :=
    fun x hx hm => hx (Multiset.mem_add.mpr (.inr hm))
  refine wp_weaken (hp (extra + frame) hs) ?_ (fun _ _ h => h) ?_
  · rintro c t ⟨hc, hproper⟩
    exact ⟨hc, fun x hx => (hproper.uses_held x hx).imp_right (hless x), hproper.gives_held,
      fun x hx => hless x (hproper.frame_kept x hx)⟩
  · rintro a t ⟨o', ho', ht⟩
    refine ⟨o' + extra, ⟨o', rfl, ho'⟩, ?_⟩
    rw [add_assoc]
    exact ht

/-- Sequencing where the first part works with some of what is owned. -/
theorem part {p : Program S F α} {k : α → Program S F β} (hp : L.Owns D own p Q s)
    (hk : ∀ a o t, Q a o t → L.Owns D (o + extra) (k a) T t) :
    L.Owns D (own + extra) (p >>= k) T s := by
  refine (hp.frame extra).seq ?_
  rintro a _ t ⟨o, rfl, ho⟩
  exact hk a o t ho

/-- A call: what it uses and gives back is owned, and what it takes up is owned behind it. -/
theorem perform {c : S.Call} {k : S.Answer c → Program S F β} {o : Multiset R}
    (hc : D.guard c s) (huses : ∀ x ∈ L.uses c, x ∈ own) (hgives : own = L.gives c + o)
    (hk : ∀ r s', W s c r s' → L.Owns D (o + L.takes c r) (k r) T s') :
    L.Owns D own (Program.ask c >>= k) T s := by
  intro frame hs
  have hframe : own + frame = L.gives c + (o + frame) := by rw [hgives, add_assoc]
  have hapart : ∀ x ∈ own, x ∉ frame := fun x hx =>
    Multiset.disjoint_left.mp (Multiset.nodup_add.mp hs.nodup).2.2 hx
  refine ⟨⟨hc, fun x hx => ⟨?_, hapart x (huses x hx)⟩, ?_, fun x hx => hapart x ?_⟩,
    fun r s' hw => hk r s' hw frame ?_⟩
  · rw [hs.held]
    exact Multiset.mem_add.mpr (.inl (huses x hx))
  · rw [hs.held, hframe]
    exact Multiset.le_add_right _ _
  · rw [hgives]
    exact Multiset.mem_add.mpr (.inl hx)
  · have hswap : o + L.takes c r + frame = o + frame + L.takes c r := by abel
    rw [hswap]
    exact hs.step hw hframe

theorem ite {c : Prop} [Decidable c] {p q : Program S F α} (hp : c → L.Owns D own p Q s)
    (hq : ¬ c → L.Owns D own q Q s) : L.Owns D own (if c then p else q) Q s := by
  by_cases hc : c
  · rw [if_pos hc]
    exact hp hc
  · rw [if_neg hc]
    exact hq hc

/-- The loop rule. -/
theorem iterate {out : F} {body : υ → Program S F (υ ⊕ β)} {I : υ → Multiset R → σ → Prop}
    (hout : ∀ t, D.faulted out t)
    (hbody : ∀ x o t, I x o t → L.Owns D o (body x)
      (fun r o' t' => AfterRound (fun y u => I y o' u) (fun b u => T b o' u) r t') t)
    (n : Nat) {x : υ} (hI : I x own s) : L.Owns D own (Program.iterate out body n x) T s := by
  induction n generalizing x own s with
  | zero => exact fault (hout s)
  | succ n ih =>
    refine seq (hbody x own s hI) ?_
    rintro (y | b) o t ht
    · exact ih ht
    · exact pure ht

/-- Calls that use, give back and take up nothing leave what is owned as it is. -/
theorem within {A : S.Call → Prop} {P : F → Prop} {X : α → Prop} {p : Program S F α}
    (hp : Within A P X p) (hguard : ∀ c t, A c → D.guard c t) (hfault : ∀ f t, P f → D.faulted f t)
    (huses : ∀ c, A c → L.uses c = 0 ∧ L.gives c = 0 ∧ ∀ r, L.takes c r = 0) :
    L.Owns D own p (fun a o _ => o = own ∧ X a) s := by
  induction p generalizing s with
  | done a => exact pure ⟨rfl, hp⟩
  | call c next ih =>
    obtain ⟨hnone, hgives, htakes⟩ := huses c hp.1
    refine perform (k := next) (o := own) (hguard c s hp.1) ?_ ?_ ?_
    · rw [hnone]
      exact fun x hx => absurd hx (Multiset.notMem_zero x)
    · rw [hgives, zero_add]
    · intro r s' _
      rw [htakes, add_zero]
      exact ih r (hp.2 r)
  | fault f => exact fault (hfault f s hp)

theorem keeps {E : Duty S F σ} {I : σ → Prop} {p : Program S F α}
    (hkeep : ∀ c t r t', D.guard c t → I t → W t c r t' → I t')
    (hguard : ∀ c t, D.guard c t → I t → E.guard c t)
    (hfault : ∀ f t, D.faulted f t → I t → E.faulted f t) (hI : I s)
    (hp : L.Owns D own p Q s) : L.Owns E own p (fun a o t => Q a o t ∧ I t) s := by
  intro frame hs
  have hkept := wp_keeps (D := L.duty D frame) (E := L.duty E frame) (fun c t r t' hc => hkeep c t r t' hc.1)
    (fun c t hc hIt => ⟨hguard c t hc.1 hIt, hc.2⟩) hfault hI (hp frame hs)
  refine wp_mono hkept ?_
  rintro a t ⟨⟨o, ho, ht⟩, hIt⟩
  exact ⟨o, ⟨ho, hIt⟩, ht⟩

end Owns

end Ledger

end FilemanagerHttpd.Library
