import FilemanagerHttpd.Library.Runs

/-!
# Playing a program against a function that answers

A world says which answers are possible; a `Player` picks one. Playing a program
gives one of its runs, which can be computed.
-/

namespace FilemanagerHttpd.Library

variable {S : Signature} {F α σ τ : Type}

/-- One possible answer and the state after it, for every state and call. -/
def Player (W : World S σ) := (s : σ) → (c : S.Call) → {x : S.Answer c × σ // W s c x.1 x.2}

/-- A run in one world is a run in another one, when its states stand for states there. -/
theorem Runs.map {W : World S σ} {V : World S τ} {p q : Program S F α} {s t : σ}
    (h : Runs W p s q t) (f : σ → τ) (hf : ∀ s c r s', W s c r s' → V (f s) c r (f s')) :
    Runs V p (f s) q (f t) := by
  induction h with
  | refl => exact .refl _ _
  | step hw _ ih => exact .step (hf _ _ _ _ hw) ih

namespace Program

/-- Play to the end. -/
def play {W : World S σ} (pl : Player W) : Program S F α → σ → Program S F α × σ
  | .call c next, s => (next (pl s c).1.1).play pl (pl s c).1.2
  | p, s => (p, s)

/-- Playing gives a run. -/
theorem play_runs {W : World S σ} (pl : Player W) (p : Program S F α) (s : σ) :
    Runs W p s (p.play pl s).1 (p.play pl s).2 := by
  induction p generalizing s with
  | done a => exact .refl _ _
  | call c next ih => exact .step (pl s c).2 (ih _ _)
  | fault f => exact .refl _ _

/-- Play a number of calls at most. -/
def playFor {W : World S σ} (pl : Player W) : Nat → Program S F α → σ → Program S F α × σ
  | n + 1, .call c next, s => (next (pl s c).1.1).playFor pl n (pl s c).1.2
  | _, p, s => (p, s)

theorem playFor_runs {W : World S σ} (pl : Player W) (n : Nat) (p : Program S F α) (s : σ) :
    Runs W p s (p.playFor pl n s).1 (p.playFor pl n s).2 := by
  induction n generalizing p s with
  | zero => exact .refl _ _
  | succ n ih =>
    cases p with
    | done a => exact .refl _ _
    | call c next => exact .step (pl s c).2 (ih _ _)
    | fault f => exact .refl _ _

def result? : Program S F α → Option α
  | .done a => some a
  | _ => none

def fault? : Program S F α → Option F
  | .fault f => some f
  | _ => none

/-- The call that a program is about to make. -/
def call? : Program S F α → Option S.Call
  | .call c _ => some c
  | _ => none

theorem eq_call {p : Program S F α} {c : S.Call} (h : p.call? = some c) :
    ∃ next, p = .call c next := by
  cases p with
  | done => cases h
  | call c' next => obtain rfl : c' = c := Option.some.inj h; exact ⟨next, rfl⟩
  | fault => cases h

theorem eq_done {p : Program S F α} {a : α} (h : p.result? = some a) : p = .done a := by
  cases p with
  | done b => exact congrArg _ (Option.some.inj h)
  | call => cases h
  | fault => cases h

theorem eq_fault {p : Program S F α} {f : F} (h : p.fault? = some f) : p = .fault f := by
  cases p with
  | done => cases h
  | call => cases h
  | fault g => exact congrArg _ (Option.some.inj h)

/-- The same call or fault is next. -/
inductive SameNext {β : Type} : Program S F α → Program S F β → Prop
  | call (c : S.Call) (next : S.Answer c → Program S F α) (next' : S.Answer c → Program S F β) :
      SameNext (.call c next) (.call c next')
  | fault (f : F) : SameNext (.fault f) (.fault f)

theorem SameNext.trans {β γ : Type} {p : Program S F α} {q : Program S F β} {r : Program S F γ}
    (h : p.SameNext q) (h' : q.SameNext r) : p.SameNext r := by
  cases h with
  | call c next next' =>
    cases h' with
    | call _ _ next'' => exact .call c next next''
  | fault f =>
    cases h'
    exact .fault f

theorem SameNext.bind {β : Type} {p : Program S F α} {q : Program S F β} (h : p.SameNext q)
    {γ : Type} (k : α → Program S F γ) : (p >>= k).SameNext q := by
  cases h with
  | call c next next' => exact .call c _ next'
  | fault f => exact .fault f

/-- A run of a sequence is at a step of its first part, or has finished it. -/
theorem next_of_bind {β : Type} {W : World S σ} {p : Program S F α} {k : α → Program S F β}
    {s t : σ} {q : Program S F β} (h : Runs W (p >>= k) s q t) :
    (∃ p', Runs W p s p' t ∧ p'.SameNext q) ∨
      ∃ a u, Runs W p s (.done a) u ∧ Runs W (k a) u q t := by
  rcases h.of_bind with ⟨p', hp, rfl⟩ | hdone
  · cases p' with
    | done a => exact .inr ⟨a, t, hp, .refl _ _⟩
    | call c next => exact .inl ⟨_, hp, .call c next _⟩
    | fault f => exact .inl ⟨_, hp, .fault f⟩
  · exact .inr hdone

/-- A run that returns, found by playing. -/
theorem play_returns {W : World S σ} {pl : Player W} {p : Program S F α} {s : σ} {a : α}
    (h : (p.play pl s).1.result? = some a) : Runs W p s (.done a) (p.play pl s).2 :=
  eq_done h ▸ play_runs pl p s

/-- A run that faults, found by playing. -/
theorem play_faults {W : World S σ} {pl : Player W} {p : Program S F α} {s : σ} {f : F}
    (h : (p.play pl s).1.fault? = some f) : Runs W p s (.fault f) (p.play pl s).2 :=
  eq_fault h ▸ play_runs pl p s

end Program

end FilemanagerHttpd.Library
