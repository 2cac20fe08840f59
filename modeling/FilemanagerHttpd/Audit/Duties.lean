import FilemanagerHttpd.Library.Ownership
import FilemanagerHttpd.Audit.Pages

/-!
# What a handler owes its connection

While it works for a connection, a handler uses and closes only the descriptors that it owns,
makes no call that the login state forbids, and fails in its own ways only. The login state
changes between the calls of the handler and not during them.
-/

namespace FilemanagerHttpd.Audit

open Library Server

/-- What the notes of a connection have told: the login state of its request, and whether a
response has ended before its request was read. -/
structure Told where
  login : LoginState
  early : Bool
  deriving DecidableEq, Repr

def tell (e : Event) (g : Told) : Told :=
  match e.call with
  | .note (.login s) => { g with login := s }
  | .note (.finished true) => { g with early := true }
  | _ => g

/-- What has been told from a moment on. -/
def toldSince (g : Told) (h₀ h : History) : Told := (h.take (h.length - h₀.length)).foldr tell g

section Permissions

variable (cfg : Config) (st : LoginState)

def MayModify : Prop := configIsActionAllowed cfg .modify (st == .loggedIn) = true

def MayList : Prop := configIsActionAllowed cfg .listFolder (st == .loggedIn) = true

/-- Files are served, unless the login has failed. -/
def MayServe : Prop :=
  configIsActionAllowed cfg .servePage (st == .loggedIn) = true ∧ st ≠ .loginFail

/-- The path is that of a temporary file for the body of a CGI request. -/
def Spooled (h : History) (path : Path) : Prop :=
  ∃ fd, (⟨.mkstemp spoolTemplate, .ok (path, fd)⟩ : Event) ∈ h

/-- The calls that the login state permits. -/
def Permitted (h : History) : Sys → Prop
  | .openRead _ | .fork | .execve .. => MayServe cfg st
  | .mkstemp template => MayModify cfg st ∨ template = spoolTemplate ∧ MayServe cfg st
  | .unlink path => MayModify cfg st ∨ Spooled h path ∧ MayServe cfg st
  | .openExcl _ | .mkdir _ | .rename .. | .link .. | .rmdir _ | .chmod .. => MayModify cfg st
  | .note .listing => MayList cfg st
  | _ => True

/-- The notes of the connection itself. -/
def connNote : Sys → Bool
  | .note .listing => false
  | .note _ => true
  | _ => false

/-- The calls of a handler that works for a connection. -/
structure WorkCall (h : History) (c : Sys) : Prop where
  no_note : connNote c = false
  permitted : Permitted cfg st h c

def workDuty : Duty sys Fault History := ⟨fun c h => WorkCall cfg st h c, fun f _ => Ordinary f⟩

end Permissions

section Histories

theorem mem_openFds_cons {fd : Fd} {e : Event} {h : History} (hm : fd ∈ openFds h)
    (hc : fd ∉ e.closes) : fd ∈ openFds (e :: h) := by
  refine List.mem_append_right _ (List.mem_filter.mpr ⟨hm, ?_⟩)
  simpa using hc

theorem not_mem_closes {fd : Fd} {c : Sys} (r : c.Answer) (h₁ : c ≠ .close fd)
    (h₂ : c ≠ .closedir fd) : fd ∉ (⟨c, r⟩ : Event).closes := by
  intro hm
  cases c with
  | close fd' => exact h₁ (by rw [List.mem_singleton.mp hm])
  | closedir fd' => exact h₂ (by rw [List.mem_singleton.mp hm])
  | _ => cases hm

theorem tell_work {c : Sys} (hc : connNote c = false) (r : c.Answer) (g : Told) :
    tell ⟨c, r⟩ g = g := by
  cases c with
  | note n =>
    cases n with
    | listing => rfl
    | _ => cases hc
  | _ => rfl

theorem toldSince_self (g : Told) (h : History) : toldSince g h h = g := by
  rw [toldSince, Nat.sub_self]
  rfl

theorem toldSince_cons (g : Told) {h₀ h : History} (hs : h₀ <:+ h) (e : Event) :
    toldSince g h₀ (e :: h) = tell e (toldSince g h₀ h) := by
  have hlen := hs.length_le
  have hsucc : (e :: h).length - h₀.length = (h.length - h₀.length) + 1 := by
    rw [List.length_cons]
    omega
  rw [toldSince, hsucc]
  rfl

end Histories

section Descriptors

/-- The descriptor that a call reads, writes or looks through. The standard input and output,
which a CGI program gets, have been open before the history began. -/
def descriptorsUsed : Sys → Multiset Fd
  | .read fd _ => if fd = 0 then 0 else {fd}
  | .write fd _ => if fd = 1 then 0 else {fd}
  | .fstat fd | .readdir fd | .dup2 fd _ => {fd}
  | _ => 0

/-- The descriptor that a call closes. -/
def descriptorsClosed : Sys → Multiset Fd
  | .close fd | .closedir fd => {fd}
  | _ => 0

theorem openFds_closing {c : Sys} (r : c.Answer) {h : History} {rest : Multiset Fd}
    (hnodup : (openFds h : Multiset Fd).Nodup)
    (hheld : (openFds h : Multiset Fd) = descriptorsClosed c + rest) :
    (openFds (⟨c, r⟩ :: h) : Multiset Fd) = rest + ((⟨c, r⟩ : Event).opens : Multiset Fd) := by
  have hkept : ((openFds h).filter (· ∉ (⟨c, r⟩ : Event).closes) : Multiset Fd) = rest := by
    have hall : descriptorsClosed c = 0 → (⟨c, r⟩ : Event).closes = [] →
        ((openFds h).filter (· ∉ (⟨c, r⟩ : Event).closes) : Multiset Fd) = rest := by
      intro hnone hcloses
      rw [hnone, zero_add] at hheld
      simp [hcloses, hheld]
    have hone : ∀ fd, descriptorsClosed c = {fd} → (⟨c, r⟩ : Event).closes = [fd] →
        ((openFds h).filter (· ∉ (⟨c, r⟩ : Event).closes) : Multiset Fd) = rest := by
      intro fd hfd hcloses
      rw [hfd] at hheld
      rw [hcloses, ← Multiset.filter_coe, hheld, Multiset.filter_add]
      have hnot : fd ∉ rest := by
        rw [hheld] at hnodup
        exact (Multiset.nodup_cons.mp hnodup).1
      have hrest : rest.filter (· ∉ [fd]) = rest := by
        refine Multiset.filter_eq_self.mpr fun x hx hmem => ?_
        rw [List.mem_singleton.mp hmem] at hx
        exact hnot hx
      rw [hrest, Multiset.filter_singleton, if_neg (not_not.mpr List.mem_cons_self)]
      exact zero_add rest
    cases c with
    | close fd => exact hone fd rfl rfl
    | closedir fd => exact hone fd rfl rfl
    | _ => exact hall rfl rfl
  show ((_ ++ _ : List Fd) : Multiset Fd) = _
  rw [← Multiset.coe_add, hkept, add_comm]

/-- What a call opens is new. -/
theorem opens_new {c : Sys} {r : c.Answer} {h : History} (hr : Lawful h c r) :
    ((⟨c, r⟩ : Event).opens : Multiset Fd).Nodup ∧
      ∀ fd ∈ (⟨c, r⟩ : Event).opens, fd ∉ openFds h := by
  have hnone : (⟨c, r⟩ : Event).opens = [] →
      ((⟨c, r⟩ : Event).opens : Multiset Fd).Nodup ∧
        ∀ fd ∈ (⟨c, r⟩ : Event).opens, fd ∉ openFds h := by
    intro he
    rw [he]
    exact ⟨Multiset.nodup_zero, fun fd hm => by cases hm⟩
  have hone : ∀ fd, (⟨c, r⟩ : Event).opens = [fd] → fd ∉ openFds h →
      ((⟨c, r⟩ : Event).opens : Multiset Fd).Nodup ∧
        ∀ fd ∈ (⟨c, r⟩ : Event).opens, fd ∉ openFds h := by
    intro fd he hnew
    rw [he]
    exact ⟨Multiset.nodup_singleton fd, fun x hm => List.mem_singleton.mp hm ▸ hnew⟩
  cases c with
  | accept | openRead _ | openExcl _ | opendir _ =>
    cases r with
    | ok fd => exact hone fd rfl hr
    | error e => exact hnone rfl
  | mkstemp template =>
    cases r with
    | ok x => exact hone x.2 rfl hr.1
    | error e => exact hnone rfl
  | pipe =>
    cases r with
    | none => exact hnone rfl
    | some x =>
      obtain ⟨hread, hwrite, hne⟩ := hr
      have he : (⟨.pipe, some x⟩ : Event).opens = [x.1, x.2] := rfl
      rw [he]
      refine ⟨Multiset.coe_nodup.mpr (by simpa using hne), fun fd hm => ?_⟩
      rcases List.mem_cons.mp hm with rfl | hm
      · exact hread
      · exact List.mem_singleton.mp hm ▸ hwrite
  | _ => exact hnone rfl

/-- The descriptors that are open. -/
def descriptors : Ledger posix Fd where
  held h := openFds h
  uses := descriptorsUsed
  gives := descriptorsClosed
  takes c r := ((⟨c, r⟩ : Event).opens : Multiset Fd)
  held_step := by
    rintro h c r _ rest ⟨hr, rfl⟩ hnodup hheld
    have hopen := openFds_closing r hnodup hheld
    obtain ⟨hnodups, hnew⟩ := opens_new hr
    rw [hheld, Multiset.nodup_add] at hnodup
    refine ⟨hopen, Multiset.nodup_add.mpr ⟨hnodup.2.1, hnodups, ?_⟩⟩
    rw [Multiset.disjoint_right]
    intro fd hm hmem
    refine hnew fd hm (Multiset.mem_coe.mp ?_)
    rw [hheld]
    exact Multiset.mem_add.mpr (.inr hmem)

/-- The descriptors of an object that may be missing. -/
def fdsIf {α : Type} (fds : α → Multiset Fd) : Option α → Multiset Fd
  | none => 0
  | some a => fds a

/-- The descriptor, unless it is -1. -/
def fdOf (fd : Option Fd) : Multiset Fd := fdsIf (fun fd => {fd}) fd

@[simp] theorem fdsIf_none {α : Type} (fds : α → Multiset Fd) : fdsIf fds none = 0 := rfl

@[simp] theorem fdsIf_some {α : Type} (fds : α → Multiset Fd) (a : α) :
    fdsIf fds (some a) = fds a := rfl

@[simp] theorem fdOf_none : fdOf none = 0 := rfl

@[simp] theorem fdOf_some (fd : Fd) : fdOf (some fd) = {fd} := rfl

end Descriptors

variable {cfg : Config} {st : LoginState} {own o : Multiset Fd} {α β υ : Type} {h : History}

/-- With the descriptors `own`, `p` does its duty from `h` on and ends in `Q`. -/
abbrev Works (cfg : Config) (st : LoginState) (own : Multiset Fd) (p : Prog α)
    (Q : α → Multiset Fd → History → Prop) (h : History) : Prop :=
  descriptors.Owns (workDuty cfg st) own p Q h

/-- The result is in `X`, and its descriptors are all that is owned. -/
abbrev Has (fds : α → Multiset Fd) (X : α → Prop) (a : α) (own : Multiset Fd) (_ : History) :
    Prop := own = fds a ∧ X a

section Rules

variable {Q : α → Multiset Fd → History → Prop} {T : β → Multiset Fd → History → Prop}

theorem works_fault {f : Fault} (hf : Ordinary f) : Works cfg st own (.fault f) Q h := .fault hf

/-- A call that closes nothing. -/
theorem owns_open {D : Duty sys Fault History} {c : Sys} {k : c.Answer → Prog β}
    (hc : D.guard c h) (huses : ∀ fd ∈ descriptorsUsed c, fd ∈ own) (hcloses : descriptorsClosed c = 0)
    (hk : ∀ r, Lawful h c r → descriptors.Owns D
      (own + ((⟨c, r⟩ : Event).opens : Multiset Fd)) (k r) T (⟨c, r⟩ :: h)) :
    descriptors.Owns D own (perform c >>= k) T h := by
  refine Ledger.Owns.perform (o := own) hc huses ?_ ?_
  · show own = descriptorsClosed c + own
    rw [hcloses, zero_add]
  · rintro r _ ⟨hr, rfl⟩
    exact hk r hr

/-- A call that opens nothing either. -/
theorem owns_call {D : Duty sys Fault History} {c : Sys} {k : c.Answer → Prog β}
    (hc : D.guard c h) (huses : ∀ fd ∈ descriptorsUsed c, fd ∈ own)
    (hcloses : descriptorsClosed c = 0) (hopens : ∀ r, (⟨c, r⟩ : Event).opens = [])
    (hk : ∀ r, Lawful h c r → descriptors.Owns D own (k r) T (⟨c, r⟩ :: h)) :
    descriptors.Owns D own (perform c >>= k) T h := by
  refine owns_open hc huses hcloses fun r hr => ?_
  rw [hopens r]
  exact (add_zero own).symm ▸ hk r hr

theorem works_open {c : Sys} {k : c.Answer → Prog β} (hc : WorkCall cfg st h c)
    (huses : ∀ fd ∈ descriptorsUsed c, fd ∈ own) (hcloses : descriptorsClosed c = 0)
    (hk : ∀ r, Lawful h c r →
      Works cfg st (own + ((⟨c, r⟩ : Event).opens : Multiset Fd)) (k r) T (⟨c, r⟩ :: h)) :
    Works cfg st own (perform c >>= k) T h := owns_open hc huses hcloses hk

theorem works_call {c : Sys} {k : c.Answer → Prog β} (hc : WorkCall cfg st h c)
    (huses : ∀ fd ∈ descriptorsUsed c, fd ∈ own) (hcloses : descriptorsClosed c = 0)
    (hopens : ∀ r, (⟨c, r⟩ : Event).opens = [])
    (hk : ∀ r, Lawful h c r → Works cfg st own (k r) T (⟨c, r⟩ :: h)) :
    Works cfg st own (perform c >>= k) T h := owns_call hc huses hcloses hopens hk

/-- A call that only closes. -/
theorem works_closing {c : Sys} {k : c.Answer → Prog β} (hc : WorkCall cfg st h c)
    (huses : descriptorsUsed c = 0) (hown : own = descriptorsClosed c + o)
    (hopens : ∀ r, (⟨c, r⟩ : Event).opens = []) (hk : ∀ r t, Works cfg st o (k r) T t) :
    Works cfg st own (perform c >>= k) T h := by
  refine Ledger.Owns.perform (o := o) hc ?_ hown ?_
  · show ∀ fd ∈ descriptorsUsed c, fd ∈ own
    rw [huses]
    exact fun fd hm => absurd hm (Multiset.notMem_zero fd)
  · rintro r _ ⟨-, rfl⟩
    show Works cfg st (o + ((⟨c, r⟩ : Event).opens : Multiset Fd)) (k r) T _
    rw [hopens r]
    exact (add_zero o).symm ▸ hk r _

theorem works_close {fd : Fd} {k : Unit → Prog β} (hown : own = {fd} + o)
    (hk : ∀ t, Works cfg st o (k ()) T t) : Works cfg st own (perform (.close fd) >>= k) T h :=
  works_closing (c := .close fd) ⟨rfl, trivial⟩ rfl hown (fun _ => rfl) fun _ t => hk t

theorem works_closedir {fd : Fd} {k : Unit → Prog β} (hown : own = {fd} + o)
    (hk : ∀ t, Works cfg st o (k ()) T t) :
    Works cfg st own (perform (.closedir fd) >>= k) T h :=
  works_closing (c := .closedir fd) ⟨rfl, trivial⟩ rfl hown (fun _ => rfl) fun _ t => hk t

theorem works_closeFd {fd : Option Fd} {k : Unit → Prog β} (hown : own = fdOf fd + o)
    (hk : ∀ t, Works cfg st o (k ()) T t) : Works cfg st own (closeFd fd >>= k) T h := by
  cases fd with
  | none =>
    rw [hown, fdOf_none, zero_add]
    exact hk h
  | some fd => exact works_close (k := fun x => k x) hown hk

theorem ordinary_wraps {Q : α → Prop} {e : Except Fault α} (he : Sound Wraps Q e) :
    Sound Ordinary Q e :=
  he.mono (fun f hf => by rw [show f = .heapOverflow from hf]; decide) fun _ hQ => hQ

theorem works_lift {X : α → Prop} {e : Except Fault α} (he : Sound Ordinary X e) :
    Works cfg st own (liftM e) (fun a o _ => o = own ∧ X a) h := by
  cases e with
  | ok a => exact .pure ⟨rfl, he⟩
  | error f => exact .fault he

/-- Programs that put a page together. -/
theorem works_plain {X : α → Prop} {p : Prog α} (hp : Plain X p) :
    Works cfg st own p (fun a o _ => o = own ∧ X a) h := by
  refine Ledger.Owns.within hp ?_ (fun f _ hf => ordinary_of_pageFault hf) ?_
  · intro c t hc
    cases c with
    | gethostname | getpeername | nextNonce | sleep | uninit => exact ⟨rfl, trivial⟩
    | _ => cases hc
  · intro c hc
    cases c with
    | gethostname | getpeername | nextNonce | sleep | uninit => exact ⟨rfl, rfl, fun _ => rfl⟩
    | _ => cases hc

theorem works_iterate {body : υ → Prog (υ ⊕ β)} {I : υ → Multiset Fd → History → Prop}
    (hbody : ∀ x o t, I x o t → Works cfg st o (body x)
      (fun r o' t' => AfterRound (fun y u => I y o' u) (fun b u => T b o' u) r t') t)
    (n : Nat) {x : υ} (hI : I x own h) :
    Works cfg st own (Program.iterate .outOfFuel body n x) T h :=
  Ledger.Owns.iterate (fun _ => ordinary_outOfFuel) hbody n hI

/-- A call that names no descriptor. -/
theorem works_path {c : Sys} {k : c.Answer → Prog β} (hc : WorkCall cfg st h c)
    (huses : descriptorsUsed c = 0) (hcloses : descriptorsClosed c = 0)
    (hopens : ∀ r, (⟨c, r⟩ : Event).opens = [])
    (hk : ∀ r t, Works cfg st own (k r) T t) : Works cfg st own (perform c >>= k) T h := by
  refine works_call hc ?_ hcloses hopens fun r _ => hk r _
  rw [huses]
  exact fun fd hm => absurd hm (Multiset.notMem_zero fd)

/-- An operation that leaves what is owned as it is. -/
abbrev Operates (cfg : Config) (st : LoginState) (p : Prog α) : Prop :=
  ∀ own h, Works cfg st own p (fun _ o _ => o = own) h

theorem operates_lift {e : Except Fault α} (he : Sound Ordinary Any e) :
    Operates cfg st (liftM e : Prog α) :=
  fun _ _ => (works_lift he).mono fun _ _ _ hQ => hQ.1

theorem Operates.seq {p : Prog α} {k : α → Prog β} (hp : Operates cfg st p)
    (hk : ∀ a, Operates cfg st (k a)) : Operates cfg st (p >>= k) := by
  intro own h
  refine (hp own h).seq ?_
  rintro a _ t rfl
  exact hk a _ t

theorem operates_pure (a : α) : Operates cfg st (pure a : Prog α) := fun _ _ => .pure rfl

end Rules

end FilemanagerHttpd.Audit
