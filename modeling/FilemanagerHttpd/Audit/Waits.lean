import FilemanagerHttpd.Audit.HandlerWork
import FilemanagerHttpd.Audit.HeadAnswers
import FilemanagerHttpd.Server.ServerConnection

/-!
# What a handler waits for

A handler stops where a descriptor of its own, or the socket, has answered that it would block,
and asks for this descriptor. Its response is finished, or it waits.
-/

namespace FilemanagerHttpd.Audit

open Library Server

/-- The call has answered that it would block: a read for one that waits to read, a write for one
that waits to write. -/
def blocks (state : DataProcessingResultState) (fd : Fd) (e : Event) : Bool :=
  match e with
  | ⟨.read fd' _, .fail .wouldBlock⟩ => state == .awaitRead && fd' == fd
  | ⟨.write fd' _, .fail .wouldBlock⟩ => state == .awaitWrite && fd' == fd
  | _ => false

/-- It has done so since `h₀`. -/
def Blocked (h₀ : History) (state : DataProcessingResultState) (fd : Fd) (h : History) : Prop :=
  ∃ new, h = new ++ h₀ ∧ ∃ e ∈ new, blocks state fd e = true

variable {α β υ : Type} {h₀ h h' : History} {state : DataProcessingResultState} {fd : Fd}

theorem Blocked.now (hs : h₀ <:+ h) {e : Event} (he : blocks state fd e = true) :
    Blocked h₀ state fd (e :: h) := by
  obtain ⟨new, rfl⟩ := hs
  exact ⟨e :: new, rfl, e, List.mem_cons_self, he⟩

theorem Blocked.later (hb : Blocked h₀ state fd h) (hs : h <:+ h') : Blocked h₀ state fd h' := by
  obtain ⟨new, rfl, e, hm, he⟩ := hb
  obtain ⟨newer, rfl⟩ := hs
  exact ⟨newer ++ new, (List.append_assoc _ _ _).symm, e, List.mem_append_right _ hm, he⟩

/-- What a program leaves in a turn that began in `h₀`. -/
abbrev Leaves (h₀ : History) (p : Prog α) (Q : α → History → Prop) (h : History) : Prop :=
  wp posix .none p (fun a t => h₀ <:+ t ∧ Q a t) h

namespace Leaves

variable {Q R : α → History → Prop} {T : β → History → Prop}

theorem pure {a : α} (hs : h₀ <:+ h) (hQ : Q a h) : Leaves h₀ (Pure.pure a) Q h := ⟨hs, hQ⟩

theorem fault {f : Fault} : Leaves h₀ (.fault f) Q h := trivial

theorem mono {p : Prog α} (hp : Leaves h₀ p R h) (hR : ∀ a t, R a t → Q a t) :
    Leaves h₀ p Q h := wp_mono hp fun a t ht => ⟨ht.1, hR a t ht.2⟩

/-- What every longer history keeps. -/
theorem stays {p : Prog α} {I : History → Prop} (hp : Leaves h₀ p Q h)
    (hI : ∀ t, h <:+ t → I t) : Leaves h₀ p (fun a t => Q a t ∧ I t) h := by
  have hboth := wp_and hp (wp_of_yields (Yields.any p) h)
  refine wp_weaken hboth (fun _ _ _ => trivial) (fun _ _ _ => trivial) ?_
  rintro a t ⟨⟨ht, hQ⟩, -, new, rfl⟩
  exact ⟨ht, hQ, hI _ (List.suffix_append new h)⟩

theorem seq {p : Prog α} {k : α → Prog β} (hp : Leaves h₀ p Q h)
    (hk : ∀ a t, h₀ <:+ t → Q a t → Leaves h₀ (k a) T t) : Leaves h₀ (p >>= k) T h :=
  wp_seq hp fun a t ht => hk a t ht.1 ht.2

theorem call {c : Sys} {k : c.Answer → Prog β} (hs : h₀ <:+ h)
    (hk : ∀ r, h₀ <:+ (⟨c, r⟩ :: h : History) → Leaves h₀ (k r) T (⟨c, r⟩ :: h)) :
    Leaves h₀ (perform c >>= k) T h :=
  (wp_perform _ _ _ _).mpr ⟨trivial, fun r _ => hk r (hs.trans (List.suffix_cons _ _))⟩

theorem ite {c : Prop} [Decidable c] {p q : Prog α} (hp : c → Leaves h₀ p Q h)
    (hq : ¬ c → Leaves h₀ q Q h) : Leaves h₀ (if c then p else q) Q h := by
  by_cases hc : c
  · rw [if_pos hc]
    exact hp hc
  · rw [if_neg hc]
    exact hq hc

theorem iterate {body : υ → Prog (υ ⊕ β)} {I : υ → History → Prop}
    (hbody : ∀ x t, h₀ <:+ t → I x t → Leaves h₀ (body x) (AfterRound I T) t) (n : Nat) {x : υ}
    (hs : h₀ <:+ h) (hI : I x h) : Leaves h₀ (Program.iterate .outOfFuel body n x) T h := by
  refine wp_iterate (I := fun y t => h₀ <:+ t ∧ I y t) (fun _ => trivial) ?_ n ⟨hs, hI⟩
  rintro y t ⟨ht, hy⟩
  refine wp_mono (hbody y t ht hy) ?_
  rintro (z | b) u hu
  · exact hu
  · exact hu

/-- What a program returns however it is answered. -/
theorem of_yields {X : α → Prop} {p : Prog α} (hp : Yields X p) (hs : h₀ <:+ h) :
    Leaves h₀ p (fun a _ => X a) h := by
  refine wp_mono (wp_of_yields hp h) ?_
  rintro a t ⟨ha, new, rfl⟩
  exact ⟨hs.trans (List.suffix_append new h), ha⟩

theorem any (p : Prog α) (hs : h₀ <:+ h) : Leaves h₀ p (fun _ _ => True) h :=
  of_yields (Yields.any p) hs

theorem also {X : α → Prop} {p : Prog α} (hp : Leaves h₀ p Q h) (hX : Yields X p) :
    Leaves h₀ p (fun a t => Q a t ∧ X a) h := by
  refine wp_weaken (wp_and hp (wp_of_yields hX h)) (fun _ _ _ => trivial) (fun _ _ _ => trivial) ?_
  rintro a t ⟨⟨ht, hQ⟩, hx, -⟩
  exact ⟨ht, hQ, hx⟩

end Leaves

section Sender

variable {sock : Fd}

theorem writeLoop_leaves (fuel : Nat) (data : Bytes) (offset : Nat) (hs : h₀ <:+ h) :
    Leaves h₀ (writeLoop fuel fd data offset)
      (fun r t => r.2 = some .wouldBlock → Blocked h₀ .awaitWrite fd t) h := by
  refine Leaves.iterate (I := fun _ _ => True) ?_ fuel hs trivial
  rintro off t ht -
  refine .ite (fun _ => .call ht fun r hr => ?_) fun _ => .pure ht fun he => by cases he
  cases r with
  | wrote wr => exact .pure hr trivial
  | fail e =>
    refine .pure hr fun he => .now ht ?_
    cases he
    simp [blocks]

/-- How the loop that fills the buffer has ended. -/
structure FillEnds (h₀ : History) (fd : Option Fd) (toFill : Nat) (r : MemBuf × Nat × FillStop)
    (h : History) : Prop where
  full : r.2.2 = .full → toFill ≤ r.2.1
  blocked : r.2.2 = .failed .wouldBlock → ∃ fd', fd = some fd' ∧ Blocked h₀ .awaitRead fd' h

theorem FillEnds.later {fd : Option Fd} {toFill : Nat} {r : MemBuf × Nat × FillStop}
    (hr : FillEnds h₀ fd toFill r h) (t : History) (hs : h <:+ t) : FillEnds h₀ fd toFill r t := by
  refine ⟨hr.full, fun he => ?_⟩
  obtain ⟨fd', hfd, hb⟩ := hr.blocked he
  exact ⟨fd', hfd, hb.later hs⟩

theorem fillLoop_leaves (body : MemBuf) (fd : Option Fd) (filledCount toFill : Nat)
    (hs : h₀ <:+ h) :
    Leaves h₀ (fillLoop body fd filledCount toFill) (FillEnds h₀ fd toFill) h := by
  refine Leaves.iterate (I := fun _ _ => True) ?_ _ hs trivial
  rintro ⟨mb, filled⟩ t ht -
  refine .ite (fun hlt => ?_) fun hge => .pure ht ⟨fun _ => not_lt.mp hge, fun he => by cases he⟩
  refine Leaves.seq (Q := fun r u => r.2 = .fail .wouldBlock →
    ∃ fd', fd = some fd' ∧ Blocked h₀ .awaitRead fd' u) ?_ ?_
  · refine .ite (fun _ => .fault) fun _ => ?_
    cases fd with
    | none => exact .pure ht fun he => by cases he
    | some fd =>
      refine .call ht fun r hr => ?_
      cases r with
      | got data => exact .pure hr fun he => by cases he
      | fail e =>
        refine .pure hr fun he => ⟨fd, rfl, .now ht ?_⟩
        cases he
        simp [blocks]
  · rintro ⟨mb', r⟩ u hu hr
    split
    · exact .pure hu ⟨fun he => (by cases he), fun he => by cases he⟩
    · exact .pure hu trivial
    · rename_i e heq
      refine .pure hu ⟨fun he => (by cases he), fun he => hr ?_⟩
      injection he with he
      rw [heq, he]

/-- A sender that has filled its buffer with nothing waits for its file. -/
structure FileWaits (h₀ : History) (dpr : DataProcessingResult)
    (r : ResponseSender × DataProcessingResult) (h : History) : Prop where
  empty : r.1.dataSize = 0 → ∃ fd, r.1.fileDesc = some fd ∧
    r.2 = dprSetRespState dpr .awaitRead fd ∧ Blocked h₀ .awaitRead fd h
  filled : r.1.dataSize ≠ 0 → r.2 = dpr

/-- A loop that has neither filled the buffer nor come to the end has been blocked. -/
theorem FillStop.blocked {stop : FillStop} (hgo : ¬ stop.exhausted = true) (hfull : stop ≠ .full) :
    stop = .failed .wouldBlock := by
  cases stop with
  | full => exact absurd rfl hfull
  | eof => exact absurd rfl hgo
  | failed e =>
    have he : e = .wouldBlock := by simpa [FillStop.exhausted] using hgo
    rw [he]

theorem fillFixed_leaves {rsndr : ResponseSender} (hbytes : 0 < rsndr.nbytes) (body : MemBuf)
    (dpr : DataProcessingResult) (hs : h₀ <:+ h) :
    Leaves h₀ (fillFixed rsndr body dpr) (FileWaits h₀ dpr) h := by
  have hpos : ∀ n : Nat, n = (if rsndr.nbytes < 65536 then rsndr.nbytes.toNat else 65536) →
      n ≠ 0 := by
    rintro n rfl
    split <;> omega
  unfold fillFixed
  generalize hfill : (if rsndr.nbytes < 65536 then rsndr.nbytes.toNat else 65536) = toFill
  have htoFill := hpos toFill hfill.symm
  refine (Leaves.any (ensureSize body toFill) hs).seq fun body' t ht _ => ?_
  cases hfd : rsndr.fileDesc with
  | none =>
    refine (Leaves.any _ ht).seq fun body'' u hu _ => .pure hu ⟨fun he => ?_, fun _ => rfl⟩
    exact absurd he htoFill
  | some fd =>
    refine (fillLoop_leaves body' (some fd) 0 toFill ht).seq ?_
    rintro ⟨body'', filledCount, stop⟩ u hu hfilled
    refine .ite (fun _ => ?_) fun hgo => .pure hu ?_
    · refine .call hu fun _ hv => (Leaves.any _ hv).seq fun body''' w hw _ => ?_
      exact .pure hw ⟨fun he => absurd he htoFill, fun _ => rfl⟩
    · refine ⟨fun hzero => ?_, fun hne => if_neg fun hc => hne hc.2⟩
      dsimp only at hzero
      have hfull : stop ≠ .full := by
        intro he
        have hle := hfilled.full he
        dsimp only at hle
        omega
      obtain ⟨fd', he, hb⟩ := hfilled.blocked (FillStop.blocked hgo hfull)
      cases he
      exact ⟨fd, rfl, if_pos ⟨hfull, hzero⟩, hb⟩

theorem wrapChunk_size (body : MemBuf) (filledCount : Nat) :
    Sound (fun _ => True) (fun r => r.2.2 = 0 → filledCount ≤ chunkGap)
      (wrapChunk body filledCount) := by
  unfold wrapChunk
  split
  · exact (Sound.always _).bind fun _ _ => (Sound.always _).bind fun _ _ he => by cases he
  · rename_i hle
    exact fun _ => not_lt.mp hle

theorem fillChunked_leaves (rsndr : ResponseSender) (body : MemBuf) (dpr : DataProcessingResult)
    (hs : h₀ <:+ h) : Leaves h₀ (fillChunked rsndr body dpr) (FileWaits h₀ dpr) h := by
  refine (Leaves.any _ hs).seq fun body' t ht _ => ?_
  refine (fillLoop_leaves body' rsndr.fileDesc chunkGap chunkedFill ht).seq ?_
  rintro ⟨body'', filledCount, stop⟩ u hu hfilled
  have hclose : Yields (fun r => r ≠ none → ¬ stop.exhausted = true ∧ r = rsndr.fileDesc)
      (closeIf stop.exhausted rsndr.fileDesc) :=
    .ite (fun _ => .seq fun _ => .pure fun hne => absurd rfl hne) fun hgo => .pure fun _ => ⟨hgo, rfl⟩
  refine ((Leaves.of_yields hclose hu).stays hfilled.later).seq ?_
  rintro fd v hv ⟨hkept, hfilled⟩
  have hwrap := Leaves.of_yields (Within.lift (wrapChunk_size body'' filledCount)) hv
  refine (hwrap.stays hfilled.later).seq ?_
  rintro ⟨chunk, dataOffset, dataSize⟩ w hw ⟨hsize, hfilled⟩
  cases fd with
  | none =>
    refine (Leaves.any _ hw).seq fun last x hx _ => .pure hx ⟨fun he => ?_, fun _ => rfl⟩
    exact absurd he (by show dataSize + 5 ≠ 0; omega)
  | some fd =>
    obtain ⟨hgo, hfd⟩ := hkept (Option.some_ne_none fd)
    refine .pure hw ⟨fun hzero => ?_, fun hne => if_neg hne⟩
    have hfull : stop ≠ .full := by
      intro he
      have hle := hfilled.full he
      have hempty := hsize hzero
      dsimp only at hle hempty
      rw [chunkedFill] at hle
      rw [chunkGap] at hempty
      omega
    obtain ⟨fd', he, hb⟩ := hfilled.blocked (FillStop.blocked hgo hfull)
    rw [← hfd] at he
    cases he
    exact ⟨fd, hfd.symm, if_pos hzero, hb⟩

theorem fillBuffer_leaves {rsndr : ResponseSender} (hbytes : rsndr.nbytes ≠ 0) (body : MemBuf)
    (dpr : DataProcessingResult) (hs : h₀ <:+ h) :
    Leaves h₀ (fillBuffer rsndr body dpr) (FileWaits h₀ dpr) h := by
  refine .ite (fun hknown => ?_) fun _ => fillChunked_leaves rsndr body dpr hs
  exact fillFixed_leaves (lt_of_le_of_ne hknown hbytes.symm) body dpr hs

/-- The answer is under way, and waits for a descriptor in `fds`. -/
def AnswerWaits (h₀ : History) (fds : Multiset Fd) (dpr dpr' : DataProcessingResult)
    (h : History) : Prop :=
  ∃ state, ∃ fd ∈ fds, state ≠ .ready ∧ dpr' = dprSetRespState dpr state fd ∧
    Blocked h₀ state fd h

/-- The sender has finished, or waits for the socket or its file. -/
def SendEnds (h₀ : History) (sock : Fd) (dpr : DataProcessingResult)
    (r : ResponseSender × DataProcessingResult × Bool) (h : History) : Prop :=
  (r.2.2 = true ∧ (r.2.1 = dpr ∨ r.2.1 = dprSetCloseConn dpr)) ∨
    (r.2.2 = false ∧ AnswerWaits h₀ (rsndrFds r.1 + {sock}) dpr r.2.1 h)

theorem mem_fdOf {o : Option Fd} (ho : o = some fd) : fd ∈ fdOf o := by
  rw [ho]
  exact Multiset.mem_singleton_self fd

/-- A failed write ends the response, or waits for the socket. -/
theorem writeFailed_ends {e : Errno} (hb : some e = some Errno.wouldBlock →
    Blocked h₀ .awaitWrite sock h) (rsndr : ResponseSender) (dpr : DataProcessingResult) :
    SendEnds h₀ sock dpr (rsndr, writeFailed e sock dpr) h := by
  unfold writeFailed
  split
  · rename_i he
    refine .inr ⟨rfl, .awaitWrite, sock, ?_, (fun hc => by cases hc), rfl, hb (congrArg some he)⟩
    exact Multiset.mem_add.mpr (.inr (Multiset.mem_singleton_self sock))
  · exact .inl ⟨rfl, .inr rfl⟩

theorem sendBody_leaves (fuel : Nat) (rsndr : ResponseSender) (dpr : DataProcessingResult)
    (hs : h₀ <:+ h) : Leaves h₀ (sendBody fuel sock rsndr dpr) (SendEnds h₀ sock dpr) h := by
  refine Leaves.iterate (I := fun x _ => x.2 = dpr) ?_ fuel hs rfl
  rintro ⟨r, _⟩ t ht rfl
  unfold sendBodyRound
  dsimp only
  split
  · exact .pure ht (.inl ⟨rfl, .inl rfl⟩)
  rename_i body _
  refine (writeLoop_leaves fuel _ _ ht).seq ?_
  rintro ⟨off, e⟩ u hu hblocked
  cases e with
  | some e => exact .pure hu (writeFailed_ends hblocked _ _)
  | none =>
    refine .ite (fun _ => .pure hu (.inl ⟨rfl, .inl rfl⟩)) fun hbytes => ?_
    refine (fillBuffer_leaves hbytes body _ hu).seq ?_
    rintro ⟨r', d⟩ v hv hwaits
    refine .ite (fun hzero => ?_) fun hne => .pure hv (hwaits.filled hne)
    obtain ⟨fd, hfd, hd, hb⟩ := hwaits.empty hzero
    refine .pure hv (.inr ⟨rfl, .awaitRead, fd, ?_, (fun hc => by cases hc), hd, hb⟩)
    exact Multiset.mem_add.mpr (.inl (mem_fdOf hfd))

theorem rsndrSend_leaves (fuel : Nat) (rsndr : ResponseSender) (dpr : DataProcessingResult)
    (hs : h₀ <:+ h) : Leaves h₀ (rsndrSend fuel rsndr sock dpr) (SendEnds h₀ sock dpr) h := by
  unfold rsndrSend
  split
  · exact sendBody_leaves fuel rsndr dpr hs
  · refine (writeLoop_leaves fuel _ _ hs).seq ?_
    rintro ⟨off, e⟩ u hu hblocked
    cases e with
    | some e => exact .pure hu (writeFailed_ends hblocked _ _)
    | none => exact sendBody_leaves fuel _ dpr hu

end Sender

section Cgi

/-- The input of a CGI program. -/
def cgiInput (cgiexe : CgiExecutor) : Multiset Fd := fdOf cgiexe.inFd

/-- The body bytes are taken, or the input of the handler has blocked before the last one. -/
def InputWaits (h₀ : History) (inputs : Multiset Fd) (data : Bytes)
    (dpr dpr' : DataProcessingResult) (taken : Nat) (h : History) : Prop :=
  dpr' = dpr ∨ ∃ fd ∈ inputs, dpr' = dprSetReqState dpr .awaitWrite fd ∧
    Blocked h₀ .awaitWrite fd h ∧ taken < data.length

theorem cgiexeProcessData_leaves (fuel : Nat) (cgiexe : CgiExecutor) (data : Bytes)
    (dpr : DataProcessingResult) (hs : h₀ <:+ h) :
    Leaves h₀ (cgiexeProcessData fuel cgiexe data dpr)
      (fun r t => InputWaits h₀ (cgiInput r.1) data dpr r.2.1 r.2.2 t) h := by
  refine Leaves.iterate (I := fun x _ => x.2.1 = dpr) ?_ fuel hs rfl
  rintro ⟨c, _, wrtot⟩ t ht rfl
  unfold cgiWriteRound
  dsimp only
  split
  · exact .pure ht (.inl rfl)
  rename_i fd hfd
  refine .ite (fun hlt => .call ht fun r hr => ?_) fun _ => .pure ht (.inl rfl)
  cases r with
  | wrote wr => exact .pure hr rfl
  | fail e =>
    refine .ite (fun he => .pure hr (.inr ⟨fd, mem_fdOf hfd, ?_, .now ht ?_, hlt⟩)) fun _ =>
      .call hr fun _ hu => .pure hu rfl
    · dsimp only
      rw [hfd]
    · simp [blocks, he]

theorem cgiexeGetResponse_leaves (fuel : Nat) (cgiexe : CgiExecutor) (dpr : DataProcessingResult)
    (hs : h₀ <:+ h) :
    Leaves h₀ (cgiexeGetResponse fuel cgiexe dpr) (fun r t => r.1.inFd = cgiexe.inFd ∧
      ((r.2.2 ≠ none ∧ r.2.1 = dpr) ∨
        (r.2.2 = none ∧ AnswerWaits h₀ (cgiFds r.1) dpr r.2.1 t))) h := by
  have hround : Leaves h₀ (Program.iterate .outOfFuel (cgiHeaderRound cgiexe.outFd) fuel
      cgiexe.cgiHeader) (fun r t => r.2 = .failed .wouldBlock →
        ∃ fd, cgiexe.outFd = some fd ∧ Blocked h₀ .awaitRead fd t) h := by
    refine Leaves.iterate (I := fun _ _ => True) ?_ fuel hs trivial
    rintro header t ht -
    unfold cgiHeaderRound
    cases hfd : cgiexe.outFd with
    | none => exact .pure ht fun he => by cases he
    | some fd =>
      refine .call ht fun r hr => ?_
      rcases r with (_ | ⟨b, buf⟩) | e
      · exact .pure hr fun he => by cases he
      · refine (Leaves.any _ hr).seq ?_
        rintro ⟨header, offset⟩ u hu -
        cases offset with
        | none => exact .pure hu trivial
        | some offset => exact .pure hu fun he => by cases he
      · refine .pure hr fun he => ⟨fd, rfl, .now ht ?_⟩
        cases he
        simp [blocks]
  refine hround.seq ?_
  rintro ⟨header, res⟩ t ht hblocked
  cases res with
  | complete rest =>
    refine (Leaves.any _ ht).seq fun resp u hu _ => (Leaves.any _ hu).seq fun resp v hv _ =>
      (Leaves.any _ hv).seq fun resp w hw _ => ?_
    exact .pure hw ⟨rfl, .inl ⟨Option.some_ne_none resp, rfl⟩⟩
  | eof =>
    refine (Leaves.any _ ht).seq fun _ u hu _ => (Leaves.any _ hu).seq fun resp v hv _ =>
      (Leaves.any _ hv).seq fun resp w hw _ => (Leaves.any _ hw).seq fun resp x hx _ => ?_
    exact .pure hx ⟨rfl, .inl ⟨Option.some_ne_none resp, rfl⟩⟩
  | failed e =>
    refine .ite (fun he => ?_) fun _ => .fault
    obtain ⟨fd, hfd, hb⟩ := hblocked (by dsimp only; rw [he])
    refine .pure ht ⟨rfl, .inr ⟨rfl, .awaitRead, fd, ?_, (fun hc => by cases hc), ?_, hb⟩⟩
    · exact Multiset.mem_add.mpr (.inr (mem_fdOf hfd))
    · dsimp only
      rw [hfd]

end Cgi

/-- What a connection has to know of a handler: the descriptors that it owns, those that it writes
the body to, and whether there is an answer or will be one. -/
structure HandlerView (H : Type) where
  fds : H → Multiset Fd
  inputs : H → Multiset Fd
  Answers : H → Prop

/-- The response is finished, or it waits; it waits for nothing only where there is no answer
yet. -/
structure ResponseStep {H : Type} (view : HandlerView H) (h₀ : History) (hdlr : H) (sock : Fd)
    (dpr : DataProcessingResult) (r : H × DataProcessingResult × Bool) (h : History) : Prop where
  inputs : view.inputs r.1 = view.inputs hdlr
  answers : view.Answers hdlr → view.Answers r.1
  finished : r.2.2 = true → r.2.1 = dpr ∨ r.2.1 = dprSetCloseConn dpr
  waits : r.2.2 = false → AnswerWaits h₀ (view.fds r.1 + {sock}) dpr r.2.1 h ∨
    (r.2.1 = dpr ∧ ¬ view.Answers hdlr)

/-- How handlers wait. -/
structure WaitContract {H : Type} (view : HandlerView H) (ops : HandlerOps H) : Prop where
  inputs_fds : ∀ {hdlr fd}, fd ∈ view.inputs hdlr → fd ∈ view.fds hdlr
  processData : ∀ {h₀ h} hdlr data dpr, h₀ <:+ h → Leaves h₀ (ops.processData hdlr data dpr)
    (fun r t => InputWaits h₀ (view.inputs r.1) data dpr r.2.1 r.2.2 t) h
  requestReadCompleted : ∀ hdlr rhdr, Yields view.Answers (ops.requestReadCompleted hdlr rhdr)
  progressResponse : ∀ {h₀ h} hdlr sock dpr, h₀ <:+ h →
    Leaves h₀ (ops.progressResponse hdlr sock dpr) (ResponseStep view h₀ hdlr sock dpr) h

section Handler

/-- The response is there, or a CGI program gives it. -/
def Answers (hdlr : RequestHandler) : Prop := hdlr.response ≠ none ∨ hdlr.cgiexe ≠ none

def handlerInputs (hdlr : RequestHandler) : Multiset Fd := fdsIf cgiInput hdlr.cgiexe

def handlerView : HandlerView RequestHandler := ⟨handlerFds, handlerInputs, Answers⟩

theorem mem_handlerFds {hdlr : RequestHandler} (hm : fd ∈ handlerInputs hdlr) :
    fd ∈ handlerFds hdlr := by
  unfold handlerInputs at hm
  cases hcgi : hdlr.cgiexe with
  | none =>
    rw [hcgi] at hm
    exact absurd hm (Multiset.notMem_zero fd)
  | some c =>
    rw [hcgi] at hm
    refine Multiset.mem_add.mpr (.inl (Multiset.mem_add.mpr (.inr ?_)))
    rw [hcgi]
    exact Multiset.mem_add.mpr (.inl hm)

theorem reqhdlrProcessData_leaves (fuel : Nat) (hdlr : RequestHandler) (data : Bytes)
    (dpr : DataProcessingResult) (hs : h₀ <:+ h) :
    Leaves h₀ (reqhdlrProcessData fuel hdlr data dpr)
      (fun r t => InputWaits h₀ (handlerInputs r.1) data dpr r.2.1 r.2.2 t) h := by
  unfold reqhdlrProcessData
  split
  · exact (Leaves.any _ hs).seq fun m t ht _ => .pure ht (.inl rfl)
  · refine (cgiexeProcessData_leaves fuel _ data dpr hs).seq ?_
    rintro ⟨c, d, processed⟩ t ht hwaits
    exact .pure ht hwaits
  · exact .pure hs (.inl rfl)

/-- A request that is completely read has its answer, or will have it from a CGI program. -/
theorem reqhdlrRequestReadCompleted_answers (fuel : Nat) (cfg : Config) (hdlr : RequestHandler)
    (rhdr : RequestHeader) :
    Yields Answers (reqhdlrRequestReadCompleted fuel cfg hdlr rhdr) := by
  unfold reqhdlrRequestReadCompleted
  split
  · exact .seq fun c => .pure (.inr (Option.some_ne_none c))
  · rename_i response _ hresponse
    exact .pure (.inl (by rw [hresponse]; exact Option.some_ne_none response))
  · refine .seq ?_
    rintro ⟨m, resp⟩
    exact .seq fun response => .pure (.inl (Option.some_ne_none response))

/-- The step that makes a response of what the CGI program has written. -/
structure CgiStep (h₀ : History) (hdlr : RequestHandler) (dpr : DataProcessingResult)
    (r : RequestHandler × DataProcessingResult) (h : History) : Prop where
  inputs : handlerInputs r.1 = handlerInputs hdlr
  answers : Answers hdlr → Answers r.1
  ready : r.1.response ≠ none → r.2 = dpr
  waits : r.1.response = none → AnswerWaits h₀ (handlerFds r.1) dpr r.2 h ∨
    (r.2 = dpr ∧ ¬ Answers hdlr)

theorem awaitCgiResponse_leaves (fuel : Nat) (hdlr : RequestHandler) (dpr : DataProcessingResult)
    (hs : h₀ <:+ h) :
    Leaves h₀ (awaitCgiResponse fuel hdlr dpr) (CgiStep h₀ hdlr dpr) h := by
  unfold awaitCgiResponse
  split
  · rename_i cgiexe hresponse hcgi
    refine (cgiexeGetResponse_leaves fuel cgiexe dpr hs).seq ?_
    rintro ⟨c, d, resp⟩ t ht ⟨hin, hres⟩
    dsimp only at hin hres
    have hinputs : ∀ response, handlerInputs { hdlr with cgiexe := some c, response } =
        handlerInputs hdlr := by
      intro response
      unfold handlerInputs
      rw [hcgi, fdsIf_some, fdsIf_some, cgiInput, cgiInput, hin]
    rcases hres with ⟨hsome, rfl⟩ | ⟨rfl, hwaits⟩
    · obtain ⟨resp, rfl⟩ := Option.ne_none_iff_exists'.mp hsome
      have hfinish : Yields (· ≠ none) (finishIfReady (some resp)) :=
        .seq fun r => .pure (Option.some_ne_none r)
      refine (Leaves.of_yields hfinish ht).seq fun response u hu hready => ?_
      exact .pure hu ⟨hinputs _, fun _ => .inr (Option.some_ne_none c), fun _ => rfl,
        fun he => absurd he hready⟩
    · refine .pure ht ⟨hinputs _, fun _ => .inr (Option.some_ne_none c), fun hne => absurd rfl hne,
        fun _ => .inl ?_⟩
      obtain ⟨state, fd, hm, hstate, hd, hb⟩ := hwaits
      refine ⟨state, fd, ?_, hstate, hd, hb⟩
      exact Multiset.mem_add.mpr (.inl (Multiset.mem_add.mpr (.inr hm)))
  · rename_i hnone
    refine .pure hs ⟨rfl, fun h => h, fun _ => rfl, fun he => .inr ⟨rfl, ?_⟩⟩
    rintro (hresponse | hcgi)
    · exact hresponse he
    · obtain ⟨c, hc⟩ := Option.ne_none_iff_exists'.mp hcgi
      exact hnone c he hc

theorem reqhdlrProgressResponse_leaves (fuel : Nat) (hdlr : RequestHandler) (sock : Fd)
    (dpr : DataProcessingResult) (hs : h₀ <:+ h) :
    Leaves h₀ (reqhdlrProgressResponse fuel hdlr sock dpr)
      (ResponseStep handlerView h₀ hdlr sock dpr) h := by
  refine (awaitCgiResponse_leaves fuel hdlr dpr hs).seq ?_
  rintro ⟨hdlr', d⟩ t ht hstep
  dsimp only
  cases hresponse : hdlr'.response with
  | none =>
    refine .pure ht ⟨hstep.inputs, hstep.answers, fun hc => (by cases hc), fun _ => ?_⟩
    refine (hstep.waits hresponse).imp_left ?_
    rintro ⟨state, fd, hm, hwaits⟩
    exact ⟨state, fd, Multiset.mem_add.mpr (.inl hm), hwaits⟩
  | some response =>
    have hready : d = dpr := hstep.ready (by rw [hresponse]; exact Option.some_ne_none response)
    rw [hready]
    refine (rsndrSend_leaves fuel response dpr ht).seq ?_
    rintro ⟨response', d', isFinished⟩ u hu hends
    refine .pure hu ⟨hstep.inputs, fun _ => .inl (Option.some_ne_none response'), ?_, ?_⟩
    · rintro rfl
      rcases hends with ⟨-, hd⟩ | ⟨hc, -⟩
      · exact hd
      · cases hc
    · rintro rfl
      rcases hends with ⟨hc, -⟩ | ⟨-, state, fd, hm, hwaits⟩
      · cases hc
      · refine .inl ⟨state, fd, ?_, hwaits⟩
        rcases Multiset.mem_add.mp hm with hm | hm
        · exact Multiset.mem_add.mpr (.inl (Multiset.mem_add.mpr (.inr hm)))
        · exact Multiset.mem_add.mpr (.inr hm)

/-- The server's handlers wait so. -/
theorem reqhdlrWaits (fuel : Nat) (cfg : Config) :
    WaitContract handlerView (reqhdlrOps fuel cfg) where
  inputs_fds := mem_handlerFds
  processData hdlr data dpr hs := reqhdlrProcessData_leaves fuel hdlr data dpr hs
  requestReadCompleted hdlr rhdr := reqhdlrRequestReadCompleted_answers fuel cfg hdlr rhdr
  progressResponse hdlr sock dpr hs := reqhdlrProgressResponse_leaves fuel hdlr sock dpr hs

end Handler

end FilemanagerHttpd.Audit
