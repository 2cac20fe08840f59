import FilemanagerHttpd.Audit.ConnectionWaits
import FilemanagerHttpd.Audit.LoginState
import FilemanagerHttpd.Audit.RequestReading

/-!
# What a connection owns

A connection owns its socket and what its handler owns. The handlers are any that keep a contract
with their connection; the server's own ones do. A turn makes the calls only that the login state
of its request permits, and follows the handler where it is missing only behind a response that
has ended before its request was read.
-/

namespace FilemanagerHttpd.Audit

open Library Server

variable {cfg : Config} {H : Type} {ops : HandlerOps H} {α β : Type}

/-- How handlers work: what they own, and what the login state must let them keep. A state that
lets a guest keep it lets everybody. -/
structure HandlerContract (cfg : Config) (ops : HandlerOps H) extends HandlerView H where
  waits : WaitContract toHandlerView ops
  Allowed : LoginState → H → Prop
  later : ∀ {st hdlr}, Allowed .loggedOut hdlr → Allowed st hdlr
  new : ∀ rhdr peer h, Works cfg (reqhdrGetLoginState rhdr) 0 (ops.new rhdr peer)
    (Has fds (Allowed (reqhdrGetLoginState rhdr))) h
  processData : ∀ {st hdlr} data dpr h, Allowed st hdlr →
    Works cfg st (fds hdlr) (ops.processData hdlr data dpr)
      (fun r o t => Has fds (Allowed st) r.1 o t) h
  requestReadCompleted : ∀ {hdlr} rhdr h, Allowed (reqhdrGetLoginState rhdr) hdlr →
    Works cfg (reqhdrGetLoginState rhdr) (fds hdlr) (ops.requestReadCompleted hdlr rhdr)
      (Has fds (Allowed (reqhdrGetLoginState rhdr))) h
  progressResponse : ∀ {st hdlr} sock dpr h, Allowed st hdlr →
    Works cfg st (fds hdlr + {sock}) (ops.progressResponse hdlr sock dpr)
      (fun r o _ => o = fds r.1 + {sock} ∧ Allowed st r.1) h
  free : ∀ {st hdlr} h, Allowed st hdlr →
    Works cfg st (fds hdlr) (ops.free hdlr) (fun _ o _ => o = 0) h

theorem MayModify.later {st : LoginState} (h : MayModify cfg .loggedOut) : MayModify cfg st :=
  configIsActionAllowed_mono h

theorem HandlerAllowed.later {st : LoginState} {hdlr : RequestHandler}
    (h : HandlerAllowed cfg .loggedOut hdlr) : HandlerAllowed cfg st hdlr := by
  intro filemgr hmgr mpdata hbody
  have hform := h filemgr hmgr mpdata hbody
  refine ⟨fun cpart hc => ?_, fun hdest => (hform.mayModify hdest).later⟩
  exact ⟨(hform.parts cpart hc).named, fun hkept => ((hform.parts cpart hc).mayModify hkept).later⟩

/-- The server's handlers keep the contract. -/
def reqhdlrContract (fuel : Nat) (cfg : Config) : HandlerContract cfg (reqhdlrOps fuel cfg) where
  toHandlerView := handlerView
  waits := reqhdlrWaits fuel cfg
  Allowed := HandlerAllowed cfg
  later := HandlerAllowed.later
  new _ peer _ := reqhdlrNew_works rfl fuel peer
  processData data dpr _ h := reqhdlrProcessData_works fuel h data dpr
  requestReadCompleted _ _ h := reqhdlrRequestReadCompleted_works rfl fuel h
  progressResponse _ dpr _ h := reqhdlrProgressResponse_works fuel h dpr
  free _ h := reqhdlrFree_works h

section Login

/-- A decided login state stays. -/
theorem checkAuthorization_keeps {req req' : RequestHeader} {name value : Bytes}
    (hin : req.loginState ≠ .loggedOut) (h : checkAuthorization cfg req name value = .ok req') :
    req' = req := by
  unfold checkAuthorization at h
  rw [if_neg fun hc => hin hc.1] at h
  exact (Except.ok.inj h).symm

theorem reqhdrAddLine_keeps {req req' : RequestHeader} {line : Bytes}
    (hin : req.loginState ≠ .loggedOut) (h : reqhdrAddLine cfg req line = .ok req') :
    req'.loginState = req.loginState := by
  unfold reqhdrAddLine at h
  split at h
  · rw [← Except.ok.inj h]
  · obtain ⟨req₁, hcheck, h⟩ := bind_ok h
    rw [checkAuthorization_keeps hin hcheck] at h
    split at h
    · rw [← Except.ok.inj h]
    · cases h

theorem reqhdrAppendLoop_keeps {n : Nat} {req req' : RequestHeader} {bol : Bytes}
    {rest : Option Bytes} (hin : req.loginState ≠ .loggedOut)
    (h : reqhdrAppendLoop cfg n req bol = .ok (req', rest)) :
    req'.loginState = req.loginState := by
  induction n generalizing req bol with
  | zero => rw [(Prod.mk.inj (Except.ok.inj h)).1]
  | succ n ih =>
    rw [reqhdrAppendLoop] at h
    split at h
    · rw [(Prod.mk.inj (Except.ok.inj h)).1]
    split at h
    · obtain ⟨line, -, h⟩ := bind_ok h
      rw [← (Prod.mk.inj (Except.ok.inj h)).1]
    · obtain ⟨line, -, h⟩ := bind_ok h
      simp only at h
      split at h
      · refine (ih ?_ h).trans rfl
        exact hin
      · have hdecode := (decodeRequestStartLine_lines { req with request := stripCr line }).2.1
        refine (ih ?_ h).trans hdecode
        rw [hdecode]
        exact hin
    · obtain ⟨line, -, h⟩ := bind_ok h
      rw [← (Prod.mk.inj (Except.ok.inj h)).1]
    · obtain ⟨line, -, h⟩ := bind_ok h
      split at h
      · rw [← (Prod.mk.inj (Except.ok.inj h)).1]
      · obtain ⟨req₁, hadd, h⟩ := bind_ok h
        have hkept := reqhdrAddLine_keeps hin hadd
        exact (ih (hkept ▸ hin) h).trans hkept

theorem reqhdrAppendData_keeps {req req' : RequestHeader} {data : Bytes} {offset : Option Nat}
    (hin : req.loginState ≠ .loggedOut)
    (h : reqhdrAppendData cfg req data = .ok (req', offset)) :
    req'.loginState = req.loginState := by
  obtain ⟨r, hloop, h⟩ := bind_ok h
  obtain ⟨rfl, -⟩ := Prod.mk.inj (Except.ok.inj h)
  exact reqhdrAppendLoop_keeps hin hloop

/-- What was allowed before some lines is allowed behind them. -/
theorem HandlerContract.appended (K : HandlerContract cfg ops) {req req' : RequestHeader}
    {data : Bytes} {offset : Option Nat} {hdlr : H}
    (h : reqhdrAppendData cfg req data = .ok (req', offset))
    (hallowed : K.Allowed req.loginState hdlr) : K.Allowed req'.loginState hdlr := by
  by_cases hout : req.loginState = .loggedOut
  · rw [hout] at hallowed
    exact K.later hallowed
  · rw [reqhdrAppendData_keeps hout h]
    exact hallowed

end Login

section Turns

/-- What a turn owes that begins in `h₀`, where `g₀` is told. -/
def turnDuty (cfg : Config) (g₀ : Told) (h₀ : History) : Duty sys Fault History where
  guard c h := Permitted cfg (toldSince g₀ h₀ h).login h c
  faulted f h := f ≠ .fatal .internal ∧
    (f = .nullPointer .handler → (toldSince g₀ h₀ h).early = true)

/-- `g` is told, since `g₀` was in `h₀`. -/
structure Tells (g₀ : Told) (h₀ : History) (g : Told) (h : History) : Prop where
  since : h₀ <:+ h
  told : toldSince g₀ h₀ h = g

/-- A turn that begins in `h₀`, where `g₀` is told. -/
abbrev TurnOwns (cfg : Config) (g₀ : Told) (h₀ : History) (own : Multiset Fd) (p : Prog α)
    (Q : α → Multiset Fd → History → Prop) (h : History) : Prop :=
  descriptors.Owns (turnDuty cfg g₀ h₀) own p Q h

variable {g₀ g : Told} {h₀ h : History} {own : Multiset Fd}
  {Q : α → Multiset Fd → History → Prop} {T : β → Multiset Fd → History → Prop}

theorem Tells.start (g : Told) (h : History) : Tells g h g h := ⟨List.suffix_rfl, toldSince_self g h⟩

theorem Tells.cons (ht : Tells g₀ h₀ g h) (e : Event) : Tells g₀ h₀ (tell e g) (e :: h) where
  since := ht.since.trans (List.suffix_cons e h)
  told := (toldSince_cons g₀ ht.since e).trans (by rw [ht.told])

theorem turn_outOfFuel (t : History) : (turnDuty cfg g₀ h₀).faulted .outOfFuel t :=
  ⟨(fun he => by cases he), fun he => by cases he⟩

theorem turn_fault {f : Fault} (hf : Ordinary f) : TurnOwns cfg g₀ h₀ own (.fault f) Q h :=
  .fault ⟨hf.2, fun he => absurd he hf.1⟩

/-- A handler that works does what the turn owes, and nothing is told meanwhile. -/
theorem turn_works {p : Prog α} (ht : Tells g₀ h₀ g h) (hp : Works cfg g.login own p Q h) :
    TurnOwns cfg g₀ h₀ own p (fun a o t => Q a o t ∧ Tells g₀ h₀ g t) h := by
  refine Ledger.Owns.keeps (I := Tells g₀ h₀ g) ?_ ?_ ?_ ht hp
  · rintro c t r _ hc hi ⟨-, rfl⟩
    have htell := hi.cons ⟨c, r⟩
    rw [tell_work hc.no_note] at htell
    exact htell
  · intro c t hc hi
    show Permitted cfg (toldSince g₀ h₀ t).login t c
    rw [hi.told]
    exact hc.permitted
  · exact fun f t hf _ => ⟨hf.2, fun he => absurd he hf.1⟩

theorem turn_lift {X : α → Prop} {e : Except Fault α} (he : Sound Ordinary X e) :
    TurnOwns cfg g₀ h₀ own (liftM e) (fun a o t => o = own ∧ t = h ∧ X a) h := by
  cases e with
  | ok a => exact .pure ⟨rfl, rfl, he⟩
  | error f => exact turn_fault he

/-- A note of the connection itself. -/
theorem turn_note {n : Note} {k : Unit → Prog β} (ht : Tells g₀ h₀ g h) (hn : n ≠ .listing)
    (hk : ∀ t, Tells g₀ h₀ (tell ⟨.note n, ()⟩ g) t → TurnOwns cfg g₀ h₀ own (k ()) T t) :
    TurnOwns cfg g₀ h₀ own (perform (.note n) >>= k) T h := by
  refine owns_call (c := .note n) ?_ (fun fd hm => absurd hm (Multiset.notMem_zero fd)) rfl
    (fun _ => rfl) fun _ _ => hk _ (ht.cons _)
  cases n with
  | listing => exact absurd rfl hn
  | _ => trivial

/-- A call of the connection itself. -/
theorem turn_call {c : Sys} {k : c.Answer → Prog β} (ht : Tells g₀ h₀ g h)
    (hc : WorkCall cfg g.login h c) (huses : ∀ fd ∈ descriptorsUsed c, fd ∈ own)
    (hcloses : descriptorsClosed c = 0) (hopens : ∀ r, (⟨c, r⟩ : Event).opens = [])
    (hk : ∀ r t, Tells g₀ h₀ g t → TurnOwns cfg g₀ h₀ own (k r) T t) :
    TurnOwns cfg g₀ h₀ own (perform c >>= k) T h := by
  refine owns_call (c := c) ?_ huses hcloses hopens fun r _ => hk r _ ?_
  · show Permitted cfg (toldSince g₀ h₀ h).login h c
    rw [ht.told]
    exact hc.permitted
  · have htell := ht.cons ⟨c, r⟩
    rw [tell_work hc.no_note] at htell
    exact htell

end Turns

section Connections

variable (K : HandlerContract cfg ops)

/-- A connection with a handler: the login state lets it keep what it owns. Before the request is
read there is none. -/
structure ConnAllowed (conn : ServerConnection H) : Prop where
  allowed : ∀ hdlr, conn.handler = some hdlr → K.Allowed conn.hdr.loginState hdlr
  unread : conn.rrs = .idle ∨ conn.rrs = .readHead → conn.handler = none

/-- A connection in its turn: its handler works for the login state that has been told. -/
structure ConnWorks (g₀ : Told) (h₀ : History) (conn : ServerConnection H) (own : Multiset Fd)
    (h : History) : Prop extends ConnAllowed K conn where
  since : h₀ <:+ h
  owned : own = connFds K.fds conn
  login : ∀ hdlr, conn.handler = some hdlr → (toldSince g₀ h₀ h).login = conn.hdr.loginState

/-- The handler is missing only before the request, or behind a response that has ended early. -/
def Attended (g : Told) (conn : ServerConnection H) : Prop :=
  conn.handler = none → conn.rrs = .idle ∨ conn.rrs = .readHead ∨ g.early = true

/-- A connection that reads its request. -/
structure ConnReads (g₀ : Told) (h₀ : History) (conn : ServerConnection H) (own : Multiset Fd)
    (h : History) : Prop extends ConnWorks K g₀ h₀ conn own h where
  attended : Attended (toldSince g₀ h₀ h) conn

variable {K} {g₀ : Told} {h₀ h t : History} {own : Multiset Fd} {conn conn' : ServerConnection H}

/-- The header of the request has been read. -/
def Begun (conn : ServerConnection H) : Prop := conn.rrs ≠ .idle ∧ conn.rrs ≠ .readHead

/-- The same connection further on in its request. -/
structure Further (conn conn' : ServerConnection H) : Prop where
  socket : conn'.socketFd = conn.socketFd
  handler : conn'.handler = conn.handler
  header : conn'.header = conn.header
  rrs : conn'.rrs = conn.rrs ∨ Begun conn ∧ Begun conn'

theorem Further.keep (conn : ServerConnection H) (rest : Bytes) : Further conn (conn.keep rest) := by
  unfold ServerConnection.keep
  split
  · exact ⟨rfl, rfl, rfl, .inl rfl⟩
  · exact ⟨rfl, rfl, rfl, .inl rfl⟩

theorem Further.begun (hf : Further conn conn') (hbegun : Begun conn) : Begun conn' := by
  rcases hf.rrs with hrrs | hb
  · rw [Begun, hrrs]
    exact hbegun
  · exact hb.2

theorem ConnWorks.further (hc : ConnWorks K g₀ h₀ conn own h) (hf : Further conn conn') :
    ConnWorks K g₀ h₀ conn' own h where
  allowed hdlr he := by
    rw [ServerConnection.hdr, hf.header]
    exact hc.allowed hdlr (hf.handler ▸ he)
  unread hr := by
    rcases hf.rrs with hrrs | ⟨-, hbegun⟩
    · rw [hrrs] at hr
      exact hf.handler.trans (hc.unread hr)
    · exact (hr.elim hbegun.1 hbegun.2).elim
  since := hc.since
  owned := by
    rw [connFds, hf.handler, hf.socket]
    exact hc.owned
  login hdlr he := by
    rw [ServerConnection.hdr, hf.header]
    exact hc.login hdlr (hf.handler ▸ he)

/-- A connection whose request has begun has a handler, or its response has ended early. -/
theorem ConnReads.early (hc : ConnReads K g₀ h₀ conn own h) (hbegun : Begun conn)
    (hnone : conn.handler = none) : (toldSince g₀ h₀ h).early = true := by
  rcases hc.attended hnone with hi | hi | hearly
  · exact absurd hi hbegun.1
  · exact absurd hi hbegun.2
  · exact hearly

theorem ConnReads.further (hc : ConnReads K g₀ h₀ conn own h) (hf : Further conn conn') :
    ConnReads K g₀ h₀ conn' own h := by
  refine ⟨hc.toConnWorks.further hf, fun hnone => ?_⟩
  rw [hf.handler] at hnone
  rcases hf.rrs with hrrs | ⟨hbegun, -⟩
  · rw [hrrs]
    exact hc.attended hnone
  · exact .inr (.inr (hc.early hbegun hnone))

/-- The calls of a handler in a turn: it works with what it owns, and the socket beside. -/
theorem turn_part {α β : Type} {own : Multiset Fd} {p : Prog α} {k : α → Prog β}
    {Q : α → Multiset Fd → History → Prop} {T : β → Multiset Fd → History → Prop} {st : LoginState}
    (extra : Multiset Fd) (hs : h₀ <:+ h) (hst : (toldSince g₀ h₀ h).login = st)
    (hp : Works cfg st own p Q h)
    (hk : ∀ a o t, Q a o t → h₀ <:+ t → toldSince g₀ h₀ t = toldSince g₀ h₀ h →
      TurnOwns cfg g₀ h₀ (o + extra) (k a) T t) :
    TurnOwns cfg g₀ h₀ (own + extra) (p >>= k) T h := by
  rw [← hst] at hp
  refine (turn_works ⟨hs, rfl⟩ hp).part ?_
  rintro a o t ⟨hQ, ht⟩
  exact hk a o t hQ ht.since ht.told

/-- A connection whose handler may keep what it owns. -/
theorem connReads_some {hdlr : H} (hhandler : conn.handler = some hdlr)
    (hallowed : K.Allowed conn.hdr.loginState hdlr) (hbegun : Begun conn) (hs : h₀ <:+ h)
    (hlogin : (toldSince g₀ h₀ h).login = conn.hdr.loginState) :
    ConnReads K g₀ h₀ conn (K.fds hdlr + {conn.socketFd}) h := by
  refine ⟨⟨⟨fun hdlr' he => ?_, fun hr => (hr.elim hbegun.1 hbegun.2).elim⟩, hs, ?_,
    fun _ _ => hlogin⟩, fun he => ?_⟩
  · rw [hhandler] at he
    rw [← Option.some.inj he]
    exact hallowed
  · rw [connFds, hhandler, fdsIf_some]
  · rw [hhandler] at he
    cases he

theorem ConnAllowed.begun (hc : ConnAllowed K conn) {hdlr : H} (hhandler : conn.handler = some hdlr) :
    Begun conn := by
  refine ⟨fun hi => ?_, fun hi => ?_⟩
  · rw [hc.unread (.inl hi)] at hhandler
    cases hhandler
  · rw [hc.unread (.inr hi)] at hhandler
    cases hhandler

theorem ConnWorks.owned_some (hc : ConnWorks K g₀ h₀ conn own h) {hdlr : H}
    (hhandler : conn.handler = some hdlr) : own = K.fds hdlr + {conn.socketFd} := by
  rw [hc.owned, connFds, hhandler, fdsIf_some]

/-- The handler is followed: it is there, or the response has ended early. -/
theorem turn_derefHandler {β : Type} {k : H → Prog β} {T : β → Multiset Fd → History → Prop}
    (hc : ConnReads K g₀ h₀ conn own h) (hbegun : Begun conn)
    (hk : ∀ hdlr, conn.handler = some hdlr → TurnOwns cfg g₀ h₀ own (k hdlr) T h) :
    TurnOwns cfg g₀ h₀ own (liftM (derefHandler conn) >>= k) T h := by
  unfold derefHandler
  cases hhandler : conn.handler with
  | none => exact .fault ⟨(fun he => by cases he), fun _ => hc.early hbegun hhandler⟩
  | some hdlr => exact hk hdlr hhandler

/-- The handler is made for the header, and what is left to read is the body or nothing. -/
theorem onFinishedHeader_owns (hc : ConnWorks K g₀ h₀ conn own h) (hnone : conn.handler = none)
    (hlogin : (toldSince g₀ h₀ h).login = conn.hdr.loginState) :
    TurnOwns cfg g₀ h₀ own (onFinishedHeader ops conn conn.hdr) (ConnReads K g₀ h₀) h := by
  have hown : own = 0 + {conn.socketFd} := by
    rw [hc.owned, connFds, hnone, fdsIf_none]
  refine turn_call (c := .getpeername conn.socketFd) ⟨hc.since, rfl⟩ ⟨rfl, trivial⟩
    (fun fd hm => absurd hm (Multiset.notMem_zero fd)) rfl (fun _ => rfl) fun peer t ht => ?_
  rw [hown]
  refine turn_part {conn.socketFd} ht.since (by rw [ht.told]; exact hlogin)
    (K.new conn.hdr peer t) ?_
  rintro hdlr _ u ⟨rfl, hallowed⟩ hsince htold
  refine turn_note ⟨hsince, rfl⟩ (fun he => by cases he) fun v hv => ?_
  have hlogin' : (toldSince g₀ h₀ v).login = conn.hdr.loginState := by
    rw [hv.told, ← hlogin, ← ht.told, ← htold]
    rfl
  refine .ite (fun _ => ?_) fun _ => ?_
  · refine (turn_lift (ordinary_wraps (mbNewWithStr_wraps _)).any).seq ?_
    rintro chunkHdr _ w ⟨rfl, rfl, -⟩
    refine .pure (connReads_some rfl hallowed ?_ hv.since hlogin')
    exact ⟨(fun he => by cases he), fun he => by cases he⟩
  · have hread : ∀ n : Nat,
        (if 0 < n then RequestReadState.readBody else .readFinished) ≠ .idle ∧
          (if 0 < n then RequestReadState.readBody else .readFinished) ≠ .readHead := by
      intro n
      by_cases hn : 0 < n
      · rw [if_pos hn]
        decide
      · rw [if_neg hn]
        decide
    exact .pure (connReads_some rfl hallowed (hread _) hv.since hlogin')

/-- Body bytes go to the handler. -/
theorem offerBody_owns (hc : ConnReads K g₀ h₀ conn own h) (hbegun : Begun conn)
    (dpr : DataProcessingResult) (data : Bytes) :
    TurnOwns cfg g₀ h₀ own (offerBody ops conn dpr data)
      (fun r o t => ConnReads K g₀ h₀ r.1 o t ∧ r.1.rrs = conn.rrs) h := by
  refine .ite (fun _ => turn_derefHandler hc hbegun fun hdlr hhandler => ?_) fun _ => .pure ⟨hc, rfl⟩
  have hlogin := hc.login hdlr hhandler
  rw [hc.owned_some hhandler]
  refine turn_part {conn.socketFd} hc.since hlogin
    (K.processData (data.take (bodyBytesAhead conn data)) dpr h (hc.allowed hdlr hhandler)) ?_
  rintro ⟨hdlr', dpr', processed⟩ _ t ⟨rfl, hallowed⟩ hsince htold
  refine turn_note ⟨hsince, rfl⟩ (fun he => by cases he) fun u hu => .pure ⟨?_, rfl⟩
  refine connReads_some rfl hallowed hbegun hu.since ?_
  rw [hu.told]
  exact (congrArg Told.login htold).trans hlogin

theorem startChunk_further (hbegun : Begun conn) (chunkHdr : MemBuf) :
    Further conn (startChunk conn chunkHdr) := by
  unfold startChunk
  dsimp only
  split
  · exact ⟨rfl, rfl, rfl, .inr ⟨hbegun, (fun he => by cases he), fun he => by cases he⟩⟩
  · exact ⟨rfl, rfl, rfl, .inl rfl⟩

theorem bodyComplete_further (hbegun : Begun conn) (data : Bytes) :
    Sound Ordinary (fun r => Further conn r.1) (bodyComplete conn data) := by
  refine .ite ?_ (⟨rfl, rfl, rfl, .inl rfl⟩ : Further conn conn)
  split
  · rename_i chunkHdr _
    refine (ordinary_wraps (mbAppendData_wraps _ _)).bind fun mb _ => ?_
    split
    · refine (ordinary_wraps (mbAppendData_wraps _ _)).bind fun mb _ => ?_
      exact (⟨rfl, rfl, rfl, .inl rfl⟩ : Further conn { conn with chunkHdr := some mb })
    · exact (ordinary_wraps (mbAppendData_wraps _ _)).bind fun mb _ => startChunk_further hbegun mb
  · have hdone : Begun { conn with rrs := .readFinished } :=
      ⟨(fun he => by cases he), fun he => by cases he⟩
    exact (⟨rfl, rfl, rfl, .inr ⟨hbegun, hdone⟩⟩ : Further conn { conn with rrs := .readFinished })

/-- The body is read. -/
theorem appendBodyData_owns (fuel : Nat) (hc : ConnReads K g₀ h₀ conn own h)
    (hbody : conn.rrs = .readBody) (dpr : DataProcessingResult) :
    TurnOwns cfg g₀ h₀ own (appendBodyData fuel ops conn dpr)
      (fun r o t => ConnReads K g₀ h₀ r.1 o t ∧ Begun r.1) h := by
  have hstart : Begun conn := by
    rw [Begun, hbody]
    decide
  refine Ledger.Owns.iterate (I := fun x o t => ConnReads K g₀ h₀ x.1 o t ∧ Begun x.1)
    turn_outOfFuel ?_ fuel ⟨hc, hstart⟩
  rintro ⟨conn, dpr, data⟩ own t ⟨hc, hbegun⟩
  have hkeep : ∀ {c : ServerConnection H} {o : Multiset Fd} {u : History} (rest : Bytes),
      ConnReads K g₀ h₀ c o u ∧ Begun c →
        ConnReads K g₀ h₀ (c.keep rest) o u ∧ Begun (c.keep rest) := by
    exact fun rest h => ⟨h.1.further (Further.keep _ rest), (Further.keep _ rest).begun h.2⟩
  refine .ite (fun _ => .pure (hkeep data ⟨hc, hbegun⟩)) fun _ => ?_
  refine (offerBody_owns hc hbegun dpr data).seq ?_
  rintro ⟨c, d, rest, goOn⟩ o u ⟨hc', hrrs⟩
  have hbegun' : Begun c := by
    rw [Begun, hrrs]
    exact hbegun
  refine .ite (fun _ => .pure (hkeep rest ⟨hc', hbegun'⟩)) fun _ => ?_
  refine (turn_lift (bodyComplete_further hbegun' rest)).seq ?_
  rintro ⟨c', rest'⟩ _ v ⟨rfl, rfl, hf⟩
  exact .pure ⟨hc'.further hf, hf.begun hbegun'⟩

theorem ordinary_of_headerFault {f : Fault} (h : headerFault f = true) : Ordinary f := by
  refine ⟨?_, ?_⟩ <;> rintro rfl <;> cases h

/-- Lines of the header or the trailer: the login state they leave is told. -/
theorem appendHeaderData_owns (hc : ConnReads K g₀ h₀ conn own h) :
    TurnOwns cfg g₀ h₀ own (appendHeaderData cfg conn) (fun r o t =>
      ConnReads K g₀ h₀ r.1 o t ∧ r.1.rrs = conn.rrs ∧
        (toldSince g₀ h₀ t).login = r.1.hdr.loginState) h := by
  have hfaults : Sound Ordinary
      (fun r => reqhdrAppendData cfg conn.hdr conn.unread = .ok r)
      (reqhdrAppendData cfg conn.hdr conn.unread) :=
    ((reqhdrAppendData_faults conn.hdr conn.unread).also fun a ha => ha).mono
      (fun f hf => ordinary_of_headerFault hf) fun _ h => h
  refine (turn_lift hfaults).seq ?_
  rintro ⟨header, offset⟩ own t ⟨rfl, rfl, hok⟩
  refine turn_note ⟨hc.since, rfl⟩ (fun he => by cases he) fun u hu => ?_
  have hlogin : (toldSince g₀ h₀ u).login = header.loginState := by
    rw [hu.told]
    rfl
  have hearly : (toldSince g₀ h₀ u).early = (toldSince g₀ h₀ t).early := by
    rw [hu.told]
    rfl
  have hread : ConnReads K g₀ h₀ { conn with header := some header } own u := by
    refine ⟨⟨⟨fun hdlr he => ?_, hc.unread⟩, hu.since, hc.owned, fun _ _ => hlogin⟩, fun he => ?_⟩
    · exact K.appended hok (hc.allowed hdlr he)
    · rw [hearly]
      exact hc.attended he
  have hkept : ∀ rest : Bytes, ConnReads K g₀ h₀
        (({ conn with header := some header } : ServerConnection H).keep rest) own u ∧
      (({ conn with header := some header } : ServerConnection H).keep rest).rrs = conn.rrs ∧
      (toldSince g₀ h₀ u).login =
        (({ conn with header := some header } : ServerConnection H).keep rest).hdr.loginState := by
    intro rest
    have hf := Further.keep { conn with header := some header } rest
    refine ⟨hread.further hf, ?_, ?_⟩
    · unfold ServerConnection.keep
      split <;> rfl
    · rw [ServerConnection.hdr, hf.header]
      exact hlogin
  cases offset with
  | none => exact .pure (hkept [])
  | some offset => exact .pure (hkept (conn.unread.drop offset))

/-- The head of a request. -/
theorem appendHead_owns (hc : ConnReads K g₀ h₀ conn own h) :
    TurnOwns cfg g₀ h₀ own (appendHead cfg ops conn) (ConnReads K g₀ h₀) h := by
  have hstart : ConnReads K g₀ h₀
      (if conn.rrs = .idle then { conn with header := some reqhdrNew, rrs := .readHead } else conn)
      own h := by
    split
    · rename_i hidle
      have hnone := hc.unread (.inl hidle)
      have hmissing : ∀ hdlr, conn.handler ≠ some hdlr := by
        intro hdlr he
        rw [hnone] at he
        cases he
      exact ⟨⟨⟨fun hdlr he => absurd he (hmissing hdlr), fun _ => hnone⟩, hc.since, hc.owned,
        fun hdlr he => absurd he (hmissing hdlr)⟩, fun _ => .inr (.inl rfl)⟩
    · exact hc
  unfold appendHead
  dsimp only
  generalize (if conn.rrs = .idle then { conn with header := some reqhdrNew, rrs := .readHead }
    else conn) = c at hstart
  refine .ite (fun hrrs => ?_) fun _ => .pure hstart
  refine (appendHeaderData_owns hstart).seq ?_
  rintro ⟨c', done⟩ o t ⟨hc', hrrs', hlogin⟩
  cases done with
  | false => exact .pure hc'
  | true => exact onFinishedHeader_owns hc'.toConnWorks (hc'.unread (.inr (hrrs'.trans hrrs))) hlogin

theorem appendBody_owns (fuel : Nat) (hc : ConnReads K g₀ h₀ conn own h)
    (dpr : DataProcessingResult) :
    TurnOwns cfg g₀ h₀ own (appendBody fuel ops conn dpr)
      (fun r o t => ConnReads K g₀ h₀ r.1 o t) h := by
  refine .ite (fun hbody => ?_) fun _ => .pure hc
  exact (appendBodyData_owns fuel hc hbody.1 dpr).mono fun _ _ _ hr => hr.1

theorem appendTrailer_owns (hc : ConnReads K g₀ h₀ conn own h) :
    TurnOwns cfg g₀ h₀ own (appendTrailer cfg conn) (ConnReads K g₀ h₀) h := by
  refine .ite (fun htrailer => ?_) fun _ => .pure hc
  refine (appendHeaderData_owns hc).seq ?_
  rintro ⟨c, done⟩ o t ⟨hc', hrrs, -⟩
  cases done with
  | false => exact .pure hc'
  | true =>
    have hbegun : Begun c := by
      rw [Begun, show c.rrs = .readTrailer from hrrs.trans htrailer.1]
      decide
    have hdone : Begun { c with rrs := .readFinished } :=
      ⟨(fun he => by cases he), fun he => by cases he⟩
    exact .pure (hc'.further ⟨rfl, rfl, rfl, .inr ⟨hbegun, hdone⟩⟩)

/-- What has been read goes to the request at hand, and the handler hears of its end. -/
theorem appendData_owns (fuel : Nat) (hc : ConnReads K g₀ h₀ conn own h)
    (dpr : DataProcessingResult) :
    TurnOwns cfg g₀ h₀ own (appendData fuel cfg ops conn dpr)
      (fun r o t => ConnReads K g₀ h₀ r.1 o t) h := by
  refine (appendHead_owns hc).seq fun c₁ o₁ t₁ h₁ => ?_
  refine (appendBody_owns fuel h₁ dpr).seq ?_
  rintro ⟨c₂, dpr⟩ o₂ t₂ h₂
  refine (appendTrailer_owns h₂).seq fun c o t hc => ?_
  refine .ite (fun hdone => ?_) fun _ => .pure hc
  have hbegun : Begun c := by
    rw [Begun, hdone.2]
    decide
  refine turn_note ⟨hc.since, rfl⟩ (fun he => by cases he) fun u hu => ?_
  have hcu : ConnReads K g₀ h₀ c o u := by
    have htold : toldSince g₀ h₀ u = toldSince g₀ h₀ t := hu.told
    refine ⟨⟨hc.toConnAllowed, hu.since, hc.owned, fun hdlr he => ?_⟩, ?_⟩
    · rw [htold]
      exact hc.login hdlr he
    · rw [htold]
      exact hc.attended
  refine turn_derefHandler hcu hbegun fun hdlr hhandler => ?_
  rw [hcu.owned_some hhandler]
  refine turn_part {c.socketFd} hcu.since (hcu.login hdlr hhandler)
    (K.requestReadCompleted c.hdr u (hcu.allowed hdlr hhandler)) ?_
  rintro hdlr' _ v ⟨rfl, hallowed⟩ hsince htold
  refine .pure (connReads_some rfl hallowed hbegun hsince ?_)
  rw [htold]
  exact hcu.login hdlr hhandler

end Connections

section Rounds

variable {K : HandlerContract cfg ops} {g₀ : Told} {h₀ h : History} {own : Multiset Fd}
  {conn : ServerConnection H} {dpr : DataProcessingResult}

/-- A connection between the steps of its turn: unless it closes, a request that is being read
has its handler. -/
structure ConnServed (K : HandlerContract cfg ops) (g₀ : Told) (h₀ : History)
    (conn : ServerConnection H) (dpr : DataProcessingResult) (own : Multiset Fd) (h : History) :
    Prop extends ConnWorks K g₀ h₀ conn own h where
  attended : dpr.closeConn = false → conn.rrs ≠ .readFinished →
    Attended (toldSince g₀ h₀ h) conn

theorem ConnReads.served (hc : ConnReads K g₀ h₀ conn own h) (dpr : DataProcessingResult) :
    ConnServed K g₀ h₀ conn dpr own h := ⟨hc.toConnWorks, fun _ _ => hc.attended⟩

theorem fillReadBuffer_owns (hc : ConnReads K g₀ h₀ conn own h) (dpr : DataProcessingResult)
    (isVeryIdle : Bool) :
    TurnOwns cfg g₀ h₀ own (fillReadBuffer conn dpr isVeryIdle)
      (fun r o t => ConnReads K g₀ h₀ r.1 o t) h := by
  refine .ite (fun _ => .pure hc) fun _ => ?_
  refine turn_call (c := .read conn.socketFd readBufferSize) ⟨hc.since, rfl⟩ ⟨rfl, trivial⟩ ?_ rfl
    (fun r => by cases r <;> rfl) fun r t ht => ?_
  · intro fd hm
    simp only [descriptorsUsed] at hm
    split at hm
    · exact absurd hm (Multiset.notMem_zero fd)
    · rw [Multiset.mem_singleton.mp hm, hc.owned]
      exact mem_connFds K.fds conn
  · have hct : ConnReads K g₀ h₀ conn own t := by
      refine ⟨⟨hc.toConnAllowed, ht.since, hc.owned, fun hdlr he => ?_⟩, ?_⟩
      · rw [ht.told]
        exact hc.login hdlr he
      · rw [ht.told]
        exact hc.attended
    rcases r with (_ | ⟨b, data⟩) | e
    · exact .pure hct
    · exact .pure (hct.further ⟨rfl, rfl, rfl, .inl rfl⟩)
    · exact .ite (fun _ => .pure hct) fun _ => .pure hct

theorem readRound_owns (fuel : Nat) (isVeryIdle : Bool) (hc : ConnServed K g₀ h₀ conn dpr own h) :
    TurnOwns cfg g₀ h₀ own (readRound fuel cfg ops (conn, dpr, isVeryIdle)) (fun r o t => AfterRound
      (fun x u => ConnServed K g₀ h₀ x.1 x.2.1 o u) (fun x u => ConnServed K g₀ h₀ x.1 x.2.1 o u)
      r t) h := by
  refine .ite (fun hgo => ?_) fun _ => .pure hc
  have hreads : ConnReads K g₀ h₀ conn own h := ⟨hc.toConnWorks, hc.attended hgo.1 hgo.2.2⟩
  refine (fillReadBuffer_owns hreads dpr isVeryIdle).seq ?_
  rintro ⟨c, d, v⟩ o t hfilled
  refine .ite (fun _ => ?_) fun _ => .pure (hfilled.served d)
  refine (appendData_owns fuel hfilled d).seq ?_
  rintro ⟨c', d'⟩ o' u hread
  exact .pure (hread.served d')

/-- A response that has ended takes its handler with it, and with it all that the handler owns. -/
theorem progressStep_owns (hc : ConnServed K g₀ h₀ conn dpr own h) :
    TurnOwns cfg g₀ h₀ own (progressStep ops conn dpr)
      (fun r o t => ConnServed K g₀ h₀ r.1 r.2 o t) h := by
  refine .ite (fun _ => .pure hc) fun _ => ?_
  cases hhandler : conn.handler with
  | none => exact .pure hc
  | some hdlr =>
    have hlogin := hc.login hdlr hhandler
    have hbegun := hc.begun hhandler
    have hworks := K.progressResponse conn.socketFd dpr h (hc.allowed hdlr hhandler)
    rw [← hc.owned_some hhandler, ← hlogin] at hworks
    refine (turn_works ⟨hc.since, rfl⟩ hworks).seq ?_
    rintro ⟨hdlr', d, done⟩ _ t ⟨⟨rfl, hallowed⟩, ht⟩
    rw [hlogin] at hallowed
    have hlogint : (toldSince g₀ h₀ t).login = conn.hdr.loginState := by
      rw [ht.told]
      exact hlogin
    cases done with
    | false =>
      have hkept : ConnReads K g₀ h₀ { conn with handler := some hdlr' } _ t :=
        connReads_some rfl hallowed hbegun ht.since hlogint
      exact .pure (hkept.served d)
    | true =>
      refine turn_part {conn.socketFd} ht.since hlogint (K.free t hallowed) ?_
      rintro _ _ u rfl hsince htold
      refine turn_note ⟨hsince, rfl⟩ (fun he => by cases he) fun v hv => .pure ?_
      refine ⟨⟨⟨fun hdlr he => (by cases he), fun _ => rfl⟩, hv.since, rfl,
        fun hdlr he => by cases he⟩, fun hopen hreading => fun _ => .inr (.inr ?_)⟩
      rw [hv.told, show d.closeConn = false from hopen, bne_iff_ne.mpr hreading]
      rfl

/-- A turn ends when the connection closes, its request is being read or its response is under
way; unless it closes, it waits. -/
structure TurnOver (K : HandlerContract cfg ops) (g₀ : Told) (h₀ : History)
    (conn : ServerConnection H) (dpr : DataProcessingResult) (own : Multiset Fd) (h : History) :
    Prop extends ConnServed K g₀ h₀ conn dpr own h where
  answering : dpr.closeConn = false → conn.rrs = .readFinished → conn.handler ≠ none
  waits : dpr.closeConn = false → StepEnds K.toHandlerView h₀ conn dpr h

/-- A request that has its answer sent has left nothing to wait for. -/
theorem StepEnds.ready {view : HandlerView H} (he : StepEnds view h₀ conn dpr h)
    (hfin : conn.rrs = .readFinished) (hnone : conn.handler = none) :
    dpr.reqState = .ready ∧ dpr.respState = .ready := by
  constructor
  · rcases he.request with hready | hreading
    · exact hready.1
    · exact absurd hfin hreading.1
  · rcases he.response with hready | ⟨hdlr, fd, hhandler, -⟩
    · exact hready.1
    · rw [hnone] at hhandler
      cases hhandler

theorem readLoop_owns (fuel n : Nat) (isVeryIdle : Bool) (hc : ConnServed K g₀ h₀ conn dpr own h)
    (hw : ReadWaits K.toHandlerView h₀ conn dpr h) :
    TurnOwns cfg g₀ h₀ own
      (Program.iterate .outOfFuel (readRound fuel cfg ops) n (conn, dpr, isVeryIdle))
      (fun x o t => ConnServed K g₀ h₀ x.1 x.2.1 o t ∧
        h₀ <:+ t ∧ ReadEnds K.toHandlerView h₀ x.1 x.2.1 t) h := by
  refine Ledger.Owns.also ?_ (readLoop_leaves K.waits fuel n isVeryIdle hw hc.since)
  refine Ledger.Owns.iterate (I := fun x o t => ConnServed K g₀ h₀ x.1 x.2.1 o t)
    turn_outOfFuel ?_ n hc
  rintro ⟨c, d, v⟩ o t hx
  exact readRound_owns fuel v hx

theorem connRound_owns (fuel : Nat) (isVeryIdle : Bool) (hc : ConnServed K g₀ h₀ conn dpr own h)
    (hw : ReadWaits K.toHandlerView h₀ conn dpr h) :
    TurnOwns cfg g₀ h₀ own (connRound fuel cfg ops (conn, dpr, isVeryIdle)) (fun r o t => AfterRound
      (fun x u => ConnServed K g₀ h₀ x.1 x.2.1 o u ∧ ReadWaits K.toHandlerView h₀ x.1 x.2.1 u)
      (fun x u => TurnOver K g₀ h₀ x.1 x.2.1 o u) r t) h := by
  refine (readLoop_owns fuel fuel isVeryIdle hc hw).seq ?_
  rintro ⟨c, d, v⟩ o t ⟨hx, ht, hends⟩
  refine ((progressStep_owns hx).also (progressStep_leaves K.waits hends ht)).seq ?_
  rintro ⟨c', d'⟩ o' u ⟨hx', -, hstep⟩
  dsimp only at hx' hstep ⊢
  refine .ite (fun hend => .pure ⟨hx', fun hopen hfin hnone => ?_, hstep⟩) fun hgo => ?_
  · rw [hopen, hfin, hnone] at hend
    cases hend
  simp only [Bool.or_eq_true, not_or, bne_iff_ne, ne_eq, not_not, Bool.not_eq_true,
    Option.isSome_eq_false_iff, Option.isNone_iff_eq_none] at hgo
  obtain ⟨⟨hopen, hfin⟩, hnone⟩ := hgo
  obtain ⟨hreq, hresp⟩ := (hstep hopen).ready hfin hnone
  refine .ite (fun hne => absurd ⟨hreq, hresp⟩ (not_and_or.mpr hne)) fun _ => .ite
    (fun _ => .pure ?_) fun _ => .pure ?_
  · exact ⟨⟨hx'.toConnWorks, fun hopen => by cases hopen⟩, fun hopen => (by cases hopen),
      fun hopen => by cases hopen⟩
  · have hmissing : ∀ hdlr, c'.handler ≠ some hdlr := by
      intro hdlr he
      rw [hnone] at he
      cases he
    exact ⟨⟨⟨⟨fun hdlr he => absurd he (hmissing hdlr), fun _ => hnone⟩, hx'.since, hx'.owned,
      fun hdlr he => absurd he (hmissing hdlr)⟩, fun _ _ _ => .inl rfl⟩,
      hresp, fun he => (by cases he), .inl hreq⟩

/-- The descriptors that wait for a state. -/
def awaited (drs : DataReadySelector) : DataProcessingResultState → List Fd
  | .ready => []
  | .awaitRead => drs.readFds
  | .awaitWrite => drs.writeFds

/-- Descriptors are only added. -/
def Grows (drs drs' : DataReadySelector) : Prop := ∀ state, awaited drs state ⊆ awaited drs' state

theorem Grows.refl (drs : DataReadySelector) : Grows drs drs := fun _ => List.Subset.refl _

theorem Grows.trans {drs drs' drs'' : DataReadySelector} (h : Grows drs drs')
    (h' : Grows drs' drs'') : Grows drs drs'' := fun state => List.Subset.trans (h state) (h' state)

/-- The descriptor that a side of the connection waits for is added. -/
theorem drsAwait_adds (drs : DataReadySelector) (state : DataProcessingResultState)
    (fd : Option Fd) : Sound Ordinary (fun drs' => Grows drs drs' ∧
      (state ≠ .ready → ∀ fd', fd = some fd' → fd' ∈ awaited drs' state)) (drsAwait drs state fd) := by
  have hset : Ordinary (.indexOutOfRange .fdSet) := by decide
  cases state with
  | ready => exact ⟨Grows.refl drs, fun hne => absurd rfl hne⟩
  | awaitRead =>
    cases fd with
    | none => exact hset
    | some fd =>
      refine ⟨fun state => ?_, fun _ fd' he => Option.some.inj he ▸ List.mem_cons_self⟩
      cases state with
      | awaitRead => exact List.subset_cons_self _ _
      | _ => exact List.Subset.refl _
  | awaitWrite =>
    cases fd with
    | none => exact hset
    | some fd =>
      refine ⟨fun state => ?_, fun _ fd' he => Option.some.inj he ▸ List.mem_cons_self⟩
      cases state with
      | awaitWrite => exact List.subset_cons_self _ _
      | _ => exact List.Subset.refl _

/-- A descriptor that has blocked waits with the others. -/
def Waiting (h₀ : History) (drs : DataReadySelector) (state : DataProcessingResultState) (fd : Fd)
    (h : History) : Prop := Blocked h₀ state fd h ∧ fd ∈ awaited drs state

/-- What a connection waits for between two turns. While its request is read it is the request
that waits, and then the response. -/
structure Awaits (view : HandlerView H) (h₀ : History) (conn : ServerConnection H)
    (drs : DataReadySelector) (h : History) : Prop where
  request : conn.rrs ≠ .readFinished → ∃ state fd, Waiting h₀ drs state fd h ∧
    (fd ∈ connFds view.fds conn ∨ conn.rrs = .readBody ∧ conn.handler = none)
  response : conn.rrs = .readFinished → ∃ state fd, Waiting h₀ drs state fd h ∧
    fd ∈ connFds view.fds conn

/-- The handler is missing although the header of the request has been read. -/
def orphaned (conn : ServerConnection H) : Bool :=
  conn.handler.isNone && conn.rrs != .idle && conn.rrs != .readHead

/-- A connection between two turns: a request that has been read has its answer, or will have
it. -/
structure ConnOpen (K : HandlerContract cfg ops) (conn : ServerConnection H) : Prop
    extends ConnAllowed K conn where
  answers : conn.rrs = .readFinished → ∀ hdlr, conn.handler = some hdlr → K.Answers hdlr

/-- What a turn leaves: a connection that stays open has lost its handler only to a response that
has ended early, and it waits. -/
structure TurnLeft (K : HandlerContract cfg ops) (g₀ : Told) (h₀ : History) (turn : ConnTurn H)
    (own : Multiset Fd) (h : History) : Prop extends ConnWorks K g₀ h₀ turn.conn own h where
  answers : turn.result ≠ .toClose → turn.conn.rrs = .readFinished →
    ∀ hdlr, turn.conn.handler = some hdlr → K.Answers hdlr
  lost : turn.result ≠ .toClose → orphaned turn.conn = true → (toldSince g₀ h₀ h).early = true
  waits : turn.result ≠ .toClose → Awaits K.toHandlerView h₀ turn.conn turn.drs h

theorem TurnOver.lost (hc : TurnOver K g₀ h₀ conn dpr own h) (hopen : dpr.closeConn = false)
    (horphan : orphaned conn = true) : (toldSince g₀ h₀ h).early = true := by
  simp only [orphaned, Bool.and_eq_true, Option.isNone_iff_eq_none, bne_iff_ne] at horphan
  obtain ⟨⟨hnone, hidle⟩, hhead⟩ := horphan
  have hreading : conn.rrs ≠ .readFinished := fun hfin => hc.answering hopen hfin hnone
  rcases hc.attended hopen hreading hnone with hi | hi | hearly
  · exact absurd hi hidle
  · exact absurd hi hhead
  · exact hearly

theorem TurnOver.awaits (hc : TurnOver K g₀ h₀ conn dpr own h) (hopen : dpr.closeConn = false)
    {drs : DataReadySelector}
    (hreq : dpr.reqState ≠ .ready → ∀ fd, dpr.reqAwaitFd = some fd → fd ∈ awaited drs dpr.reqState)
    (hresp : dpr.respState ≠ .ready → ∀ fd, dpr.respAwaitFd = some fd →
      fd ∈ awaited drs dpr.respState) : Awaits K.toHandlerView h₀ conn drs h where
  request hreading := by
    rcases (hc.waits hopen).request with hready | ⟨-, fd, hstate, hfd, hb, hown⟩
    · exact absurd hready.2 hreading
    · exact ⟨_, fd, ⟨hb, hreq hstate fd hfd⟩, hown⟩
  response hfin := by
    rcases (hc.waits hopen).response with hready | ⟨hdlr, fd, -, hstate, hfd, hb, hown⟩
    · exact absurd (hready.2 hfin) (hc.answering hopen hfin)
    · exact ⟨_, fd, ⟨hb, hresp hstate fd hfd⟩, hown⟩

theorem finishTurn_owns (hc : TurnOver K g₀ h₀ conn dpr own h) (drs : DataReadySelector)
    (closeIfIdle isVeryIdle : Bool) :
    Sound Ordinary (fun turn => TurnLeft K g₀ h₀ turn own h ∧ Grows drs turn.drs)
      (finishTurn conn dpr drs closeIfIdle isVeryIdle) := by
  unfold finishTurn
  dsimp only
  generalize hd : (if (! dpr.closeConn && closeIfIdle && conn.rrs == .idle) = true then
    dprSetCloseConn dpr else dpr) = dpr'
  by_cases hclose : dpr'.closeConn = true
  · rw [if_pos hclose]
    refine ⟨⟨hc.toConnWorks, ?_, ?_, ?_⟩, Grows.refl drs⟩
    all_goals exact fun hne => absurd rfl hne
  · rw [if_neg hclose]
    have hsame : dpr' = dpr := by
      subst hd
      split
      · rename_i hc
        exact absurd (by rw [if_pos hc]; rfl) hclose
      · rfl
    have hopen : dpr.closeConn = false := by
      rw [hsame] at hclose
      simpa using hclose
    rw [hsame]
    refine (drsAwait_adds _ _ _).bind fun drs₁ ⟨hgrows, hreq⟩ =>
      (drsAwait_adds _ _ _).bind fun drs₂ ⟨hgrows', hresp⟩ => ?_
    refine ⟨⟨hc.toConnWorks, fun _ => (hc.waits hopen).answers, fun _ => hc.lost hopen, fun _ => ?_⟩,
      hgrows.trans hgrows'⟩
    exact hc.awaits hopen (fun hne fd hfd => hgrows' _ (hreq hne fd hfd)) hresp

/-- What is told where a turn begins: the login state of the request, and whether its handler is
missing already. -/
def toldBy (conn : ServerConnection H) : Told := ⟨conn.hdr.loginState, orphaned conn⟩

theorem ConnAllowed.served (hc : ConnAllowed K conn) (h : History) (dpr : DataProcessingResult) :
    ConnServed K (toldBy conn) h conn dpr (connFds K.fds conn) h := by
  refine ⟨⟨hc, List.suffix_rfl, rfl, fun _ _ => ?_⟩, fun _ _ hnone => ?_⟩
  · rw [toldSince_self]
    rfl
  · rw [toldSince_self]
    by_cases hidle : conn.rrs = .idle
    · exact .inl hidle
    by_cases hhead : conn.rrs = .readHead
    · exact .inr (.inl hhead)
    · refine .inr (.inr ?_)
      simp [toldBy, orphaned, hnone, hidle, hhead]

/-- A turn of a connection. -/
theorem connProcessDataReady_owns (fuel : Nat) (hc : ConnOpen K conn) (drs : DataReadySelector)
    (closeIfIdle : Bool) (h : History) :
    TurnOwns cfg (toldBy conn) h (connFds K.fds conn)
      (connProcessDataReady fuel cfg ops conn drs closeIfIdle)
      (fun turn o t => TurnLeft K (toldBy conn) h turn o t ∧ Grows drs turn.drs) h := by
  have hrounds : TurnOwns cfg (toldBy conn) h (connFds K.fds conn)
      (Program.iterate .outOfFuel (connRound fuel cfg ops) fuel
        (conn, dprInit, conn.rrs == .idle))
      (fun x o t => TurnOver K (toldBy conn) h x.1 x.2.1 o t) h := by
    refine Ledger.Owns.iterate (I := fun x o t => ConnServed K (toldBy conn) h x.1 x.2.1 o t ∧
      ReadWaits K.toHandlerView h x.1 x.2.1 t) turn_outOfFuel ?_ fuel
      ⟨hc.served h dprInit, rfl, hc.answers, .inl rfl⟩
    rintro ⟨c, d, v⟩ o t ⟨hx, hw⟩
    exact connRound_owns fuel v hx hw
  refine hrounds.seq ?_
  rintro ⟨c, d, v⟩ o t hover
  refine (turn_lift (finishTurn_owns hover drs closeIfIdle v)).mono ?_
  rintro turn _ _ ⟨rfl, rfl, hleft⟩
  exact hleft

/-- A connection that is freed closes its socket and all that its handler owns. -/
theorem connFree_works {st : LoginState}
    (hallowed : ∀ hdlr, conn.handler = some hdlr → K.Allowed st hdlr) :
    Works cfg st (connFds K.fds conn) (connFree ops conn) (fun _ o _ => o = 0) h := by
  refine works_close (add_comm _ _) fun t => ?_
  cases hhandler : conn.handler with
  | none => exact .pure rfl
  | some hdlr => exact K.free t (hallowed hdlr hhandler)

/-- A turn of a connection as the main loop gives it: what is to close is freed behind it. -/
def serveTurn (fuel : Nat) (cfg : Config) (ops : HandlerOps H) (conn : ServerConnection H)
    (drs : DataReadySelector) (closeIfIdle : Bool) : Prog (ConnTurn H) := do
  let turn ← connProcessDataReady fuel cfg ops conn drs closeIfIdle
  let () ← (if turn.result = .toClose then connFree ops turn.conn else return ())
  return turn

/-- What is left of a connection behind its turn. -/
def leftOpen (turn : ConnTurn H) : Multiset (ServerConnection H) :=
  if turn.result = .toClose then 0 else {turn.conn}

/-- A connection that its turn has left open. -/
structure LeftOpen (K : HandlerContract cfg ops) (g₀ : Told) (h₀ : History) (turn : ConnTurn H)
    (h : History) : Prop extends ConnOpen K turn.conn where
  lost : orphaned turn.conn = true → (toldSince g₀ h₀ h).early = true
  waits : Awaits K.toHandlerView h₀ turn.conn turn.drs h

theorem serveTurn_owns (fuel : Nat) (hc : ConnOpen K conn) (drs : DataReadySelector)
    (closeIfIdle : Bool) (h : History) :
    TurnOwns cfg (toldBy conn) h (connFds K.fds conn) (serveTurn fuel cfg ops conn drs closeIfIdle)
      (fun turn o t => o = ((leftOpen turn).map (connFds K.fds)).sum ∧ Grows drs turn.drs ∧
        (turn.result ≠ .toClose → LeftOpen K (toldBy conn) h turn t)) h := by
  refine (connProcessDataReady_owns fuel hc drs closeIfIdle h).seq ?_
  rintro turn o t ⟨hleft, hgrows⟩
  by_cases hclose : turn.result = .toClose
  · have hallowed : ∀ hdlr, turn.conn.handler = some hdlr →
        K.Allowed (toldSince (toldBy conn) h t).login hdlr := by
      intro hdlr hhandler
      rw [hleft.login hdlr hhandler]
      exact hleft.allowed hdlr hhandler
    rw [if_pos hclose, hleft.owned]
    refine (turn_works ⟨hleft.since, rfl⟩ (connFree_works hallowed)).seq ?_
    rintro _ _ u ⟨rfl, -⟩
    refine .pure ⟨?_, hgrows, fun hopen => absurd hclose hopen⟩
    rw [leftOpen, if_pos hclose]
    rfl
  · rw [if_neg hclose]
    refine .pure ⟨?_, hgrows, fun _ => ?_⟩
    · rw [leftOpen, if_neg hclose, Multiset.map_singleton, Multiset.sum_singleton]
      exact hleft.owned
    · exact ⟨⟨hleft.toConnAllowed, hleft.answers hclose⟩, hleft.lost hclose, hleft.waits hclose⟩

end Rounds

end FilemanagerHttpd.Audit
