import FilemanagerHttpd.Audit.Waits

/-!
# What a connection waits for

The request side and the response side of a connection stop apart. The request waits for the
socket, or for the input of the handler; the response for the socket, or for what the handler
reads. A descriptor that has to be waited for is still the connection's, unless the response has
ended while the body was read and has taken the handler with it.
-/

namespace FilemanagerHttpd.Audit

open Library Server

/-- The socket, and what the handler owns. -/
def connFds {H : Type} (fds : H → Multiset Fd) (conn : ServerConnection H) : Multiset Fd :=
  fdsIf fds conn.handler + {conn.socketFd}

theorem mem_connFds {H : Type} (fds : H → Multiset Fd) (conn : ServerConnection H) :
    conn.socketFd ∈ connFds fds conn :=
  Multiset.mem_add.mpr (.inr (Multiset.mem_singleton_self _))

variable {H : Type} {view : HandlerView H} {ops : HandlerOps H} {cfg : Config}
  {h₀ h h' : History} {conn conn' : ServerConnection H} {dpr dpr' : DataProcessingResult}

/-- The request waits for the socket or the input of its handler. -/
def RequestWaits (view : HandlerView H) (h₀ : History) (conn : ServerConnection H)
    (dpr : DataProcessingResult) (h : History) : Prop :=
  ∃ fd, dpr.reqState ≠ .ready ∧ dpr.reqAwaitFd = some fd ∧ Blocked h₀ dpr.reqState fd h ∧
    (fd = conn.socketFd ∨
      conn.rrs = .readBody ∧ ∃ hdlr, conn.handler = some hdlr ∧ fd ∈ view.inputs hdlr)

theorem RequestWaits.later (hw : RequestWaits view h₀ conn dpr h) (hs : h <:+ h') :
    RequestWaits view h₀ conn dpr h' := by
  obtain ⟨fd, hstate, hfd, hb, hown⟩ := hw
  exact ⟨fd, hstate, hfd, hb.later hs, hown⟩

theorem RequestWaits.same (hw : RequestWaits view h₀ conn dpr h)
    (hrrs : conn'.rrs = conn.rrs) (hsocket : conn'.socketFd = conn.socketFd)
    (hhandler : conn'.handler = conn.handler) : RequestWaits view h₀ conn' dpr h := by
  unfold RequestWaits
  rw [hrrs, hsocket, hhandler]
  exact hw

/-- A connection that reads: its response does not wait yet. -/
structure ReadWaits (view : HandlerView H) (h₀ : History) (conn : ServerConnection H)
    (dpr : DataProcessingResult) (h : History) : Prop where
  response : dpr.respState = .ready
  answers : conn.rrs = .readFinished → ∀ hdlr, conn.handler = some hdlr → view.Answers hdlr
  request : dpr.reqState = .ready ∨ conn.rrs ≠ .readFinished ∧ RequestWaits view h₀ conn dpr h

theorem keep_same (conn : ServerConnection H) (rest : Bytes) :
    (conn.keep rest).rrs = conn.rrs ∧ (conn.keep rest).socketFd = conn.socketFd ∧
      (conn.keep rest).handler = conn.handler := by
  unfold ServerConnection.keep
  split
  · exact ⟨rfl, rfl, rfl⟩
  · exact ⟨rfl, rfl, rfl⟩

/-- What is read from the socket goes into the empty buffer; a socket that has nothing is waited
for. -/
theorem fillReadBuffer_leaves (view : HandlerView H) {conn : ServerConnection H} {dpr : DataProcessingResult}
    (hreading : conn.rrs ≠ .readFinished) (hready : dpr.reqState = .ready)
    (hresp : dpr.respState = .ready) (isVeryIdle : Bool) (hs : h₀ <:+ h) :
    Leaves h₀ (fillReadBuffer conn dpr isVeryIdle) (fun r t => ReadWaits view h₀ r.1 r.2.1 t ∧
      (r.1.readSize ≠ 0 → r.2.1 = dpr ∧ r.1.rrs = conn.rrs)) h := by
  have hkept : ∀ {c : ServerConnection H} {d : DataProcessingResult} {t : History},
      c.rrs = conn.rrs → d.reqState = .ready → d.respState = .ready → ReadWaits view h₀ c d t := by
    intro c d t hrrs hreq hres
    exact ⟨hres, fun hfin => absurd (hrrs ▸ hfin) hreading, .inl hreq⟩
  refine .ite (fun _ => .pure hs ⟨hkept rfl hready hresp, fun _ => ⟨rfl, rfl⟩⟩) fun hsize => ?_
  refine .call hs fun r hr => ?_
  rcases r with (_ | ⟨b, data⟩) | e
  · exact .pure hr ⟨hkept rfl hready hresp, fun hne => absurd hne hsize⟩
  · exact .pure hr ⟨hkept rfl hready hresp, fun _ => ⟨rfl, rfl⟩⟩
  · refine .ite (fun he => .pure hr ⟨?_, fun hne => absurd hne hsize⟩) fun _ =>
      .pure hr ⟨hkept rfl hready hresp, fun hne => absurd hne hsize⟩
    refine ⟨hresp, fun hfin => absurd hfin hreading, .inr ⟨hreading, conn.socketFd,
      (fun hc => by cases hc), rfl, .now hs ?_, .inl rfl⟩⟩
    simp [blocks, he, dprSetReqState]

/-- The reading of a request has come to its end, or the request waits. -/
def ReadEnds (view : HandlerView H) (h₀ : History) (conn : ServerConnection H)
    (dpr : DataProcessingResult) (h : History) : Prop :=
  ReadWaits view h₀ conn dpr h ∧
    (dpr.closeConn = false → dpr.reqState = .ready → conn.rrs = .readFinished)

/-- The descriptor of a request that waits. It is the connection's, unless the response has ended
while the body was read and has taken the handler with it. -/
def RequestStops (view : HandlerView H) (h₀ : History) (conn : ServerConnection H)
    (dpr : DataProcessingResult) (h : History) : Prop :=
  ∃ fd, dpr.reqState ≠ .ready ∧ dpr.reqAwaitFd = some fd ∧ Blocked h₀ dpr.reqState fd h ∧
    (fd ∈ connFds view.fds conn ∨ conn.rrs = .readBody ∧ conn.handler = none)

/-- The descriptor of a response that waits. -/
def ResponseStops (view : HandlerView H) (h₀ : History) (conn : ServerConnection H)
    (dpr : DataProcessingResult) (h : History) : Prop :=
  ∃ hdlr fd, conn.handler = some hdlr ∧ dpr.respState ≠ .ready ∧ dpr.respAwaitFd = some fd ∧
    Blocked h₀ dpr.respState fd h ∧ fd ∈ connFds view.fds conn

/-- A connection that has read and sent as far as it goes, unless it closes. -/
structure StepEnds (view : HandlerView H) (h₀ : History) (conn : ServerConnection H)
    (dpr : DataProcessingResult) (h : History) : Prop where
  answers : conn.rrs = .readFinished → ∀ hdlr, conn.handler = some hdlr → view.Answers hdlr
  request : dpr.reqState = .ready ∧ conn.rrs = .readFinished ∨
    conn.rrs ≠ .readFinished ∧ RequestStops view h₀ conn dpr h
  response : dpr.respState = .ready ∧ (conn.rrs = .readFinished → conn.handler = none) ∨
    ResponseStops view h₀ conn dpr h

/-- A request that waits keeps to the descriptors of its connection. -/
theorem RequestWaits.stops (hw : RequestWaits view h₀ conn dpr h)
    (hsocket : conn'.socketFd = conn.socketFd) (hreq : dpr'.reqState = dpr.reqState)
    (hfd : dpr'.reqAwaitFd = dpr.reqAwaitFd) (hs : h <:+ h')
    (hinput : ∀ hdlr fd, conn.rrs = .readBody → conn.handler = some hdlr → fd ∈ view.inputs hdlr →
      fd ∈ connFds view.fds conn' ∨ conn'.rrs = .readBody ∧ conn'.handler = none) :
    RequestStops view h₀ conn' dpr' h' := by
  obtain ⟨fd, hstate, hawait, hb, hown⟩ := hw
  refine ⟨fd, hreq ▸ hstate, hfd.trans hawait, hreq ▸ hb.later hs, ?_⟩
  rcases hown with rfl | ⟨hbody, hdlr, hhandler, hm⟩
  · rw [← hsocket]
    exact .inl (mem_connFds view.fds conn')
  · exact hinput hdlr fd hbody hhandler hm

section Steps

variable (W : WaitContract view ops)
include W

/-- The handler takes the bytes, or it waits and the body is not read any further. -/
theorem offerBody_leaves {conn : ServerConnection H} (hbody : conn.rrs = .readBody)
    (dpr : DataProcessingResult) (data : Bytes) (hs : h₀ <:+ h) :
    Leaves h₀ (offerBody ops conn dpr data) (fun r t => r.2.1 = dpr ∨
      r.2.2.2 = false ∧ r.1.rrs = .readBody ∧ r.2.1.respState = dpr.respState ∧
        RequestWaits view h₀ r.1 r.2.1 t) h := by
  refine .ite (fun _ => ?_) fun _ => .pure hs (.inl rfl)
  refine (Leaves.any _ hs).seq fun hdlr t ht _ => ?_
  refine (W.processData hdlr _ dpr ht).seq ?_
  rintro ⟨hdlr', d, processed⟩ u hu htaken
  refine .call hu fun _ hv => .pure hv ?_
  rcases htaken with hd | ⟨fd, hm, hd, hb, hlt⟩
  · exact .inl hd
  · dsimp only at hd hlt
    rw [hd]
    refine .inr ⟨?_, hbody, rfl, fd, (fun hc => by cases hc), rfl, hb.later (List.suffix_cons _ u),
      .inr ⟨hbody, hdlr', rfl, hm⟩⟩
    have htake := hlt.trans_le (List.length_take_le _ _)
    exact decide_eq_false (not_le.mpr htake)

/-- The body is read on, or it waits for the handler. -/
def BodyWaits (view : HandlerView H) (h₀ : History) (dpr : DataProcessingResult)
    (r : ServerConnection H × DataProcessingResult) (h : History) : Prop :=
  r.2 = dpr ∨ r.1.rrs = .readBody ∧ r.2.respState = dpr.respState ∧
    RequestWaits view h₀ r.1 r.2 h

theorem appendBodyData_leaves (fuel : Nat) (conn : ServerConnection H)
    (dpr : DataProcessingResult) (hs : h₀ <:+ h) :
    Leaves h₀ (appendBodyData fuel ops conn dpr) (BodyWaits view h₀ dpr) h := by
  refine Leaves.iterate (I := fun x _ => x.2.1 = dpr) ?_ fuel hs rfl
  rintro ⟨c, _, data⟩ t ht rfl
  refine .ite (fun _ => .pure ht (.inl rfl)) fun hgo => ?_
  have hbody : c.rrs = .readBody := by
    by_contra hne
    exact hgo (.inl hne)
  refine (offerBody_leaves W hbody _ data ht).seq ?_
  rintro ⟨c', d, rest, goOn⟩ u hu hoffered
  rcases hoffered with hd | ⟨hstop, hrrs, hresp, hwaits⟩
  · dsimp only at hd
    refine .ite (fun _ => .pure hu (.inl hd)) fun _ => ?_
    exact (Leaves.any _ hu).seq fun r v hv _ => .pure hv hd
  · dsimp only at hstop hrrs hresp hwaits ⊢
    rw [hstop]
    obtain ⟨hkept, hsocket, hhandler⟩ := keep_same c' rest
    exact .pure hu (.inr ⟨hkept.trans hrrs, hresp, hwaits.same hkept hsocket hhandler⟩)

/-- What has been read goes to the request: when it is complete, the handler has an answer. -/
theorem appendData_leaves (fuel : Nat) {conn : ServerConnection H} {dpr : DataProcessingResult}
    (hreading : conn.rrs ≠ .readFinished) (hready : dpr.reqState = .ready)
    (hresp : dpr.respState = .ready) (hs : h₀ <:+ h) :
    Leaves h₀ (appendData fuel cfg ops conn dpr) (fun r t => ReadWaits view h₀ r.1 r.2 t) h := by
  have hbody : ∀ c : ServerConnection H, ∀ t, h₀ <:+ t →
      Leaves h₀ (appendBody fuel ops c dpr) (BodyWaits view h₀ dpr) t := by
    intro c t ht
    exact .ite (fun _ => appendBodyData_leaves W fuel c dpr ht) fun _ => .pure ht (.inl rfl)
  refine (Leaves.any (appendHead cfg ops conn) hs).seq fun c t ht _ => ?_
  refine (hbody c t ht).seq ?_
  rintro ⟨c', d⟩ u hu hwaits
  rcases hwaits with hd | ⟨hrrs, hsame, hwaits⟩
  -- the body is not stopped
  · dsimp only at hd ⊢
    rw [hd]
    refine (Leaves.any (appendTrailer cfg c') hu).seq fun c'' v hv _ => ?_
    refine .ite (fun _ => ?_) fun hopen => ?_
    · refine .call hv fun _ hw => (Leaves.any _ hw).seq fun hdlr x hx _ => ?_
      refine (Leaves.of_yields (W.requestReadCompleted hdlr c''.hdr) hx).seq ?_
      intro hdlr' y hy hanswers
      refine .pure hy ⟨hresp, fun _ hdlr'' he => ?_, .inl hready⟩
      rw [← Option.some.inj he]
      exact hanswers
    · refine .pure hv ⟨hresp, fun hfin => ?_, .inl hready⟩
      exact absurd ⟨hreading, hfin⟩ hopen
  -- the handler has stopped it
  · dsimp only at hrrs hsame hwaits ⊢
    have htrailer : appendTrailer cfg c' = pure c' := by
      unfold appendTrailer
      rw [if_neg]
      rintro ⟨hc, -⟩
      rw [hrrs] at hc
      cases hc
    have hne : c'.rrs ≠ .readFinished := by
      rw [hrrs]
      decide
    rw [htrailer]
    refine .ite (fun hfin => absurd hfin.2 hne) fun _ => .pure hu ?_
    exact ⟨hsame.trans hresp, fun hfin => absurd hfin hne, .inr ⟨hne, hwaits⟩⟩

theorem readRound_leaves (fuel : Nat) {conn : ServerConnection H} {dpr : DataProcessingResult}
    (isVeryIdle : Bool) (hw : ReadWaits view h₀ conn dpr h) (hs : h₀ <:+ h) :
    Leaves h₀ (readRound fuel cfg ops (conn, dpr, isVeryIdle)) (AfterRound
      (fun x t => ReadWaits view h₀ x.1 x.2.1 t) (fun x t => ReadEnds view h₀ x.1 x.2.1 t)) h := by
  refine .ite (fun hgo => ?_) fun hend => .pure hs ⟨hw, fun hopen hready => ?_⟩
  · obtain ⟨-, hready, hreading⟩ := hgo
    refine (fillReadBuffer_leaves view hreading hready hw.response isVeryIdle hs).seq ?_
    rintro ⟨c, d, v⟩ t ht ⟨hfilled, hsame⟩
    refine .ite (fun hsize => ?_) fun _ => .pure ht hfilled
    obtain ⟨hd, hrrs⟩ := hsame hsize
    dsimp only at hd hrrs hfilled ⊢
    rw [hd]
    have hreading' : c.rrs ≠ .readFinished := hrrs ▸ hreading
    refine (appendData_leaves W fuel hreading' hready hw.response ht).seq ?_
    rintro ⟨c', d'⟩ u hu hread
    exact .pure hu hread
  · by_contra hreading
    exact hend ⟨hopen, hready, hreading⟩

theorem readLoop_leaves (fuel n : Nat) {conn : ServerConnection H} {dpr : DataProcessingResult}
    (isVeryIdle : Bool) (hw : ReadWaits view h₀ conn dpr h) (hs : h₀ <:+ h) :
    Leaves h₀ (Program.iterate .outOfFuel (readRound fuel cfg ops) n (conn, dpr, isVeryIdle))
      (fun x t => ReadEnds view h₀ x.1 x.2.1 t) h := by
  refine Leaves.iterate (I := fun x t => ReadWaits view h₀ x.1 x.2.1 t) ?_ n hs hw
  rintro ⟨c, d, v⟩ t ht hx
  exact readRound_leaves W fuel v hx ht

/-- The response goes as far as it can. -/
theorem progressStep_leaves (hr : ReadEnds view h₀ conn dpr h) (hs : h₀ <:+ h) :
    Leaves h₀ (progressStep ops conn dpr)
      (fun r t => r.2.closeConn = false → StepEnds view h₀ r.1 r.2 t) h := by
  obtain ⟨hread, hend⟩ := hr
  refine .ite (fun hclose => .pure hs fun hopen => ?_) fun hopen => ?_
  · rw [hopen] at hclose
    cases hclose
  have hdone := hend (by simpa using hopen)
  have hrequest : ∀ {c : ServerConnection H} {d : DataProcessingResult} {t : History},
      c.rrs = conn.rrs → c.socketFd = conn.socketFd → d.reqState = dpr.reqState →
      d.reqAwaitFd = dpr.reqAwaitFd → h <:+ t →
      (∀ hdlr fd, conn.rrs = .readBody → conn.handler = some hdlr → fd ∈ view.inputs hdlr →
        fd ∈ connFds view.fds c ∨ c.rrs = .readBody ∧ c.handler = none) →
      d.reqState = .ready ∧ c.rrs = .readFinished ∨
        c.rrs ≠ .readFinished ∧ RequestStops view h₀ c d t := by
    intro c d t hrrs hsocket hstate hfd ht hinput
    rw [hrrs, hstate]
    rcases hread.request with hready | ⟨hreading, hwaits⟩
    · exact .inl ⟨hready, hdone hready⟩
    · exact .inr ⟨hreading, hwaits.stops hsocket hstate hfd ht hinput⟩
  cases hhandler : conn.handler with
  | none =>
    refine .pure hs fun _ => ⟨hread.answers, hrequest rfl rfl rfl rfl List.suffix_rfl ?_,
      .inl ⟨hread.response, fun _ => hhandler⟩⟩
    intro hdlr fd _ he
    rw [hhandler] at he
    cases he
  | some hdlr =>
    refine ((W.progressResponse hdlr conn.socketFd dpr hs).stays fun t ht => ht).seq ?_
    rintro ⟨hdlr', d, done⟩ t ht ⟨hresp, hafter⟩
    cases done with
    | false =>
      have hkept : ∀ {hdlr₀ fd}, conn.handler = some hdlr₀ → fd ∈ view.inputs hdlr₀ →
          fd ∈ connFds view.fds { conn with handler := some hdlr' } := by
        intro hdlr₀ fd he hm
        rw [hhandler] at he
        rw [← Option.some.inj he, ← hresp.inputs] at hm
        exact Multiset.mem_add.mpr (.inl (W.inputs_fds hm))
      have hanswers : conn.rrs = .readFinished → view.Answers hdlr :=
        fun hfin => hread.answers hfin hdlr hhandler
      have hkeeps : conn.rrs = .readFinished → ∀ hdlr₀, some hdlr' = some hdlr₀ →
          view.Answers hdlr₀ := by
        intro hfin hdlr₀ he
        rw [← Option.some.inj he]
        exact hresp.answers (hanswers hfin)
      refine .pure ht fun _ => ?_
      rcases hresp.waits rfl with ⟨state, fd, hm, hstate, hd, hb⟩ | ⟨hd, hnone⟩
      · dsimp only at hd
        rw [hd]
        refine ⟨hkeeps, hrequest rfl rfl rfl rfl hafter fun _ _ _ he hm => .inl (hkept he hm), ?_⟩
        exact .inr ⟨hdlr', fd, rfl, hstate, rfl, hb, hm⟩
      · dsimp only at hd
        rw [hd]
        refine ⟨hkeeps, hrequest rfl rfl rfl rfl hafter fun _ _ _ he hm => .inl (hkept he hm), ?_⟩
        exact .inl ⟨hread.response, fun hfin => absurd (hanswers hfin) hnone⟩
    | true =>
      refine (Leaves.any _ ht).stays (fun u hu => hafter.trans hu) |>.seq ?_
      rintro _ u hu ⟨-, hlong⟩
      refine .call hu fun _ hv => .pure hv fun hstays => ?_
      have hd : d = dpr := by
        rcases hresp.finished rfl with hd | hd
        · exact hd
        · dsimp only at hd hstays
          rw [hd] at hstays
          cases hstays
      rw [hd]
      refine ⟨fun _ _ he => (by cases he), hrequest rfl rfl rfl rfl
        (hlong.trans (List.suffix_cons _ u)) fun _ _ hbody _ _ => .inr ⟨hbody, rfl⟩,
        .inl ⟨hread.response, fun _ => rfl⟩⟩

end Steps

end FilemanagerHttpd.Audit
