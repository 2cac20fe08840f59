import FilemanagerHttpd.Audit.ReadingTurns

/-!
# Reading for the handlers of the server

What a handler does with the bytes of a body ends: a form goes to its parts, each write to a
file or to a CGI program takes a byte at least. The other functions of a handler are taken as
returning, or as stopping the run.
-/

namespace FilemanagerHttpd.Audit

open Library Server

variable {sock : Fd} {left fuel : Nat} {α : Type}

/-- The functions of a handler that are no part of the reading, with one name for whatever they
stop at; a used up bound is then one of the loops that read. -/
def settled {H : Type} (ops : HandlerOps H) : HandlerOps H where
  new header peer := (ops.new header peer).mapFault fun _ => .exited
  processData := ops.processData
  requestReadCompleted hdlr header :=
    (ops.requestReadCompleted hdlr header).mapFault fun _ => .exited
  progressResponse hdlr fd dpr := (ops.progressResponse hdlr fd dpr).mapFault fun _ => .exited
  free hdlr := (ops.free hdlr).mapFault fun _ => .exited

theorem ends_settled {Q : α → Prop} {p : Prog α} (hp : Yields Q p) :
    Ends sock (p.mapFault fun _ => .exited) (fun a _ => Q a) left := by
  refine (wp_mapFault _ p _ left).mpr ?_
  refine wp_mono (hp.wp (I := fun _ => True) (fun _ _ _ _ => trivial) (fun _ _ _ _ => ?_)
    (fun _ _ _ _ _ _ _ => trivial) trivial) fun _ _ ha => ha.1
  exact (by decide : Stop .exited)

section Forms

/-- A program without loops ends. -/
theorem ends_within {A : Sys → Prop} {Q : α → Prop} {p : Prog α}
    (hp : Within (S := sys) A Stop Q p) : Ends sock p (fun a _ => Q a) left :=
  wp_mono (hp.wp (I := fun _ => True) (fun _ _ _ _ => trivial) (fun _ _ hf _ => hf)
    (fun _ _ _ _ _ _ _ => trivial) trivial) fun _ _ ha => ha.1

theorem headerComplete_ends (cpart : ContentPart) :
    Ends sock (headerComplete cpart) (fun _ _ => True) left := by
  have hlift : ∀ {β : Type} {e : Except Fault β}, Sound Wraps Any e →
      FailsIn Stop (liftM e : Prog β) := fun he => .lift (stops he)
  refine ends_within (A := fun _ => True) (Q := Any) ?_
  unfold headerComplete
  dsimp only
  split
  · exact .pure trivial
  · exact .pure trivial
  · refine (hlift (dirWithSlash_wraps _)).bind fun dir _ => ?_
    refine (hlift (mbAppendStr_wraps dir _)).bind fun filePathName _ => ?_
    refine within_perform trivial fun r => ?_
    split
    · exact .pure trivial
    · refine within_perform trivial fun r => ?_
      split
      · exact .pure trivial
      · exact .pure trivial
    · exact .pure trivial

/-- Each write to the file takes a byte at least. -/
theorem storeBody_ends (cpart : ContentPart) {data : Bytes} (hfuel : data.length < fuel) :
    Ends sock (storeBody fuel cpart data) (fun _ _ => True) left := by
  unfold storeBody
  split
  · refine wp_iterate_measure (I := fun _ _ => True) (fun x => data.length - x.2) ?_ fuel trivial
      hfuel
    rintro ⟨cpart, offset⟩ t -
    show Ends sock _ _ t
    unfold writeFileRound
    dsimp only
    split
    · exact .pure trivial
    · refine .ite (fun hmore => .perform fun r u hr => ?_) fun _ => .pure trivial
      match r, hr with
      | .wrote wr, hr =>
        have hwr : 0 < wr := hr.1
        refine .pure ⟨trivial, ?_⟩
        show data.length - (offset + wr) < data.length - offset
        omega
      | .fail e, _ =>
        refine .perform fun _ v _ => ?_
        split
        · exact .fault (by decide)
        · exact .perform fun _ _ _ => .pure trivial
  · exact .seq (Ends.wraps (mbAppendData_wraps _ _)) fun _ _ _ _ => .pure trivial
  · exact .fault (by decide)

theorem cpartAppendData_ends (cpart : ContentPart) {data : Bytes} (hfuel : data.length < fuel) :
    Ends sock (cpartAppendData fuel cpart data) (fun _ _ => True) left := by
  refine .ite (fun _ => ?_) fun _ => storeBody_ends cpart hfuel
  refine .seq (Ends.wraps (datahdrAppendData_wraps _ _)) ?_
  rintro ⟨header, offset⟩ t - -
  cases offset with
  | none => exact .pure trivial
  | some offset =>
    refine .seq (headerComplete_ends _) fun cpart u _ _ => storeBody_ends cpart ?_
    rw [List.length_drop]
    omega

theorem appendToLastPart_ends (mpdata : MultipartData) {data : Bytes}
    (hfuel : data.length < fuel) :
    Ends sock (appendToLastPart fuel mpdata data)
      (fun m _ => m.boundaryDelimiter = mpdata.boundaryDelimiter) left := by
  unfold appendToLastPart
  split
  · exact .pure rfl
  · exact .seq (cpartAppendData_ends _ hfuel) fun _ _ _ _ => .pure rfl

theorem length_splitAtDelimiter (delim data : Bytes) :
    (splitAtDelimiter delim data).1.length + (splitAtDelimiter delim data).2.length =
      data.length := by
  induction data with
  | nil => rfl
  | cons b rest ih =>
    rw [splitAtDelimiter]
    split
    · exact Nat.zero_add _
    · show (splitAtDelimiter delim rest).1.length + 1 +
        (splitAtDelimiter delim rest).2.length = rest.length + 1
      omega

/-- The part of a form takes bytes of the data. -/
theorem partBody_ends (mpdata : MultipartData) {delim data : Bytes} (hdelim : delim ≠ [])
    (hdata : data ≠ []) (hfuel : data.length < fuel) :
    Ends sock (partBody fuel mpdata delim data) (fun r _ =>
      r.1.boundaryDelimiter = mpdata.boundaryDelimiter ∧ r.2.length < data.length) left := by
  have hlen := length_splitAtDelimiter delim data
  have hpos : 0 < delim.length := List.length_pos_iff.mpr hdelim
  unfold partBody
  refine .seq (appendToLastPart_ends mpdata (by omega)) fun m t _ hm => ?_
  refine .ite (fun _ => .pure ⟨hm, List.length_pos_iff.mpr hdata⟩) fun hlong => .pure ⟨hm, ?_⟩
  show ((splitAtDelimiter delim data).2.drop delim.length).length < data.length
  rw [List.length_drop]
  omega

/-- What the reading of a form relies on: the delimiter is not empty, and a buffer holds it. -/
def FitForm (mpdata : MultipartData) : Prop :=
  ∀ delim, mpdata.boundaryDelimiter = some delim → delim ≠ [] ∧ delim.length < uintSize

theorem continueDelimiter_ends (mpdata : MultipartData) {delim data : Bytes}
    (hfuel : delim.length < fuel) :
    Ends sock (continueDelimiter fuel mpdata delim data) (fun r _ =>
      r.1.boundaryDelimiter = mpdata.boundaryDelimiter ∧ r.2.length ≤ data.length) left := by
  refine .ite (fun _ => .pure ⟨rfl, le_refl _⟩) fun _ => .ite (fun _ => ?_) fun _ => ?_
  · have htake : (delim.take mpdata.delimMatchPart).length < fuel := by
      rw [List.length_take]
      omega
    exact .seq (appendToLastPart_ends mpdata htake) fun m t _ hm => .pure ⟨hm, le_refl _⟩
  · refine .ite (fun _ => .pure ⟨rfl, Nat.zero_le _⟩) fun _ => .pure ⟨rfl, ?_⟩
    show (data.drop _).length ≤ data.length
    rw [List.length_drop]
    omega

theorem boundaryLine_ends (mpdata : MultipartData) (data : Bytes) :
    Sound Stop (fun r => r.1.boundaryDelimiter = mpdata.boundaryDelimiter ∧
      ∀ rest, r.2 = some rest → rest.length < data.length) (boundaryLine mpdata data) := by
  refine .ite (by decide : Stop .heapOverflow) ?_
  dsimp only
  split
  · exact ⟨rfl, nofun⟩
  · rename_i piece rest hsplit
    refine ⟨rfl, fun rest' heq => ?_⟩
    cases heq
    exact length_splitAtByte hsplit

theorem mpdataAppendData_ends {mpdata : MultipartData} (hfit : FitForm mpdata) {data : Bytes}
    (hdata : data.length ≤ readBufferSize) (hfuel : uintSize ≤ fuel) :
    Ends sock (mpdataAppendData fuel mpdata data) (fun m _ => FitForm m) left := by
  unfold mpdataAppendData
  split
  · exact .pure hfit
  rename_i delim heq
  obtain ⟨hne, hdelim⟩ := hfit delim heq
  have hbuffer : data.length < fuel := by
    unfold readBufferSize at hdata
    unfold uintSize at hfuel
    omega
  have hkept : ∀ m : MultipartData, m.boundaryDelimiter = some delim → FitForm m := by
    intro m hm delim' heq'
    rw [hm] at heq'
    cases heq'
    exact ⟨hne, hdelim⟩
  refine .seq (continueDelimiter_ends mpdata (hdelim.trans_le hfuel)) ?_
  rintro ⟨m, rest⟩ t - ⟨hm, hrest⟩
  refine wp_iterate_measure (I := fun x _ => x.1.boundaryDelimiter = some delim ∧
    x.2.length ≤ data.length) (fun x => x.2.length) ?_ _ ⟨hm.trans heq, hrest⟩
    (Nat.lt_succ_self _)
  rintro ⟨m, rest⟩ u ⟨hm, hrest⟩
  dsimp only at hm hrest
  refine Ends.ite (fun _ => .pure (hkept m hm)) fun hrestNe => ?_
  dsimp only
  split
  · refine .seq (partBody_ends m hne hrestNe (by omega)) ?_
    rintro ⟨m', rest'⟩ v - ⟨hm', hless⟩
    exact .pure ⟨⟨hm'.trans hm, hless.le.trans hrest⟩, hless⟩
  · refine .ite (fun _ => .pure fun _ he => by cases he) fun _ => ?_
    refine .seq (R := fun r v => r.1.boundaryDelimiter = m.boundaryDelimiter ∧
      ∀ tail, r.2 = some tail → tail.length < rest.length)
      (.lift (boundaryLine_ends m rest) fun _ _ hr => hr) ?_
    rintro ⟨m', next⟩ v - ⟨hm', hnext⟩
    rcases next with _ | _ | ⟨b, tail⟩
    · exact .pure (hkept m' (hm'.trans hm))
    · exact .pure (hkept m' (hm'.trans hm))
    · have hless : (b :: tail).length < rest.length := hnext _ rfl
      refine .seq (partBody_ends m' hne (List.cons_ne_nil b tail) (by omega)) ?_
      rintro ⟨m'', rest'⟩ w - ⟨hm'', hless'⟩
      exact .pure ⟨⟨(hm''.trans hm').trans hm, (hless'.trans hless).le.trans hrest⟩,
        hless'.trans hless⟩

end Forms

section Programs

/-- Each write to the program takes a byte at least, or the program is waited for. -/
theorem cgiexeProcessData_ends (cgiexe : CgiExecutor) {data : Bytes} (dpr : DataProcessingResult)
    (hfuel : data.length + 1 < fuel) :
    Ends sock (cgiexeProcessData fuel cgiexe data dpr) (fun r _ => r.2.2 ≤ data.length ∧
      (r.2.2 < data.length → r.2.1.reqState ≠ .ready)) left := by
  refine wp_iterate_measure (I := fun _ _ => True)
    (fun x => if x.1.inFd = none then 0 else data.length - x.2.2 + 1) ?_ fuel trivial ?_
  · rintro ⟨c, d, wrtot⟩ t -
    show Ends sock _ _ t
    have hall : data.length ≤ data.length ∧ (data.length < data.length → d.reqState ≠ .ready) :=
      ⟨le_refl _, fun hlt => absurd hlt (lt_irrefl _)⟩
    unfold cgiWriteRound
    dsimp only
    cases hin : c.inFd with
    | none => exact .pure hall
    | some fd =>
      refine .ite (fun hmore => .perform fun r u hr => ?_) fun _ => .pure hall
      match r, hr with
      | .wrote wr, hr =>
        have hwr : 0 < wr := hr.1
        refine .pure ⟨trivial, ?_⟩
        simp only [hin, reduceCtorEq, if_false]
        omega
      | .fail e, _ =>
        refine .ite (fun _ => .pure ⟨hmore.le, fun _ => nofun⟩) fun _ => .perform fun _ v _ => ?_
        refine .pure ⟨trivial, ?_⟩
        rw [if_pos rfl, if_neg (Option.some_ne_none fd)]
        exact Nat.succ_pos _
  · dsimp only
    split <;> omega

end Programs

section Handlers

def FitManager (filemgr : FileManager) : Prop :=
  ∀ mpdata, filemgr.body = some mpdata → FitForm mpdata

/-- What the reading relies on in a handler. -/
def FitHandler (hdlr : RequestHandler) : Prop :=
  ∀ filemgr, hdlr.filemgr = some filemgr → FitManager filemgr

theorem reqhdlrProcessData_ends {hdlr : RequestHandler} (hfit : FitHandler hdlr) {data : Bytes}
    (hdata : data.length ≤ readBufferSize) (dpr : DataProcessingResult)
    (hfuel : uintSize ≤ fuel) :
    Ends sock (reqhdlrProcessData fuel hdlr data dpr) (fun r _ => FitHandler r.1 ∧
      r.2.2 ≤ data.length ∧ (r.2.2 < data.length → r.2.1.reqState ≠ .ready)) left := by
  have hall : ∀ d : DataProcessingResult,
      data.length ≤ data.length ∧ (data.length < data.length → d.reqState ≠ .ready) :=
    fun d => ⟨le_refl _, fun hlt => absurd hlt (lt_irrefl _)⟩
  unfold reqhdlrProcessData
  split
  · rename_i filemgr hmanager
    refine .seq (R := fun f _ => FitManager f) ?_ fun f t _ hf => .pure ⟨?_, hall dpr⟩
    · unfold filemgrConsumeBodyBytes
      split
      · exact .pure (hfit filemgr hmanager)
      · rename_i mpdata hbody
        refine .seq (mpdataAppendData_ends (hfit filemgr hmanager mpdata hbody) hdata hfuel) ?_
        intro m t _ hm
        refine .pure fun m' heq => ?_
        cases heq
        exact hm
    · intro f' heq
      cases heq
      exact hf
  · rename_i cgiexe hmanager _
    have hbound : data.length + 1 < fuel := by
      unfold readBufferSize at hdata
      unfold uintSize at hfuel
      omega
    refine .seq (cgiexeProcessData_ends cgiexe dpr hbound) ?_
    rintro ⟨cgiexe', d, processed⟩ t - hr
    refine .pure ⟨fun filemgr heq => ?_, hr⟩
    rw [show hdlr.filemgr = some filemgr from heq] at hmanager
    cases hmanager
  · exact .pure ⟨hfit, hall dpr⟩

theorem mpdataNew_fit {boundary : Bytes} {destDir : Option Path} {mpdata : MultipartData}
    (h : mpdataNew boundary destDir = .ok mpdata) : FitForm mpdata := by
  obtain ⟨mb, hmb, h⟩ := bind_ok h
  obtain ⟨mb', hmb', h⟩ := bind_ok h
  cases h
  have hstart : mb.data = ascii "\r\n--" := mbNewWithStr_ok (by decide) hmb
  intro delim heq
  cases heq
  constructor
  · rw [mbAppendData_ok hmb', hstart]
    exact List.append_ne_nil_of_left_ne_nil (by decide) _
  · rw [mbAppendStr, mbAppendData] at hmb'
    split at hmb'
    · rename_i hfits
      cases hmb'
      show (mb.data ++ cstr boundary).length < uintSize
      rw [List.length_append]
      unfold MemBuf.dataLen at hfits
      omega
    · cases hmb'

theorem filemgrNew_fit (cfg : Config) (sysPath : Option Path) (rhdr : RequestHeader) :
    Sound (fun _ => True) FitManager (filemgrNew cfg sysPath rhdr) := by
  have hnone : ∀ (path : Option Path) (err : Option Bytes), FitManager ⟨path, none, err⟩ :=
    fun _ _ _ heq => by cases heq
  unfold filemgrNew
  split
  · exact hnone _ _
  · split
    · exact (Sound.always _).bind fun _ _ => hnone _ _
    · exact hnone _ _
    · refine Sound.bind (Q := FitForm) ((Sound.always _).also fun body h => mpdataNew_fit h) ?_
      intro body hbody m heq
      cases heq
      exact hbody

section New

variable {cfg : Config} {rhdr : RequestHeader} {hdlr : RequestHandler}

theorem serveTarget_fit (hnone : hdlr.filemgr = none) (t : Target) (q : Bytes)
    (isHeadReq : Bool) : Yields (S := sys) (fun r => FitHandler r.1)
      (serveTarget fuel cfg hdlr rhdr t q isHeadReq) := by
  have hkept : FitHandler hdlr := by
    intro filemgr heq
    rw [hnone] at heq
    cases heq
  unfold serveTarget
  split
  · exact Yields.seq fun _ => .pure hkept
  · refine .ite (fun _ => ?_) fun _ => ?_
    · refine Yields.bind (.lift (filemgrNew_fit cfg t.sysPath rhdr)) fun f hf => .pure ?_
      intro f' heq
      cases heq
      exact hf
    · split
      · exact .fault
      · refine .ite (fun _ => ?_) fun _ => ?_
        · exact Yields.seq fun _ => .pure hkept
        · exact Yields.seq fun _ => .pure hkept

theorem doProcessRequest_fit (hnone : hdlr.filemgr = none) :
    Yields (S := sys) (fun r => FitHandler r.1) (doProcessRequest fuel cfg hdlr rhdr) := by
  have hpage : ∀ p : Prog RespBuf, Yields (S := sys) (fun r => FitHandler r.1)
      (p >>= fun resp => pure (hdlr, some resp)) := by
    intro p
    refine Yields.seq fun resp => .pure fun filemgr heq => ?_
    rw [show hdlr.filemgr = some filemgr from heq] at hnone
    cases hnone
  unfold doProcessRequest
  refine .ite (fun _ => Yields.seq fun _ => hpage _) fun _ => .ite (fun _ => hpage _) fun _ => ?_
  refine .ite (fun _ => hpage _) fun _ => Yields.seq fun t => Yields.seq fun lacks => ?_
  refine .ite (fun _ => hpage _) fun _ => Yields.seq fun t => ?_
  exact serveTarget_fit hnone t _ _

theorem reqhdlrNew_fit (peerAddr : Option Bytes) :
    Yields (S := sys) FitHandler (reqhdlrNew fuel cfg rhdr peerAddr) := by
  unfold reqhdlrNew
  refine .ite (fun _ => ?_) fun _ => ?_
  · exact Yields.seq fun _ => Yields.seq fun _ => Yields.seq fun _ => .pure nofun
  · exact (doProcessRequest_fit rfl).bind fun r hr => Yields.seq fun _ => .pure hr

end New

theorem reqhdlrProgressResponse_fit (hdlr : RequestHandler) (fd : Fd)
    (dpr : DataProcessingResult) :
    Yields (S := sys) (fun r => FitHandler hdlr → FitHandler r.1)
      (reqhdlrProgressResponse fuel hdlr fd dpr) := by
  have hawait : Yields (S := sys) (fun r => FitHandler hdlr → FitHandler r.1)
      (awaitCgiResponse fuel hdlr dpr) := by
    unfold awaitCgiResponse
    split
    · exact Yields.seq fun _ => Yields.seq fun _ => .pure id
    · exact .pure id
  refine hawait.bind ?_
  rintro ⟨hdlr', d⟩ hfit
  dsimp only
  split
  · exact .pure hfit
  · exact Yields.seq fun _ => .pure hfit

/-- The functions of the server's handler, for the reading. -/
def serverOps (cfg : Config) (fuel : Nat) : HandlerOps RequestHandler :=
  settled (reqhdlrOps fuel cfg)

theorem serverOps_takesBody (cfg : Config) (sock : Fd) (fuel : Nat) (hfuel : uintSize ≤ fuel) :
    TakesBody FitHandler sock (serverOps cfg fuel) where
  new _ peer _ := ends_settled (reqhdlrNew_fit peer)
  processData _ _ dpr _ hfit hdata := reqhdlrProcessData_ends hfit hdata dpr hfuel
  requestReadCompleted _ _ _ := ends_settled (Yields.any _)
  progressResponse hdlr fd dpr _ := ends_settled (reqhdlrProgressResponse_fit hdlr fd dpr)
  free _ _ := ends_settled (Yields.any _)

end Handlers

/-- Reading goes on: in every state in which a connection reads the invariant holds, a call of
`appendData` takes a byte, or has the handler waited for, or completes the request, and a turn
of the connection ends. -/
theorem request_reading_progresses (cfg : Config) (sock : Fd) :
    (∀ conn dpr left, Reading cfg (serverOps cfg) sock conn dpr left →
      ConnInv conn ∧ Live conn ∧
        ∀ fuel, uintSize ≤ fuel → Reads conn dpr → 0 < conn.readSize →
          Ends sock (appendData fuel cfg (serverOps cfg fuel) conn dpr) (fun r t =>
            (bytesAhead r.1 < bytesAhead conn ∨ r.2.reqState ≠ .ready ∨
              r.1.rrs = .readFinished) ∧ Reading cfg (serverOps cfg) sock r.1 r.2 t) left) ∧
    ∀ conn left, Reading cfg (serverOps cfg) sock conn dprInit left →
      ∀ fuel, enoughFuel left ≤ fuel → ∀ drs closeIfIdle,
        Ends sock (connProcessDataReady fuel cfg (serverOps cfg fuel) conn drs closeIfIdle)
          (fun turn t => ConnInv turn.conn ∧
            (Live turn.conn → Reading cfg (serverOps cfg) sock turn.conn dprInit t)) left := by
  have hops := serverOps_takesBody cfg sock
  constructor
  · intro conn dpr left h
    obtain ⟨hin, -, hlive⟩ := h.inv hops
    refine ⟨hin.toConnInv, hlive, fun fuel hfuel hreads hsize => ?_⟩
    refine (h.progress hops hreads hsize hfuel).mono fun r t _ hr => ?_
    exact ⟨hr.1.moved, hr.2.2⟩
  · intro conn left h fuel hfuel drs closeIfIdle
    refine (connProcessDataReady_ends hops hfuel h drs closeIfIdle).mono fun turn t _ hturn => ?_
    exact ⟨hturn.inv, hturn.next⟩

/-- A new connection that has read three bytes. -/
def threeRead : ServerConnection RequestHandler :=
  { connNew 4 with readBuffer := ascii "GET", readSize := 3 }

theorem reading_threeRead :
    Reading bareConfig (serverOps bareConfig) 4 threeRead dprInit 97 := by
  have hrun : Runs (supplied 4) (fillReadBuffer (connNew 4) dprInit false) 100
      (.done (threeRead, dprInit, false)) 97 := by
    rw [fillReadBuffer, if_neg (by decide)]
    have hread : supplied 4 100 (.read 4 readBufferSize) (.got (ascii "GET")) 97 := by
      refine ⟨?_, ?_⟩ <;> decide
    exact .step hread (.refl _ _)
  have hopened : Reading bareConfig (serverOps bareConfig) 4 (connNew 4) dprInit 100 :=
    .opened (by decide)
  exact .fill hopened ⟨rfl, rfl, nofun⟩ hrun

theorem request_reading_progresses_threeRead : ConnInv threeRead ∧
    Ends 4 (appendData uintSize bareConfig (serverOps bareConfig uintSize) threeRead dprInit)
      (fun r t => (bytesAhead r.1 < bytesAhead threeRead ∨ r.2.reqState ≠ .ready ∨
        r.1.rrs = .readFinished) ∧ Reading bareConfig (serverOps bareConfig) 4 r.1 r.2 t) 97 ∧
    Ends 4 (connProcessDataReady (enoughFuel 97) bareConfig
        (serverOps bareConfig (enoughFuel 97)) threeRead drsNew false)
      (fun turn t => ConnInv turn.conn ∧
        (Live turn.conn → Reading bareConfig (serverOps bareConfig) 4 turn.conn dprInit t)) 97 := by
  obtain ⟨hsteps, hturns⟩ := request_reading_progresses bareConfig 4
  obtain ⟨hinv, -, hcall⟩ := hsteps threeRead dprInit 97 reading_threeRead
  refine ⟨hinv, ?_, ?_⟩
  · exact hcall uintSize (le_refl _) ⟨rfl, rfl, nofun⟩ (by decide)
  · exact hturns threeRead 97 reading_threeRead (enoughFuel 97) (le_refl _) drsNew false

end FilemanagerHttpd.Audit
