import FilemanagerHttpd.Audit.FormParts
import FilemanagerHttpd.Audit.ResponseText
import FilemanagerHttpd.Audit.SenderRun

/-!
# Answers to HEAD

The response to a HEAD request has no body to append to, and every function that makes one
has to look. What is sent is the status line and header lines, from whichever function the
response comes, unless a CGI program answers.
-/

namespace FilemanagerHttpd.Audit

open Library Server

/-- The status texts of the server's own responses. -/
def ownStatuses : List Bytes :=
  [respCmnStatus .ok200, respCmnStatus .forbidden403, respCmnStatus .notFound404,
    respCmnStatus .internal500, ascii "301 Moved Permanently", ascii "401 Unauthorized",
    ascii "405 Method Not Allowed"]

/-- The header lines of the server's own responses to HEAD, for the path of a request. -/
inductive OwnLine (q : Bytes) : Bytes → Bytes → Prop
  | fileType (sysPath : Path) :
    OwnLine q (ascii "Content-Type") (cttypeGetContentTypeByFileExt sysPath)
  | pageType : OwnLine q (ascii "Content-Type") htmlType
  | location : OwnLine q (ascii "Location") (q ++ [slash])
  | challenge (nonce : Nat) :
    OwnLine q (ascii "WWW-Authenticate") (ascii "Digest realm=\"" ++ fmRealm ++
      ascii "\", nonce=\"" ++ hexadecimal nonce ++ ascii "\", qop=\"auth\"")
  | allow : OwnLine q (ascii "Allow") (ascii "GET, HEAD, POST")
  | server : OwnLine q (ascii "Server") (ascii "filemanager-httpd")

/-- A status line and header lines. -/
inductive AnswerHead (q : Bytes) : Bytes → Prop
  | status {status : Bytes} : status ∈ ownStatuses →
    AnswerHead q (ascii "HTTP/1.1 " ++ status ++ crlf)
  | line {text name value : Bytes} : AnswerHead q text → OwnLine q name value →
    AnswerHead q (text ++ name ++ ascii ": " ++ cstr value ++ crlf)

/-- A response without a body and without a file. -/
structure HeadResp (q : Bytes) (resp : RespBuf) : Prop where
  no_body : resp.body = none
  no_file : resp.fileDesc = none
  text : AnswerHead q resp.header.data

section Pages

variable {q : Bytes}

theorem nul_not_mem_ownStatuses : ∀ status ∈ ownStatuses, nul ∉ status := by decide +kernel

theorem nul_not_mem_name {name value : Bytes} (h : OwnLine q name value) : nul ∉ name := by
  cases h <;> decide

theorem respNew_head {status : Bytes} (hs : status ∈ ownStatuses) :
    Sound (pageFault · = true) (HeadResp q) (respNew status true) := by
  refine (respNew_page (nul_not_mem_ownStatuses status hs) true).mono (fun _ h => h) ?_
  intro resp h
  refine ⟨Option.isSome_eq_false_iff.mp h.body |> Option.isNone_iff_eq_none.mp, h.file, ?_⟩
  rw [h.head, headText, List.flatMap_nil, List.append_nil]
  exact .status hs

theorem respAppendHeader_head {resp : RespBuf} (hr : HeadResp q resp) {name value : Bytes}
    (hl : OwnLine q name value) :
    Sound (pageFault · = true) (HeadResp q) (respAppendHeader resp name value) := by
  refine (respAppendHeader_sound ⟨rfl, rfl⟩ name value).also fun resp' h => ?_
  obtain ⟨header, hheader, h⟩ := bind_ok h
  rw [← Except.ok.inj h]
  refine ⟨hr.no_body, hr.no_file, ?_⟩
  rw [show header.data = _ from appendHeader_ok (nul_not_mem_name hl) hheader, fieldLine]
  simp only [← List.append_assoc]
  exact .line hr.text hl

theorem printMesgPage_head {status : Bytes} (hs : status ∈ ownStatuses) (mesg : Option Bytes)
    (path : Bytes) (showLoginButton : Bool) :
    Plain (HeadResp q) (printMesgPage status mesg path true showLoginButton) :=
  lift_bind (respNew_head hs) fun _ hr => lift_bind (respAppendHeader_head hr .pageType)
    fun _ hr => .pure hr

theorem respCmnStatus_mem (status : HttpStatus) : respCmnStatus status ∈ ownStatuses := by
  cases status <;> decide

theorem printErrorPage_head (cfg : Config) (sysErrno : Option Errno) (path : Bytes)
    (showLoginButton : Bool) :
    Plain (HeadResp q) (printErrorPage cfg sysErrno path true showLoginButton) :=
  printMesgPage_head (respCmnStatus_mem _) _ _ _

theorem printMovedAddSlash_head : Plain (HeadResp q) (printMovedAddSlash q true) :=
  lift_bind (respNew_head (by decide)) fun _ hr =>
    lift_bind (respAppendHeader_head hr .location) fun _ hr =>
      lift_bind (respAppendHeader_head hr .pageType) fun _ hr => .pure hr

theorem printUnauthorized_head (urlPath : Bytes) :
    Plain (HeadResp q) (printUnauthorized urlPath true) := by
  refine .bind (Q := HeadResp q) (printMesgPage_head (by decide) _ _ _) fun _ hr => ?_
  refine authGetAuthResponseHeader_text.bind ?_
  rintro _ ⟨nonce, rfl⟩
  exact lift_bind (respAppendHeader_head hr (.challenge nonce)) fun _ hr =>
    .lift (respAppendHeader_head hr .pageType)

theorem printFolderContents_head (cfg : Config) (urlPath : Bytes) (folder : Folder)
    (isModifiable showLoginButton : Bool) (opErrorMsg : Option Bytes) :
    Plain (HeadResp q) (printFolderContents cfg urlPath folder isModifiable showLoginButton
      opErrorMsg true) :=
  lift_bind (respNew_head (by decide)) fun _ hr =>
    lift_bind (respAppendHeader_head hr .pageType) fun _ hr => .pure hr

end Pages

section Choosing

/-- The faults of choosing a response: none of them is in a body. -/
def ChoosingFault (f : Fault) : Prop :=
  ServeFault f ∨ PathFault f ∨ f = .nullPointer .sysPath

instance (f : Fault) : Decidable (ChoosingFault f) := inferInstanceAs (Decidable (_ ∨ _))

theorem ne_body_of_choosingFault {f : Fault} (h : ChoosingFault f) : f ≠ .nullPointer .body := by
  rintro rfl
  revert h
  decide

abbrev Chooses {α : Type} (Q : α → Prop) (p : Prog α) : Prop :=
  Within (S := sys) (fun _ => True) ChoosingFault Q p

theorem Chooses.of_serves {α : Type} {Q : α → Prop} {p : Prog α} (hp : Serves Q p) :
    Chooses Q p := hp.mono (fun _ h => h) (fun _ hf => .inl hf) fun _ hQ => hQ

theorem Chooses.of_plain {α : Type} {Q : α → Prop} {p : Prog α} (hp : Plain Q p) :
    Chooses Q p := .of_serves (.of_plain hp)

theorem chooses_lift {α : Type} {Q : α → Prop} {e : Except Fault α}
    (he : Sound (pageFault · = true) Q e) : Chooses Q (liftM e : Prog α) :=
  .of_serves (serves_lift he)

variable {cfg : Config}

theorem configIsCGI_chooses (urlPath : Bytes) :
    Chooses Any (liftM (configIsCGI cfg urlPath) : Prog Bool) :=
  .lift ((configIsCGI_sound cfg urlPath).mono (fun _ hf => .inr (.inl (.inl hf.1))) fun _ h => h)

theorem configFindCGI_chooses (q : Bytes) : Chooses Any (configFindCGI cfg q) := by
  refine (configIsCGI_chooses q).bind fun matched _ => ?_
  refine .bind (Q := Any) ?_ fun wholePath _ =>
    .ite (.pure trivial) (Chooses.of_serves (findCgiPrefix_serves _))
  split
  · exact Chooses.of_serves (isRegularFile_serves _)
  · exact .pure trivial

theorem lookupTarget_chooses (q : Bytes) : Chooses Any (lookupTarget cfg q) := by
  unfold lookupTarget
  split
  · refine (Chooses.of_serves (configGetSubSharesForPath_serves q)).bind fun folder _ => ?_
    cases folder <;> exact .pure trivial
  · refine within_perform trivial fun r => ?_
    split
    · exact .bind (Q := Any) (.ite (configIsCGI_chooses q) (.pure trivial)) fun _ _ => .pure trivial
    · refine (configFindCGI_chooses q).bind fun found _ => ?_
      cases found <;> exact .pure trivial
    · exact .pure trivial

theorem chooseIndexFile_chooses (fuel : Nat) (t : Target) :
    Chooses Any (chooseIndexFile fuel cfg t) := by
  unfold chooseIndexFile
  split
  · refine (Chooses.of_serves (configGetIndexFile_serves fuel _)).bind fun r _ => ?_
    split <;> exact .pure trivial
  · exact .pure trivial

theorem processFileReq_head (q : Bytes) (sysPath : Path) :
    Chooses (HeadResp q) (processFileReq cfg q sysPath true) := by
  refine within_perform trivial fun r => ?_
  cases r with
  | error e => exact Chooses.of_plain (printErrorPage_head _ _ _ _)
  | ok fd =>
    refine .bind (Q := HeadResp q) (chooses_lift (respNew_head (respCmnStatus_mem _)))
      fun _ hr => ?_
    refine (chooses_lift (respAppendHeader_head hr (.fileType sysPath))).bind fun _ hr => ?_
    exact within_perform trivial fun _ => .pure hr

/-- A CGI program that has just been started for a HEAD request. -/
structure HeadCgi (cgiexe : CgiExecutor) : Prop where
  onlyHead : cgiexe.onlyHead = true
  reads : cgiexe.outFd.isSome = true
  header : cgiexe.cgiHeader = datahdrNew

/-- The choice for a HEAD request: a response without a body, or a folder or a CGI program
that will give one. -/
structure HeadChoice (q : Bytes) (hdlr : RequestHandler) (resp : Option RespBuf) : Prop where
  answer : ∀ r, resp = some r → HeadResp q r
  cgi : ∀ cgiexe, hdlr.cgiexe = some cgiexe → HeadCgi cgiexe ∧ resp = none

/-- What a program yields, and the calls it adds to the history. -/
theorem wp_of_yields {α : Type} {Q : α → Prop} {p : Prog α} (hp : Yields (S := sys) Q p)
    (h : History) : wp posix .none p (fun a h' => Q a ∧ ∃ new, h' = new ++ h) h := by
  refine Within.wp hp (fun _ _ _ _ => trivial) (fun _ _ _ _ => trivial) ?_ ⟨[], rfl⟩
  rintro c h₁ r h₂ - ⟨new, rfl⟩ hw
  exact ⟨⟨c, r⟩ :: new, hw.2⟩

theorem runCgi_never (fuel : Nat) (rhdr : RequestHeader) (exePath : Path)
    (peerAddr scriptName pathInfo : Option Bytes) :
    Yields (S := sys) (fun _ => False)
      (runCgi fuel cfg rhdr exePath peerAddr scriptName pathInfo) :=
  Yields.seq fun _ => Yields.seq fun _ => Yields.seq fun _ => Yields.seq fun _ =>
    Yields.seq fun _ => .fault

/-- A CGI program that has been started has printed nothing yet. -/
theorem cgiexeNew_started (fuel : Nat) (rhdr : RequestHeader) (exePath : Path)
    (peerAddr scriptName pathInfo : Option Bytes) :
    Yields (S := sys) (fun cgiexe => cgiexe.onlyHead = (reqhdrGetMethod rhdr == ascii "HEAD") ∧
        cgiexe.outFd.isSome = true ∧ cgiexe.cgiHeader = datahdrNew)
      (cgiexeNew fuel cfg rhdr exePath peerAddr scriptName pathInfo) := by
  refine Yields.seq fun r => ?_
  rcases r with - | ⟨toCgiRead, toCgiWrite⟩
  · exact .fault
  refine Yields.seq fun r => ?_
  rcases r with - | ⟨fromCgiRead, fromCgiWrite⟩
  · exact .fault
  refine Yields.seq fun r => ?_
  cases r with
  | fail => exact .fault
  | child =>
    refine Yields.seq fun _ => Yields.seq fun _ => Yields.seq fun _ => Yields.seq fun _ =>
      Yields.seq fun _ => Yields.seq fun _ => ?_
    exact (runCgi_never fuel rhdr exePath _ _ _).mono fun _ h => h.elim
  | parent => exact Yields.seq fun _ => Yields.seq fun _ => .pure ⟨rfl, rfl, rfl⟩

theorem cgiexeNew_head (fuel : Nat) {rhdr : RequestHeader}
    (hmeth : reqhdrGetMethod rhdr = ascii "HEAD") (exePath : Path)
    (peerAddr scriptName pathInfo : Option Bytes) :
    Chooses HeadCgi (cgiexeNew fuel cfg rhdr exePath peerAddr scriptName pathInfo) := by
  have hcalls : Chooses Any (cgiexeNew fuel cfg rhdr exePath peerAddr scriptName pathInfo) :=
    (cgiexeNew_within fuel rhdr exePath _ _ _).mono (fun _ _ => trivial) (fun _ hf => .inl hf)
      fun _ h => h
  refine hcalls.yields ((cgiexeNew_started fuel rhdr exePath _ _ _).mono ?_)
  rintro cgiexe ⟨honlyHead, hreads, hheader⟩
  refine ⟨?_, hreads, hheader⟩
  rw [honlyHead, hmeth]
  exact (by decide : (ascii "HEAD" == ascii "HEAD") = true)

theorem serveTarget_head (fuel : Nat) {hdlr : RequestHandler} (hnone : hdlr.cgiexe = none)
    {rhdr : RequestHeader} (hmeth : reqhdrGetMethod rhdr = ascii "HEAD") (t : Target) (q : Bytes) :
    Chooses (fun r => HeadChoice q r.1 r.2) (serveTarget fuel cfg hdlr rhdr t q true) := by
  have hready : ∀ r, HeadResp q r → HeadChoice q hdlr (some r) := fun r hr =>
    ⟨fun r' he => Option.some.inj he ▸ hr, fun _ hc => by rw [hnone] at hc; cases hc⟩
  unfold serveTarget
  split
  · exact (Chooses.of_plain (printErrorPage_head _ _ _ _)).bind fun r hr => .pure (hready r hr)
  · refine .ite ?_ ?_
    · refine (chooses_lift (filemgrNew_sound _ _)).bind fun filemgr _ => .pure ⟨nofun, ?_⟩
      intro _ hc
      exact absurd (hnone.symm.trans hc) nofun
    · split
      · exact .fault (.inr (.inr rfl))
      · refine .ite ((cgiexeNew_head fuel hmeth _ _ _ _).bind fun cgiexe hc => ?_) ?_
        · refine .pure ⟨nofun, fun c he => ?_⟩
          rw [← Option.some.inj he]
          exact ⟨hc, rfl⟩
        · exact (processFileReq_head q _).bind fun r hr => .pure (hready r hr)

theorem doProcessRequest_head (fuel : Nat) {hdlr : RequestHandler} (hnone : hdlr.cgiexe = none)
    {rhdr : RequestHeader} (hmeth : reqhdrGetMethod rhdr = ascii "HEAD") :
    Chooses (fun r => HeadChoice (reqhdrGetPath rhdr) r.1 r.2)
      (doProcessRequest fuel cfg hdlr rhdr) := by
  have hhead : (reqhdrGetMethod rhdr == ascii "HEAD") = true := by rw [hmeth]; decide
  have hpage : ∀ {p : Prog RespBuf}, Plain (HeadResp (reqhdrGetPath rhdr)) p →
      Chooses (fun r => HeadChoice (reqhdrGetPath rhdr) r.1 r.2)
        (p >>= fun resp => pure (hdlr, some resp)) := fun hp =>
    (Chooses.of_plain hp).bind fun r hr => .pure ⟨fun r' he => Option.some.inj he ▸ hr,
      fun _ hc => by rw [hnone] at hc; cases hc⟩
  unfold doProcessRequest
  dsimp only
  rw [hhead]
  refine .ite (within_perform trivial fun _ => ?_) (.ite ?_ (.ite ?_ ?_))
  · exact hpage (printUnauthorized_head _)
  · exact hpage (printUnauthorized_head _)
  · exact hpage (printMesgPage_head (respCmnStatus_mem _) _ _ _)
  · refine (lookupTarget_chooses _).bind fun t _ => ?_
    refine .bind (Q := Any) (.lift ?_) fun lacks _ => .ite ?_ ?_
    · unfold lacksSlash
      split
      · cases (reqhdrGetPath rhdr).getLast? with
        | none => exact (.inr (.inl (.inl rfl)) : ChoosingFault _)
        | some b => trivial
      · trivial
    · exact hpage printMovedAddSlash_head
    · exact (chooseIndexFile_chooses fuel t).bind fun t _ => serveTarget_head fuel hnone hmeth t _

end Choosing

section Sending

/-- The whole answer: a status line, header lines, and the line that ends them. -/
def WholeAnswer (q : Bytes) (text : Bytes) : Prop := ∃ head, AnswerHead q head ∧ text = head ++ crlf

/-- A sender without a body that has sent a part of its text. -/
inductive HeadSender (text : Bytes) : ResponseSender → Bytes → Prop
  | sending {off : Nat} : off ≤ text.length →
    HeadSender text ⟨some ⟨text⟩, none, none, 0, off, 0⟩ (text.take off)
  | sent : HeadSender text ⟨none, none, none, 0, 0, 0⟩ text

theorem HeadSender.starts {text sent : Bytes} {r : ResponseSender} (h : HeadSender text r sent) :
    sent <+: text := by
  cases h with
  | sending hle => exact List.take_prefix _ _
  | sent => exact List.prefix_rfl

theorem respFinish_head {q : Bytes} {resp : RespBuf} (hr : HeadResp q resp) :
    Chooses (fun r => ∃ text, WholeAnswer q text ∧ HeadSender text r []) (respFinish resp) := by
  refine (chooses_lift (respAppendHeader_head hr .server)).bind fun resp hr => ?_
  rw [hr.no_body, hr.no_file]
  refine (chooses_lift ((mbAppendStr_sound resp.header crlf).also
    (R := fun mb => mb.data = resp.header.data ++ crlf) fun mb hmb => ?_)).bind fun mb hmb => ?_
  · exact mbAppendStr_ok (by decide) hmb
  · refine .pure ⟨mb.data, ⟨_, hr.text, hmb⟩, ?_⟩
    exact .sending (Nat.zero_le _)

/-- A call of `rsndr_send` sends on; a response that is finished has been sent. -/
theorem rsndrSend_head {text sent : Bytes} {r : ResponseSender} (hs : HeadSender text r sent)
    (fuel : Nat) (sock : Fd) (dpr : DataProcessingResult) (h : History) :
    wp posix .none (rsndrSend fuel r sock dpr) (fun x h' => ∃ more,
      Transfer sock none h h' more [] ∧ HeadSender text x.1 (sent ++ more) ∧
        (x.2.2 = true → x.2.1.closeConn = false → sent ++ more = text)) h := by
  have hbody : ∀ more dpr h', Transfer sock none h h' more [] → sent ++ more = text →
      wp posix .none (sendBody fuel sock ⟨none, none, none, 0, 0, 0⟩ dpr) (fun x h' => ∃ more,
        Transfer sock none h h' more [] ∧ HeadSender text x.1 (sent ++ more) ∧
          (x.2.2 = true → x.2.1.closeConn = false → sent ++ more = text)) h' := by
    intro more dpr h' ht hsent
    cases fuel with
    | zero => trivial
    | succ fuel => exact ⟨more, ht, by rw [hsent]; exact .sent, fun _ _ => hsent⟩
  cases hs with
  | sent => exact hbody [] dpr h .refl (List.append_nil _)
  | sending hle =>
    rename_i off
    refine wp_seq (writeLoop_transfer fuel sock none hle h) ?_
    rintro ⟨off', e⟩ h₁ ⟨more, ht, hle', hmore, hdone⟩
    have hsent : text.take off ++ more = text.take off' := by
      refine List.append_cancel_right (?_ : _ ++ text.drop off' = _ ++ text.drop off')
      rw [List.append_assoc, hmore, List.take_append_drop, List.take_append_drop]
    cases e with
    | some e =>
      refine ⟨more, ht, ?_, fun hfin hclose => ?_⟩
      · rw [hsent]
        exact .sending hle'
      · exact absurd ((writeFailed_close hfin).symm.trans hclose) (by decide)
    | none =>
      have hend : off' = text.length := hdone rfl
      refine hbody more dpr h₁ ht ?_
      rw [hsent, hend, List.take_length]

theorem rsndrSend_serves {r : ResponseSender} (hr : r.body = none) (fuel : Nat) (sock : Fd)
    (dpr : DataProcessingResult) : Serves Any (rsndrSend fuel r sock dpr) := by
  have hbody : ∀ (r : ResponseSender) dpr, r.body = none →
      Serves Any (sendBody fuel sock r dpr) := by
    intro r dpr hr
    cases fuel with
    | zero => exact serveFault_outOfFuel
    | succ fuel =>
      refine .bind (Q := fun x => x = .inr (r, dpr, true)) ?_ fun x hx => ?_
      · unfold sendBodyRound
        dsimp only
        rw [hr]
        exact .pure rfl
      · rw [hx]
        exact .pure trivial
  unfold rsndrSend
  split
  · exact hbody r dpr hr
  · refine .bind (Q := Any) (.loop serveFault_outOfFuel (fun offset => ?_) fuel _) fun x _ => ?_
    · refine .ite (within_perform trivial fun w => ?_) (.pure trivial)
      cases w <;> exact .pure trivial
    · split
      · exact .pure trivial
      · exact hbody _ _ hr

end Sending

section Session

/-- The calls that a connection makes of a handler, in any order, with any data and whatever
the server does between them; `sent` has gone to the socket. The header may have got the lines
of a trailer by the time when the request is completely read. -/
inductive Answering (cfg : Config) (rhdr : RequestHeader) (sock : Fd) (start : RequestHandler) :
    RequestHandler → Bytes → Prop
  | start : Answering cfg rhdr sock start start []
  | body {fuel n : Nat} {hdlr hdlr' : RequestHandler} {sent data : Bytes}
      {dpr dpr' : DataProcessingResult} {h h' : History} :
    Answering cfg rhdr sock start hdlr sent →
    Runs posix (reqhdlrProcessData fuel hdlr data dpr) h (.done (hdlr', dpr', n)) h' →
    Answering cfg rhdr sock start hdlr' sent
  | completed {fuel : Nat} {hdlr hdlr' : RequestHandler} {sent : Bytes} {rhdr' : RequestHeader}
      {h h' : History} :
    Answering cfg rhdr sock start hdlr sent → reqhdrGetMethod rhdr' = reqhdrGetMethod rhdr →
    reqhdrGetPath rhdr' = reqhdrGetPath rhdr →
    Runs posix (reqhdlrRequestReadCompleted fuel cfg hdlr rhdr') h (.done hdlr') h' →
    Answering cfg rhdr sock start hdlr' sent
  | progress {fuel : Nat} {hdlr hdlr' : RequestHandler} {sent : Bytes} {fin : Bool}
      {dpr dpr' : DataProcessingResult} {h new : History} :
    Answering cfg rhdr sock start hdlr sent →
    Runs posix (reqhdlrProgressResponse fuel hdlr sock dpr) h (.done (hdlr', dpr', fin))
      (new ++ h) →
    Answering cfg rhdr sock start hdlr' (sent ++ sentTo sock new)

/-- A handler that answers a HEAD request without a body. -/
structure HeadOnly (cfg : Config) (rhdr : RequestHeader) (start : RequestHandler) : Prop where
  /-- no step appends to the missing body -/
  processData : ∀ sock hdlr sent fuel data dpr h f h', Answering cfg rhdr sock start hdlr sent →
    Runs posix (reqhdlrProcessData fuel hdlr data dpr) h (.fault f) h' → f ≠ .nullPointer .body
  requestReadCompleted : ∀ sock hdlr sent fuel rhdr' h f h',
    Answering cfg rhdr sock start hdlr sent → reqhdrGetMethod rhdr' = reqhdrGetMethod rhdr →
    reqhdrGetPath rhdr' = reqhdrGetPath rhdr →
    Runs posix (reqhdlrRequestReadCompleted fuel cfg hdlr rhdr') h (.fault f) h' →
      f ≠ .nullPointer .body
  progressResponse : ∀ sock hdlr sent fuel dpr h f h', Answering cfg rhdr sock start hdlr sent →
    Runs posix (reqhdlrProgressResponse fuel hdlr sock dpr) h (.fault f) h' →
      f ≠ .nullPointer .body
  /-- what is sent is the beginning of an answer, and the whole of it in the end -/
  sends : ∀ sock hdlr sent, Answering cfg rhdr sock start hdlr sent →
    ∃ text, WholeAnswer (reqhdrGetPath rhdr) text ∧ sent <+: text
  sendsAll : ∀ sock hdlr sent fuel dpr h hdlr' dpr' new,
    Answering cfg rhdr sock start hdlr sent →
    Runs posix (reqhdlrProgressResponse fuel hdlr sock dpr) h (.done (hdlr', dpr', true))
      (new ++ h) → dpr'.closeConn = false →
      WholeAnswer (reqhdrGetPath rhdr) (sent ++ sentTo sock new)

/-- A handler without a CGI program, and what it has sent of its answer. -/
structure HeadState (q : Bytes) (hdlr : RequestHandler) (sent : Bytes) : Prop where
  no_cgi : hdlr.cgiexe = none
  waiting : hdlr.response = none → sent = []
  answering : ∀ r, hdlr.response = some r → ∃ text, WholeAnswer q text ∧ HeadSender text r sent

variable {cfg : Config} {rhdr : RequestHeader} {q : Bytes} {hdlr : RequestHandler} {sent : Bytes}

/-- The steps of a handler that answers a HEAD request itself. -/
abbrev Heads {α : Type} (Q : α → Prop) (p : Prog α) : Prop :=
  Within (S := sys) (fun _ => True) (· ≠ .nullPointer .body) Q p

theorem Heads.of_chooses {α : Type} {Q : α → Prop} {p : Prog α} (hp : Chooses Q p) : Heads Q p :=
  hp.mono (fun _ h => h) (fun _ hf => ne_body_of_choosingFault hf) fun _ hQ => hQ

theorem processData_head (hs : HeadState q hdlr sent) (fuel : Nat) (data : Bytes)
    (dpr : DataProcessingResult) :
    Heads (fun r => HeadState q r.1 sent) (reqhdlrProcessData fuel hdlr data dpr) := by
  unfold reqhdlrProcessData
  split
  · rename_i filemgr _
    have hread : FailsIn (· ≠ .nullPointer .body) (filemgrConsumeBodyBytes fuel filemgr data) := by
      unfold filemgrConsumeBodyBytes
      split
      · exact .pure trivial
      · exact (mpdataAppendData_failsIn ⟨nofun, nofun⟩ nofun fuel _ data).bind fun _ _ =>
          .pure trivial
    exact hread.bind fun _ _ => .pure ⟨hs.no_cgi, hs.waiting, hs.answering⟩
  · rename_i hcgi
    rw [hs.no_cgi] at hcgi
    cases hcgi
  · exact .pure hs

theorem filemgrPrintFolderContents_head (fuel : Nat) (filemgr : FileManager)
    (hmeth : reqhdrGetMethod rhdr = ascii "HEAD") :
    Serves (fun r => ∀ resp, r = .ok resp → HeadResp q resp)
      (filemgrPrintFolderContents fuel cfg filemgr rhdr) := by
  have hhead : (reqhdrGetMethod rhdr == ascii "HEAD") = true := by rw [hmeth]; decide
  refine (filemgrPrintFolderContents_serves fuel filemgr rhdr).yields ?_
  unfold filemgrPrintFolderContents
  dsimp only
  rw [hhead]
  refine Yields.seq fun _ => Yields.seq fun isModifiable => Yields.seq fun r => ?_
  split
  · exact .pure nofun
  · refine Yields.bind (Q := HeadResp q) ((printFolderContents_head _ _ _ _ _ _).mono
      (fun _ _ => trivial) (fun _ _ => trivial) fun _ h => h) fun resp hr => .pure fun r he => ?_
    rw [← Except.ok.inj he]
    exact hr

theorem processFolderReq_head (fuel : Nat) (filemgr : FileManager)
    (hmeth : reqhdrGetMethod rhdr = ascii "HEAD") :
    Chooses (fun r => HeadResp q r.2) (processFolderReq fuel cfg rhdr filemgr) := by
  have hhead : (reqhdrGetMethod rhdr == ascii "HEAD") = true := by rw [hmeth]; decide
  have hpost : ¬ reqhdrGetMethod rhdr = ascii "POST" := by rw [hmeth]; decide
  have hpage : ∀ {p : Prog RespBuf}, Plain (HeadResp q) p →
      Chooses (fun r => HeadResp q r.2) (p >>= fun resp => pure (filemgr, resp)) := fun hp =>
    (Chooses.of_plain hp).bind fun _ hr => .pure hr
  unfold processFolderReq
  dsimp only
  rw [hhead, if_neg hpost]
  have hprint : Chooses (fun r => ∀ resp, r = .ok resp → HeadResp q resp)
      (filemgrPrintFolderContents fuel cfg filemgr rhdr) :=
    .of_serves (filemgrPrintFolderContents_head fuel filemgr hmeth)
  refine .ite (hprint.bind fun r hr => ?_) (hpage (printErrorPage_head _ _ _ _))
  cases r with
  | ok resp => exact .pure (hr resp rfl)
  | error e => exact hpage (printErrorPage_head _ _ _ _)

theorem requestReadCompleted_head (hs : HeadState q hdlr sent) (fuel : Nat)
    (hmeth : reqhdrGetMethod rhdr = ascii "HEAD") :
    Heads (HeadState q · sent) (reqhdlrRequestReadCompleted fuel cfg hdlr rhdr) := by
  have hhead : (reqhdrGetMethod rhdr == ascii "HEAD") = true := by rw [hmeth]; decide
  unfold reqhdlrRequestReadCompleted
  split
  · rename_i cgiexe hcgi
    rw [hs.no_cgi] at hcgi
    cases hcgi
  · exact .pure hs
  · rename_i hcgi hresp
    have hlate : Chooses (fun r => HeadResp q r.2) (lateResponse fuel cfg hdlr.filemgr rhdr) := by
      unfold lateResponse
      rw [hhead]
      split
      · exact (processFolderReq_head fuel _ hmeth).bind fun r hr => .pure hr
      · exact (Chooses.of_plain (printMesgPage_head (respCmnStatus_mem _) _ _ _)).bind
          fun _ hr => .pure hr
    refine (Heads.of_chooses hlate).bind fun r hr => ?_
    refine (Heads.of_chooses (respFinish_head hr)).bind fun rsndr hrs => ?_
    refine .pure ⟨hcgi, nofun, fun r' he => ?_⟩
    rw [← Option.some.inj he, hs.waiting hresp]
    exact hrs

theorem awaitCgiResponse_head (hs : HeadState q hdlr sent) (fuel : Nat)
    (dpr : DataProcessingResult) : awaitCgiResponse fuel hdlr dpr = .done (hdlr, dpr) := by
  unfold awaitCgiResponse
  rw [hs.no_cgi]
  cases hdlr.response <;> rfl

theorem progressResponse_head (hs : HeadState q hdlr sent) (fuel : Nat) (sock : Fd)
    (dpr : DataProcessingResult) (h : History) :
    wp posix .none (reqhdlrProgressResponse fuel hdlr sock dpr) (fun x h' => ∃ more,
      Transfer sock none h h' more [] ∧ HeadState q x.1 (sent ++ more) ∧
        (x.2.2 = true → x.2.1.closeConn = false → WholeAnswer q (sent ++ more))) h := by
  unfold reqhdlrProgressResponse
  rw [awaitCgiResponse_head hs, Program.done_bind]
  dsimp only
  split
  · exact ⟨[], .refl, by rwa [List.append_nil], nofun⟩
  · rename_i r hresp
    obtain ⟨text, htext, hsender⟩ := hs.answering r hresp
    refine wp_seq (rsndrSend_head hsender fuel sock dpr h) ?_
    rintro ⟨r', dpr', fin⟩ h' ⟨more, ht, hsender', hfin⟩
    refine ⟨more, ht, ⟨hs.no_cgi, nofun, fun r he => ?_⟩, fun hf hc => ?_⟩
    · rw [← Option.some.inj he]
      exact ⟨text, htext, hsender'⟩
    · rw [hfin hf hc]
      exact htext

theorem progressResponse_heads (hs : HeadState q hdlr sent) (fuel : Nat) (sock : Fd)
    (dpr : DataProcessingResult) : Heads Any (reqhdlrProgressResponse fuel hdlr sock dpr) := by
  unfold reqhdlrProgressResponse
  rw [awaitCgiResponse_head hs, Program.done_bind]
  dsimp only
  split
  · exact .pure trivial
  · rename_i r hresp
    obtain ⟨text, -, hsender⟩ := hs.answering r hresp
    have hbody : r.body = none := by cases hsender <;> rfl
    exact (Heads.of_chooses (.of_serves (rsndrSend_serves hbody fuel sock dpr))).bind
      fun _ _ => .pure trivial

/-- The steps keep the state of a handler without a CGI program. -/
theorem Answering.head {sock : Fd} {start : RequestHandler}
    (hmeth : reqhdrGetMethod rhdr = ascii "HEAD")
    (hstart : HeadState (reqhdrGetPath rhdr) start [])
    (ha : Answering cfg rhdr sock start hdlr sent) :
    HeadState (reqhdrGetPath rhdr) hdlr sent := by
  induction ha with
  | start => exact hstart
  | body _ hrun ih =>
    exact Yields.returns ((processData_head ih _ _ _).mono (fun _ _ => trivial)
      (fun _ _ => trivial) fun _ h => h) hrun
  | completed _ hm _ hrun ih =>
    exact Yields.returns ((requestReadCompleted_head ih _ (hm.trans hmeth)).mono
      (fun _ _ => trivial) (fun _ _ => trivial) fun _ h => h) hrun
  | progress _ hrun ih =>
    obtain ⟨more, ht, hs, -⟩ := wp_result (progressResponse_head ih _ _ _ _) hrun
    rw [← ht.of_append.1]
    exact hs

theorem headOnly_of_noCgi (hmeth : reqhdrGetMethod rhdr = ascii "HEAD")
    (hstart : HeadState (reqhdrGetPath rhdr) hdlr []) : HeadOnly cfg rhdr hdlr where
  processData _ _ _ _ _ _ _ _ _ ha hrun :=
    (processData_head (ha.head hmeth hstart) _ _ _).faults hrun
  requestReadCompleted _ _ _ _ _ _ _ _ ha hm _ hrun :=
    (requestReadCompleted_head (ha.head hmeth hstart) _ (hm.trans hmeth)).faults hrun
  progressResponse _ _ _ _ _ _ _ _ ha hrun :=
    (progressResponse_heads (ha.head hmeth hstart) _ _ _).faults hrun
  sends sock hdlr' sent ha := by
    have hs := ha.head hmeth hstart
    cases hresp : hdlr'.response with
    | none =>
      rw [hs.waiting hresp]
      exact ⟨_, ⟨_, .status (respCmnStatus_mem .ok200), rfl⟩, List.nil_prefix⟩
    | some r =>
      obtain ⟨text, htext, hsender⟩ := hs.answering r hresp
      exact ⟨text, htext, hsender.starts⟩
  sendsAll _ _ _ _ _ _ _ _ _ ha hrun hclose := by
    obtain ⟨more, ht, -, hall⟩ :=
      wp_result (progressResponse_head (ha.head hmeth hstart) _ _ _ _) hrun
    rw [← ht.of_append.1]
    exact hall rfl hclose

/-- A CGI program that ends before its header does makes the error page fail. -/
theorem headOnly_fails_of_cgi {cgiexe : CgiExecutor} (hcgi : hdlr.cgiexe = some cgiexe)
    (hnew : HeadCgi cgiexe) (hresp : hdlr.response = none) : ¬ HeadOnly cfg rhdr hdlr := by
  intro hhead
  obtain ⟨outFd, hout⟩ := Option.isSome_iff_exists.mp hnew.reads
  have hrun : ∃ h', Runs posix (reqhdlrProgressResponse 1 hdlr 0 dprInit) []
      (.fault (.nullPointer .body)) h' := by
    unfold reqhdlrProgressResponse awaitCgiResponse cgiexeGetResponse
    rw [hcgi, hresp]
    dsimp only
    rw [hout, hnew.onlyHead]
    exact ⟨_, .step (r := ReadResult.got []) ⟨Nat.zero_le _, rfl⟩
      (.step (r := ()) ⟨trivial, rfl⟩ (.refl _ _))⟩
  obtain ⟨h', hrun⟩ := hrun
  exact hhead.progressResponse _ _ _ _ _ _ _ _ .start hrun rfl

/-- A new handler for a HEAD request answers without a body, or has a CGI program. -/
theorem reqhdlrNew_head (fuel : Nat) (hmeth : reqhdrGetMethod rhdr = ascii "HEAD")
    (peerAddr : Option Bytes) :
    Chooses (fun hdlr => (hdlr.cgiexe = none → HeadState (reqhdrGetPath rhdr) hdlr []) ∧
        ∀ cgiexe, hdlr.cgiexe = some cgiexe → HeadCgi cgiexe ∧ hdlr.response = none)
      (reqhdlrNew fuel cfg rhdr peerAddr) := by
  have hhead : (reqhdrGetMethod rhdr == ascii "HEAD") = true := by rw [hmeth]; decide
  unfold reqhdlrNew
  dsimp only
  rw [hhead, if_neg (fun h => absurd h.2.2 (by decide))]
  refine (doProcessRequest_head fuel rfl hmeth).bind ?_
  rintro ⟨hdlr, resp⟩ hchoice
  have hsender : Chooses (fun response => (resp = none → response = none) ∧
      ∀ r, response = some r → ∃ text, WholeAnswer (reqhdrGetPath rhdr) text ∧
        HeadSender text r []) (finishIfReady resp) := by
    cases resp with
    | none => exact .pure ⟨fun _ => rfl, nofun⟩
    | some resp =>
      refine (respFinish_head (hchoice.answer resp rfl)).bind fun r hr => .pure ⟨nofun, ?_⟩
      intro r' he
      rw [← Option.some.inj he]
      exact hr
  refine hsender.bind fun response hr => .pure ⟨fun hcgi => ⟨hcgi, fun _ => rfl, hr.2⟩, ?_⟩
  intro cgiexe hc
  obtain ⟨hnew, hnone⟩ := hchoice.cgi cgiexe hc
  exact ⟨hnew, hr.1 hnone⟩

end Session

section Example

/-- The path of a file that is executed for every request. -/
def scriptConfig : Config :=
  { bareConfig with
    shares := [⟨[], ascii "/srv"⟩]
    cgiPatterns := [ascii "/a"]
    fnmatch := fun _ patt s => patt == s }

end Example

end FilemanagerHttpd.Audit
