import FilemanagerHttpd.Audit.FormWork
import FilemanagerHttpd.Audit.Lookups

/-!
# What a handler owns

A response owns the file that it sends, and a CGI program the two ends of its pipes. The socket is
lent to a handler while it sends. A handler that is freed owns nothing any more.
-/

namespace FilemanagerHttpd.Audit

open Library Server

def respFds (resp : RespBuf) : Multiset Fd := fdOf resp.fileDesc

def rsndrFds (rsndr : ResponseSender) : Multiset Fd := fdOf rsndr.fileDesc

def cgiFds (cgiexe : CgiExecutor) : Multiset Fd := fdOf cgiexe.inFd + fdOf cgiexe.outFd

def handlerFds (hdlr : RequestHandler) : Multiset Fd :=
  fdsIf filemgrFds hdlr.filemgr + fdsIf cgiFds hdlr.cgiexe + fdsIf rsndrFds hdlr.response

def HandlerAllowed (cfg : Config) (st : LoginState) (hdlr : RequestHandler) : Prop :=
  ∀ filemgr, hdlr.filemgr = some filemgr → FilemgrAllowed cfg st filemgr

variable {cfg : Config} {st : LoginState} {own : Multiset Fd} {h : History} {α β : Type}

/-- Reading from a descriptor that is owned. -/
theorem works_read {fd : Fd} {n : Nat} {k : ReadResult → Prog β}
    {T : β → Multiset Fd → History → Prop} (hfd : fd ≠ 0 → fd ∈ own)
    (hk : ∀ r t, Works cfg st own (k r) T t) : Works cfg st own (perform (.read fd n) >>= k) T h := by
  refine works_call (c := .read fd n) ⟨rfl, trivial⟩ ?_ rfl (fun r => by cases r <;> rfl)
    fun r _ => hk r _
  intro x hx
  simp only [descriptorsUsed] at hx
  split at hx
  · exact absurd hx (Multiset.notMem_zero x)
  · rename_i hne
    rw [Multiset.mem_singleton.mp hx]
    exact hfd hne

/-- Writing to a descriptor that is owned. -/
theorem works_write {fd : Fd} {data : Bytes} {k : WriteResult → Prog β}
    {T : β → Multiset Fd → History → Prop} (hfd : fd ≠ 1 → fd ∈ own)
    (hk : ∀ r t, Works cfg st own (k r) T t) :
    Works cfg st own (perform (.write fd data) >>= k) T h := by
  refine works_call (c := .write fd data) ⟨rfl, trivial⟩ ?_ rfl (fun r => by cases r <;> rfl)
    fun r _ => hk r _
  intro x hx
  simp only [descriptorsUsed] at hx
  split at hx
  · exact absurd hx (Multiset.notMem_zero x)
  · rename_i hne
    rw [Multiset.mem_singleton.mp hx]
    exact hfd hne

section Sender

theorem closeIf_works (cond : Bool) (fd : Option Fd) :
    Works cfg st (fdOf fd) (closeIf cond fd) (fun r o _ => o = fdOf r ∧ (r ≠ none → r = fd)) h := by
  refine .ite (fun _ => ?_) fun _ => .pure ⟨rfl, fun _ => rfl⟩
  exact works_closeFd (o := 0) (add_zero _).symm fun t => .pure ⟨rfl, fun hne => absurd rfl hne⟩

theorem rsndrNew_works (header : MemBuf) (body : Option MemBuf) (fileDesc : Option Fd) :
    Works cfg st (fdOf fileDesc) (rsndrNew header body fileDesc)
      (fun r o _ => o = rsndrFds r) h := by
  have hbytes : Works cfg st (fdOf fileDesc) (fileBytesToSend body fileDesc)
      (fun _ o _ => o = fdOf fileDesc) h := by
    unfold fileBytesToSend
    split
    · rename_i fd
      refine works_call (c := .fstat fd) ⟨rfl, trivial⟩ (fun x hx => hx) rfl (fun _ => rfl)
        fun r _ => ?_
      cases r with
      | ok s => exact .pure rfl
      | error e => exact .pure rfl
    · exact .pure rfl
  refine hbytes.seq ?_
  rintro nbytes _ t rfl
  refine Ledger.Owns.seq (Q := fun _ o _ => o = fdOf fileDesc) ?_ ?_
  · cases body with
    | none => exact .pure rfl
    | some body => exact operates_lift (ordinary_wraps (mbAppendStr_wraps _ _)).any _ _
  rintro header' _ u rfl
  refine (closeIf_works _ fileDesc).seq ?_
  rintro fd' _ v ⟨rfl, -⟩
  refine (operates_lift (ordinary_wraps (mbAppendStr_wraps _ _)).any _ _).seq ?_
  rintro header'' _ w rfl
  cases body with
  | none => exact .pure rfl
  | some body =>
    refine .ite (fun _ => ?_) fun _ => .pure rfl
    refine (operates_lift (ordinary_wraps (mbAppendStr_wraps _ _)).any _ _).seq ?_
    rintro header''' _ x rfl
    refine (operates_lift (ordinary_wraps (mbAppendStr_wraps _ _)).any _ _).seq ?_
    rintro body' _ y rfl
    exact .pure rfl

theorem respFinish_works (resp : RespBuf) :
    Works cfg st (respFds resp) (respFinish resp) (fun r o _ => o = rsndrFds r) h := by
  refine (works_lift (Sound.ordinary (respAppendHeader_sound ⟨rfl, rfl⟩ _ _))).seq ?_
  rintro resp' _ t ⟨rfl, hfd, -⟩
  rw [respFds, ← hfd]
  exact rsndrNew_works _ _ _

theorem fillLoop_works (body : MemBuf) (fd : Option Fd) (filledCount toFill : Nat) :
    Works cfg st (fdOf fd) (fillLoop body fd filledCount toFill) (fun _ o _ => o = fdOf fd) h := by
  refine works_iterate (I := fun _ o _ => o = fdOf fd) ?_ _ rfl
  rintro ⟨mb, filled⟩ _ t rfl
  refine .ite (fun _ => ?_) fun _ => .pure rfl
  refine Ledger.Owns.seq (Q := fun _ o _ => o = fdOf fd) ?_ ?_
  · refine .ite (fun _ => works_fault (by decide)) fun _ => ?_
    cases fd with
    | none => exact .pure rfl
    | some fd =>
      refine works_read (fun _ => Multiset.mem_singleton_self fd) fun r u => ?_
      cases r with
      | got data => exact .pure rfl
      | fail e => exact .pure rfl
  · rintro ⟨mb', r⟩ _ u rfl
    split
    · exact .pure rfl
    · exact .pure rfl
    · exact .pure rfl

theorem ensureSize_operates (body : MemBuf) (size : Nat) : Operates cfg st (ensureSize body size) := by
  intro own h
  refine .ite (fun _ => .ite (fun _ => .pure rfl) fun _ => .ite (fun _ => ?_) fun _ => ?_)
    fun _ => .pure rfl
  · exact works_path (c := .uninit _) ⟨rfl, trivial⟩ rfl rfl (fun _ => rfl) fun r t => .pure rfl
  · exact works_fault (by decide)

theorem ordinary_setData (mb : MemBuf) (offset : Nat) (data : Bytes) :
    Sound Ordinary Any (mbSetData mb offset data) :=
  Sound.ordinary (mbSetData_sound mb offset data)

theorem fillFixed_works (rsndr : ResponseSender) (body : MemBuf) (dpr : DataProcessingResult) :
    Works cfg st (rsndrFds rsndr) (fillFixed rsndr body dpr) (fun r o _ => o = rsndrFds r.1) h := by
  refine (ensureSize_operates body _ _ _).seq ?_
  rintro body' _ t rfl
  cases hfd : rsndr.fileDesc with
  | none =>
    have hown : rsndrFds rsndr = fdOf none := by rw [rsndrFds, hfd]
    refine (operates_lift (ordinary_setData _ _ _) _ _).seq ?_
    rintro body'' _ u rfl
    exact .pure hown
  | some fd =>
    have hown : rsndrFds rsndr = fdOf (some fd) := by rw [rsndrFds, hfd]
    rw [hown]
    refine (fillLoop_works body' (some fd) 0 _).seq ?_
    rintro ⟨body'', filledCount, stop⟩ _ u rfl
    refine .ite (fun _ => ?_) fun _ => .pure ?_
    · refine works_close (o := 0) (add_zero _).symm fun v => ?_
      refine (operates_lift (ordinary_setData _ _ _) _ _).seq ?_
      rintro body''' _ w rfl
      exact .pure rfl
    · rfl

theorem wrapChunk_ordinary (body : MemBuf) (filledCount : Nat) :
    Sound Ordinary Any (wrapChunk body filledCount) := by
  refine .ite ?_ trivial
  exact (ordinary_setData _ _ _).bind fun _ _ => (ordinary_setData _ _ _).bind fun _ _ => trivial

theorem fillChunked_works (rsndr : ResponseSender) (body : MemBuf) (dpr : DataProcessingResult) :
    Works cfg st (rsndrFds rsndr) (fillChunked rsndr body dpr)
      (fun r o _ => o = rsndrFds r.1) h := by
  refine (ensureSize_operates body _ _ _).seq ?_
  rintro body' _ t rfl
  refine (fillLoop_works body' rsndr.fileDesc chunkGap chunkedFill).seq ?_
  rintro ⟨body'', filledCount, stop⟩ _ u rfl
  refine (closeIf_works stop.exhausted rsndr.fileDesc).seq ?_
  rintro fd _ v ⟨rfl, hkept⟩
  refine (operates_lift (wrapChunk_ordinary _ _) _ _).seq ?_
  rintro ⟨chunk, dataOffset, dataSize⟩ _ w rfl
  cases fd with
  | none =>
    refine (operates_lift (ordinary_setData _ _ _) _ _).seq ?_
    rintro last _ x rfl
    exact .pure rfl
  | some fd =>
    refine .pure ?_
    rw [hkept (Option.some_ne_none fd)]
    rfl

theorem fillBuffer_works (rsndr : ResponseSender) (body : MemBuf) (dpr : DataProcessingResult) :
    Works cfg st (rsndrFds rsndr) (fillBuffer rsndr body dpr) (fun r o _ => o = rsndrFds r.1) h :=
  .ite (fun _ => fillFixed_works rsndr body dpr) fun _ => fillChunked_works rsndr body dpr

variable {sock : Fd}

/-- The socket is lent for the writing. -/
theorem writeLoop_works (fuel : Nat) (data : Bytes) (offset : Nat) (hsock : sock ∈ own) :
    Works cfg st own (writeLoop fuel sock data offset) (fun _ o _ => o = own) h := by
  refine works_iterate (I := fun _ o _ => o = own) ?_ fuel rfl
  rintro off _ t rfl
  refine .ite (fun _ => works_write (fun _ => hsock) fun r u => ?_) fun _ => .pure rfl
  cases r with
  | wrote wr => exact .pure rfl
  | fail e => exact .pure rfl

theorem mem_lent (sock : Fd) (own : Multiset Fd) : sock ∈ {sock} + own :=
  Multiset.mem_add.mpr (.inl (Multiset.mem_singleton_self sock))

theorem sendBody_works (fuel : Nat) (rsndr : ResponseSender) (dpr : DataProcessingResult) :
    Works cfg st ({sock} + rsndrFds rsndr) (sendBody fuel sock rsndr dpr)
      (fun r o _ => o = {sock} + rsndrFds r.1) h := by
  refine works_iterate (I := fun x o _ => o = {sock} + rsndrFds x.1) ?_ fuel rfl
  rintro ⟨rsndr, dpr⟩ _ t rfl
  unfold sendBodyRound
  dsimp only
  split
  · exact .pure rfl
  rename_i body _
  refine (writeLoop_works fuel _ _ (mem_lent sock _)).seq ?_
  rintro ⟨off, e⟩ _ u rfl
  cases e with
  | some e => exact .pure rfl
  | none =>
    refine .ite (fun _ => .pure rfl) fun _ => ?_
    rw [add_comm]
    refine (fillBuffer_works { rsndr with dataOffset := off } body dpr).part ?_
    rintro ⟨r, d⟩ _ v rfl
    rw [add_comm]
    exact .ite (fun _ => .pure rfl) fun _ => .pure rfl

theorem rsndrSend_works (fuel : Nat) (rsndr : ResponseSender) (dpr : DataProcessingResult) :
    Works cfg st ({sock} + rsndrFds rsndr) (rsndrSend fuel rsndr sock dpr)
      (fun r o _ => o = {sock} + rsndrFds r.1) h := by
  unfold rsndrSend
  split
  · exact sendBody_works fuel rsndr dpr
  · rename_i header _
    refine (writeLoop_works fuel _ _ (mem_lent sock _)).seq ?_
    rintro ⟨off, e⟩ _ u rfl
    cases e with
    | some e => exact .pure rfl
    | none => exact sendBody_works fuel { rsndr with header := none, dataOffset := 0 } dpr

theorem rsndrFree_works (rsndr : ResponseSender) :
    Works cfg st (rsndrFds rsndr) (rsndrFree rsndr) (fun _ o _ => o = 0) h := by
  unfold rsndrFree
  rw [← bind_pure (closeFd rsndr.fileDesc)]
  exact works_closeFd (o := 0) (add_zero _).symm fun t => .pure rfl

end Sender

section Cgi

theorem fatalErrorResp_works (message : Bytes) (status : Option Bytes)
    (Q : α → Multiset Fd → History → Prop) :
    Works cfg st own (fatalErrorResp message status : Prog α) Q h :=
  works_write (fun hne => absurd rfl hne) fun _ _ => works_fault (by decide)

variable (hserve : MayServe cfg st)
include hserve

/-- The child stores a chunked body in a file without a name. -/
theorem handleNoContentLength_works (fuel : Nat) :
    Works cfg st own (handleNoContentLength fuel) (fun _ _ _ => True) h := by
  refine works_open (c := .mkstemp spoolTemplate) ⟨rfl, .inr ⟨rfl, hserve⟩⟩
    (fun fd hm => absurd hm (Multiset.notMem_zero fd)) rfl fun r _ => ?_
  cases r with
  | error e => exact fatalErrorResp_works _ _ _
  | ok tmp =>
    obtain ⟨path, tmpFd⟩ := tmp
    have htmp : tmpFd ∈ own + {tmpFd} :=
      Multiset.mem_add.mpr (.inr (Multiset.mem_singleton_self tmpFd))
    refine works_path (c := .unlink path) ⟨rfl, .inr ⟨⟨tmpFd, List.mem_cons_self⟩, hserve⟩⟩ rfl rfl
      (fun _ => rfl) fun r t => ?_
    refine Ledger.Owns.seq (Q := fun _ o _ => o = own + {tmpFd}) ?_ ?_
    · refine works_iterate (I := fun _ o _ => o = own + {tmpFd}) ?_ fuel rfl
      rintro ctLen _ u rfl
      refine .ite (fun _ => .pure rfl) fun _ => works_read (fun hne => absurd rfl hne) fun r v => ?_
      rcases r with (_ | ⟨b, buf⟩) | e
      · exact .pure rfl
      · refine Ledger.Owns.seq (Q := fun _ o _ => o = own + {tmpFd}) ?_ ?_
        · refine works_iterate (I := fun _ o _ => o = own + {tmpFd}) ?_ fuel rfl
          rintro offs _ w rfl
          refine .ite (fun _ => works_write (fun _ => htmp) fun r x => ?_) fun _ => .pure rfl
          cases r with
          | wrote wr => exact .pure rfl
          | fail e => exact fatalErrorResp_works _ _ _
        · rintro _ _ w rfl
          exact .pure rfl
      · exact .pure rfl
    · rintro ⟨ctLen, failed⟩ _ u rfl
      refine .ite (fun _ => fatalErrorResp_works _ _ _) fun _ =>
        .ite (fun _ => fatalErrorResp_works _ _ _) fun _ => ?_
      exact works_call (c := .dup2 tmpFd 0) ⟨rfl, trivial⟩
        (fun x hx => Multiset.mem_singleton.mp hx ▸ htmp) rfl (fun _ => rfl) fun _ _ => .pure trivial

/-- The child never comes back. -/
theorem runCgi_works (fuel : Nat) (hdr : RequestHeader) (exePath : Path)
    (peerAddr scriptName pathInfo : Option Bytes) (Q : CgiExecutor → Multiset Fd → History → Prop) :
    Works cfg st own (runCgi fuel cfg hdr exePath peerAddr scriptName pathInfo) Q h := by
  have hlen : ∀ len own h, Works cfg st own (contentLengthOf fuel hdr len)
      (fun _ _ _ => True) h := by
    intro len own h
    unfold contentLengthOf
    split
    · refine (handleNoContentLength_works hserve fuel).seq ?_
      exact fun _ _ _ _ => .pure trivial
    · exact .pure trivial
  unfold runCgi
  dsimp only
  refine works_path (c := .gethostname) ⟨rfl, trivial⟩ rfl rfl (fun _ => rfl) fun hostname t => ?_
  refine (hlen _ _ _).seq ?_
  rintro contentLength own u -
  refine works_path (c := .chdir _) ⟨rfl, trivial⟩ rfl rfl (fun _ => rfl) fun _ v => ?_
  refine works_path (c := .execve _ _ _) ⟨rfl, hserve⟩ rfl rfl (fun _ => rfl) fun _ w => ?_
  exact fatalErrorResp_works _ _ _

/-- The parent keeps one end of each pipe. -/
theorem cgiexeNew_works (fuel : Nat) (hdr : RequestHeader) (exePath : Path)
    (peerAddr scriptName pathInfo : Option Bytes) :
    Works cfg st 0 (cgiexeNew fuel cfg hdr exePath peerAddr scriptName pathInfo)
      (fun c o _ => o = cgiFds c) h := by
  have hnone : ∀ c, descriptorsUsed c = 0 → ∀ (own : Multiset Fd), ∀ fd ∈ descriptorsUsed c, fd ∈ own := by
    intro c hc own fd hm
    rw [hc] at hm
    exact absurd hm (Multiset.notMem_zero fd)
  refine works_open (c := .pipe) ⟨rfl, trivial⟩ (hnone _ rfl _) rfl fun r _ => ?_
  rcases r with - | ⟨toCgiRead, toCgiWrite⟩
  · exact works_fault (by decide)
  refine works_open (c := .pipe) ⟨rfl, trivial⟩ (hnone _ rfl _) rfl fun r _ => ?_
  rcases r with - | ⟨fromCgiRead, fromCgiWrite⟩
  · exact works_fault (by decide)
  have hpipes : (0 + ([toCgiRead, toCgiWrite] : Multiset Fd) +
      ([fromCgiRead, fromCgiWrite] : Multiset Fd)) =
      {toCgiRead} + ({fromCgiWrite} + ({toCgiWrite} + {fromCgiRead})) := by
    simp only [← Multiset.cons_coe, Multiset.coe_nil, ← Multiset.singleton_add]
    abel
  show Works cfg st (0 + ([toCgiRead, toCgiWrite] : Multiset Fd) +
      ([fromCgiRead, fromCgiWrite] : Multiset Fd)) _ _ _
  rw [hpipes]
  refine works_path (c := .fork) ⟨rfl, hserve⟩ rfl rfl (fun _ => rfl) fun r t => ?_
  cases r with
  | fail => exact works_fault (by decide)
  | child =>
    refine works_call (c := .dup2 toCgiRead 0) ⟨rfl, trivial⟩
      (fun x hx => Multiset.mem_add.mpr (.inl hx)) rfl (fun _ => rfl) fun _ _ => ?_
    refine works_close rfl fun t => ?_
    refine works_close (o := {fromCgiWrite} + {fromCgiRead}) (by abel) fun t => ?_
    refine works_call (c := .dup2 fromCgiWrite 1) ⟨rfl, trivial⟩
      (fun x hx => Multiset.mem_add.mpr (.inl hx)) rfl (fun _ => rfl) fun _ _ => ?_
    refine works_close (o := {fromCgiWrite}) (by abel) fun t => ?_
    refine works_close (o := 0) (add_zero _).symm fun t => ?_
    exact runCgi_works hserve fuel hdr exePath _ _ _ _
  | parent =>
    exact works_close rfl fun t => works_close rfl fun u => .pure rfl

end Cgi

section CgiAnswers

theorem cgiWriteRound_works (data : Bytes) (cgiexe : CgiExecutor) (dpr : DataProcessingResult)
    (wrtot : Nat) :
    Works cfg st (cgiFds cgiexe) (cgiWriteRound data (cgiexe, dpr, wrtot))
      (fun r o t => AfterRound (fun x _ => o = cgiFds x.1) (fun x _ => o = cgiFds x.1) r t) h := by
  unfold cgiWriteRound
  dsimp only
  cases hfd : cgiexe.inFd with
  | none => exact .pure rfl
  | some fd =>
    have hown : cgiFds cgiexe = {fd} + fdOf cgiexe.outFd := by rw [cgiFds, hfd, fdOf_some]
    refine .ite (fun _ => ?_) fun _ => .pure rfl
    refine works_write (fun _ => hown ▸ mem_lent fd _) fun r t => ?_
    cases r with
    | wrote wr => exact .pure rfl
    | fail e =>
      refine .ite (fun _ => .pure rfl) fun _ => works_close hown fun u => .pure ?_
      exact (zero_add (fdOf cgiexe.outFd)).symm

theorem cgiexeProcessData_works (fuel : Nat) (cgiexe : CgiExecutor) (data : Bytes)
    (dpr : DataProcessingResult) :
    Works cfg st (cgiFds cgiexe) (cgiexeProcessData fuel cgiexe data dpr)
      (fun r o _ => o = cgiFds r.1) h := by
  refine works_iterate (I := fun x o _ => o = cgiFds x.1) ?_ fuel rfl
  rintro ⟨c, d, wrtot⟩ _ t rfl
  exact cgiWriteRound_works data c d wrtot

theorem cgiexeRequestReadCompleted_works (cgiexe : CgiExecutor) :
    Works cfg st (cgiFds cgiexe) (cgiexeRequestReadCompleted cgiexe)
      (fun c o _ => o = cgiFds c) h :=
  works_closeFd rfl fun _ => .pure (zero_add (fdOf cgiexe.outFd)).symm

theorem cgiexeFree_works (cgiexe : CgiExecutor) :
    Works cfg st (cgiFds cgiexe) (cgiexeFree cgiexe) (fun _ o _ => o = 0) h := by
  refine works_closeFd rfl fun t => ?_
  rw [← bind_pure (closeFd cgiexe.outFd)]
  exact works_closeFd (o := 0) (add_zero _).symm fun u => .pure rfl

theorem cgiResponseHeader_noFile (header : DataHeader) (onlyHead : Bool) :
    Sound Ordinary (Shape none (! onlyHead)) (cgiResponseHeader header onlyHead) := by
  have hfold : ∀ (lines : List (Bytes × Bytes)) resp, Shape none (! onlyHead) resp →
      Sound (pageFault · = true) (Shape none (! onlyHead))
        (lines.foldlM (fun resp line => respAppendHeader resp line.1 line.2) resp) := by
    intro lines
    induction lines with
    | nil => exact fun resp hresp => hresp
    | cons line lines ih =>
      intro resp hresp
      rw [List.foldlM_cons]
      exact (respAppendHeader_sound hresp _ _).bind fun resp hresp => ih resp hresp
  exact Sound.ordinary ((respNew_sound _ _).bind fun resp hresp =>
    (respAppendHeader_sound hresp _ _).bind fun resp hresp => hfold _ resp hresp)

theorem respAppendData_noFile {resp : RespBuf} (hresp : resp.fileDesc = none) (data : Bytes) :
    Sound Ordinary (fun r => r.fileDesc = none) (respAppendData resp data) := by
  unfold respAppendData
  split
  · exact (by decide : Ordinary (.nullPointer .body))
  · exact (ordinary_wraps (mbAppendData_wraps _ _)).bind fun _ _ => hresp

theorem respEnqFile_works {resp : RespBuf} (hresp : resp.fileDesc = none) (fd : Option Fd) :
    Works cfg st (fdOf fd) (respEnqFile resp fd) (fun r o _ => o = respFds r) h := by
  unfold respEnqFile
  rw [hresp]
  exact .pure rfl

/-- The output of the program goes to the response with its descriptor. -/
theorem cgiexeGetResponse_works (fuel : Nat) (cgiexe : CgiExecutor) (dpr : DataProcessingResult) :
    Works cfg st (cgiFds cgiexe) (cgiexeGetResponse fuel cgiexe dpr)
      (fun r o _ => o = cgiFds r.1 + fdsIf respFds r.2.2) h := by
  have hround : Works cfg st (cgiFds cgiexe) (Program.iterate .outOfFuel
      (cgiHeaderRound cgiexe.outFd) fuel cgiexe.cgiHeader) (fun _ o _ => o = cgiFds cgiexe) h := by
    refine works_iterate (I := fun _ o _ => o = cgiFds cgiexe) ?_ fuel rfl
    rintro header _ t rfl
    unfold cgiHeaderRound
    cases hfd : cgiexe.outFd with
    | none => exact .pure rfl
    | some fd =>
      refine works_read (fun _ => ?_) fun r u => ?_
      · rw [cgiFds, hfd, fdOf_some]
        exact Multiset.mem_add.mpr (.inr (Multiset.mem_singleton_self fd))
      · rcases r with (_ | ⟨b, buf⟩) | e
        · exact .pure rfl
        · refine (operates_lift (ordinary_wraps (datahdrAppendData_wraps _ _)).any _ _).seq ?_
          rintro ⟨header, offset⟩ _ v rfl
          cases offset with
          | none => exact .pure rfl
          | some offset => exact .pure rfl
        · exact .pure rfl
  refine hround.seq ?_
  rintro ⟨header, res⟩ _ t rfl
  have hout : cgiFds cgiexe = fdOf cgiexe.outFd + fdOf cgiexe.inFd := add_comm _ _
  cases res with
  | complete rest =>
    refine (works_lift (cgiResponseHeader_noFile header cgiexe.onlyHead)).seq ?_
    rintro resp _ u ⟨rfl, hresp⟩
    refine (works_lift (respAppendData_noFile hresp.1 rest)).seq ?_
    rintro resp' _ v ⟨rfl, hresp'⟩
    rw [hout]
    refine (respEnqFile_works hresp' cgiexe.outFd).part ?_
    rintro resp'' _ w rfl
    refine .pure ?_
    show respFds resp'' + fdOf cgiexe.inFd = fdOf cgiexe.inFd + 0 + respFds resp''
    abel
  | eof =>
    refine works_closeFd hout fun u => ?_
    refine (works_lift (Sound.ordinary (respNew_sound _ _))).seq ?_
    rintro resp _ v ⟨rfl, hresp⟩
    refine (works_lift (Sound.ordinary (respAppendHeader_sound hresp _ _))).seq ?_
    rintro resp' _ w ⟨rfl, hresp'⟩
    refine (works_lift (respAppendData_noFile hresp'.1 _)).seq ?_
    rintro resp'' _ x ⟨rfl, hresp''⟩
    refine .pure ?_
    show fdOf cgiexe.inFd = fdOf cgiexe.inFd + 0 + fdOf resp''.fileDesc
    rw [hresp'', fdOf_none, add_zero, add_zero]
  | failed e =>
    refine .ite (fun _ => .pure (add_zero _).symm) fun _ => works_fault (by decide)

end CgiAnswers

section Handler

/-- A page has no file. -/
theorem works_page {onlyHead : Bool} {p : Prog RespBuf} (hp : Plain (Shape none onlyHead) p) :
    Works cfg st own p (fun resp o _ => o = own + respFds resp) h := by
  refine (works_plain hp).mono ?_
  rintro resp _ t ⟨rfl, hfd, -⟩
  rw [respFds, hfd, fdOf_none, add_zero]

theorem processFileReq_works (hserve : MayServe cfg st) (urlPath : Bytes) (sysPath : Path)
    (onlyHead : Bool) :
    Works cfg st 0 (processFileReq cfg urlPath sysPath onlyHead)
      (fun resp o _ => o = respFds resp) h := by
  refine works_open (c := .openRead sysPath) ⟨rfl, hserve⟩
    (fun fd hm => absurd hm (Multiset.notMem_zero fd)) rfl fun r _ => ?_
  cases r with
  | error e =>
    refine (works_page (printErrorPage_plain cfg e urlPath onlyHead false)).mono ?_
    exact fun resp o t ho => ho.trans (zero_add _)
  | ok fd =>
    refine (works_lift (Sound.ordinary (respNew_sound _ onlyHead))).seq ?_
    rintro resp _ t ⟨rfl, hresp⟩
    refine (works_lift (Sound.ordinary (respAppendHeader_sound hresp _ _))).seq ?_
    rintro resp _ u ⟨rfl, hresp⟩
    refine .ite (fun _ => ?_) fun _ => ?_
    · refine works_close (o := 0) (add_comm _ _) fun v => .pure ?_
      rw [respFds, hresp.1, fdOf_none]
    · split
      · exact works_fault (by decide)
      · refine (operates_lift (ordinary_wraps (mbAppendStrL_wraps _ _)).any _ _).seq ?_
        rintro header _ v rfl
        refine (works_lift (Sound.ordinary (respAppendHeader_sound hresp _ _))).seq ?_
        rintro resp _ w ⟨rfl, hresp⟩
        exact zero_add ({fd} : Multiset Fd) ▸ respEnqFile_works hresp.1 (some fd)

theorem finishIfReady_works (resp : Option RespBuf) :
    Works cfg st (fdsIf respFds resp) (finishIfReady resp)
      (fun r o _ => o = fdsIf rsndrFds r) h := by
  cases resp with
  | none => exact .pure rfl
  | some resp =>
    refine (respFinish_works resp).seq ?_
    rintro r _ t rfl
    exact .pure rfl

variable {rhdr : RequestHeader} (hst : reqhdrGetLoginState rhdr = st)
include hst

theorem filemgrPrintFolderContents_works (fuel : Nat)
    (hlist : reqhdrIsActionAllowed cfg rhdr .listFolder = true) (filemgr : FileManager) :
    Works cfg st own (filemgrPrintFolderContents fuel cfg filemgr rhdr)
      (fun r o _ => o = own ∧ ∀ resp, r = .ok resp → resp.fileDesc = none) h := by
  have hmodifiable : Operates cfg st (folderIsModifiable cfg filemgr.sysPath rhdr) := by
    unfold folderIsModifiable
    split
    · exact operates_pure _
    · intro own h
      refine .ite (fun _ => ?_) fun _ => .pure rfl
      exact works_path (k := fun r => pure r) ⟨rfl, trivial⟩ rfl rfl (fun _ => rfl)
        fun r t => .pure rfl
  have hload : Operates cfg st (loadFolder fuel cfg filemgr.sysPath (reqhdrGetPath rhdr)) := by
    unfold loadFolder
    split
    · exact folderLoadDir_operates fuel _
    · refine (configGetSubSharesForPath_looksUp _).operates.seq fun folder => ?_
      cases folder with
      | none => exact operates_pure _
      | some folder => exact operates_pure _
  refine works_path (c := .note .listing) ⟨rfl, hst ▸ hlist⟩ rfl rfl (fun _ => rfl) fun _ t => ?_
  refine (hmodifiable _ _).seq ?_
  rintro isModifiable _ u rfl
  refine (hload _ _).seq ?_
  rintro folder _ v rfl
  cases folder with
  | error e => exact .pure ⟨rfl, fun resp he => by cases he⟩
  | ok folder =>
    refine (works_plain (printFolderContents_plain cfg _ folder _ _ _ _)).seq ?_
    rintro resp _ w ⟨rfl, hfd, -⟩
    refine .pure ⟨rfl, fun resp' he => ?_⟩
    cases he
    exact hfd

/-- The handler of a folder, and the response without a file. -/
abbrev FolderAnswer (cfg : Config) (st : LoginState) (r : FileManager × RespBuf)
    (own : Multiset Fd) (_ : History) : Prop :=
  own = filemgrFds r.1 + respFds r.2 ∧ FilemgrAllowed cfg st r.1

theorem processFolderReq_works (fuel : Nat) {filemgr : FileManager}
    (hmgr : FilemgrAllowed cfg st filemgr) :
    Works cfg st (filemgrFds filemgr) (processFolderReq fuel cfg rhdr filemgr)
      (FolderAnswer cfg st) h := by
  have hpage : ∀ {p : Prog RespBuf} {m : FileManager} {onlyHead : Bool} {t : History},
      FilemgrAllowed cfg st m → Plain (Shape none onlyHead) p →
        Works cfg st (filemgrFds m) (p >>= fun resp => pure (m, resp)) (FolderAnswer cfg st) t := by
    intro p m onlyHead t hm hp
    refine (works_page hp).seq ?_
    rintro resp _ u rfl
    exact .pure ⟨rfl, hm⟩
  refine Ledger.Owns.seq (Q := fun r o t => Has filemgrFds (FilemgrAllowed cfg st) r.1 o t) ?_ ?_
  · exact .ite (fun _ => filemgrProcessPost_works hst fuel hmgr) fun _ => .pure ⟨rfl, hmgr⟩
  · rintro ⟨m, posted⟩ _ t ⟨rfl, hm⟩
    dsimp only at hm ⊢
    refine .ite (fun _ => hpage hm (printUnauthorized_plain _ _)) fun _ => ?_
    refine .ite (fun hlist => ?_) fun _ => hpage hm (printErrorPage_plain cfg _ _ _ _)
    refine (filemgrPrintFolderContents_works hst fuel hlist m).seq ?_
    rintro r _ u ⟨rfl, hfd⟩
    cases r with
    | ok resp =>
      refine .pure ⟨?_, hm⟩
      rw [respFds, hfd resp rfl, fdOf_none, add_zero]
    | error e => exact hpage hm (printErrorPage_plain cfg _ _ _ _)

/-- A handler that is being made, and the response if it is ready. -/
abbrev HandlerMade (cfg : Config) (st : LoginState) (r : RequestHandler × Option RespBuf)
    (own : Multiset Fd) (_ : History) : Prop :=
  own = handlerFds r.1 + fdsIf respFds r.2 ∧ HandlerAllowed cfg st r.1 ∧ r.1.response = none

theorem serveTarget_works (hserve : MayServe cfg st) (fuel : Nat) (peerAddr : Option Bytes)
    (t : Target) (queryFile : Bytes) (isHeadReq : Bool) :
    Works cfg st 0 (serveTarget fuel cfg ⟨peerAddr, none, none, none⟩ rhdr t queryFile isHeadReq)
      (HandlerMade cfg st) h := by
  have hempty : HandlerAllowed cfg st ⟨peerAddr, none, none, none⟩ := fun m he => by cases he
  unfold serveTarget
  split
  · refine (works_page (printErrorPage_plain cfg _ queryFile isHeadReq false)).seq ?_
    rintro resp _ u rfl
    exact .pure ⟨rfl, hempty, rfl⟩
  · refine .ite (fun _ => ?_) fun _ => ?_
    · refine (works_lift (filemgrNew_owns hst t.sysPath)).seq ?_
      rintro m _ u ⟨rfl, hfds, hm⟩
      refine .pure ⟨?_, fun m' he => ?_, rfl⟩
      · show 0 = filemgrFds m + 0 + 0 + 0
        rw [hfds]
        rfl
      · cases he
        exact hm
    · split
      · exact works_fault (by decide)
      · refine .ite (fun _ => ?_) fun _ => ?_
        · refine (cgiexeNew_works hserve fuel _ _ _ _ _).seq ?_
          rintro c _ u rfl
          refine .pure ⟨?_, fun m he => (by cases he), rfl⟩
          show cgiFds c = 0 + cgiFds c + 0 + 0
          abel
        · refine (processFileReq_works hserve _ _ _).seq ?_
          rintro resp _ u rfl
          refine .pure ⟨?_, hempty, rfl⟩
          show respFds resp = 0 + 0 + 0 + respFds resp
          abel

theorem doProcessRequest_works (fuel : Nat) (peerAddr : Option Bytes) :
    Works cfg st 0 (doProcessRequest fuel cfg ⟨peerAddr, none, none, none⟩ rhdr)
      (HandlerMade cfg st) h := by
  have hempty : HandlerAllowed cfg st ⟨peerAddr, none, none, none⟩ := fun m he => by cases he
  have hpage : ∀ {p : Prog RespBuf} {onlyHead : Bool} {t : History},
      Plain (Shape none onlyHead) p → Works cfg st 0
        (p >>= fun resp => pure ((⟨peerAddr, none, none, none⟩ : RequestHandler), some resp))
        (HandlerMade cfg st) t := by
    intro p onlyHead t hp
    refine (works_page hp).seq ?_
    rintro resp _ u rfl
    exact .pure ⟨rfl, hempty, rfl⟩
  refine .ite (fun _ => ?_) fun hlogin => .ite (fun _ => ?_) fun hallowed =>
    .ite (fun _ => ?_) fun _ => ?_
  · refine works_path (c := .sleep 2) ⟨rfl, trivial⟩ rfl rfl (fun _ => rfl) fun _ t => ?_
    exact hpage (printUnauthorized_plain _ _)
  · exact hpage (printUnauthorized_plain _ _)
  · exact hpage (printMesgPage_plain _ _ _ _ _)
  · have hserve : MayServe cfg st := by
      rw [hst] at hlogin
      have hpage : reqhdrIsActionAllowed cfg rhdr .servePage = true := by simpa using hallowed
      exact ⟨hst ▸ hpage, hlogin⟩
    refine ((lookupTarget_looksUp _).operates _ _).seq ?_
    rintro t _ u rfl
    have hslash : Sound Ordinary Any (lacksSlash t (reqhdrGetPath rhdr)) := by
      refine .ite ?_ trivial
      split
      · exact (by decide : Ordinary (.indexOutOfRange .urlPath))
      · trivial
    refine (operates_lift hslash _ _).seq ?_
    rintro lacks _ v rfl
    refine .ite (fun _ => hpage (printMovedAddSlash_plain _ _)) fun _ => ?_
    refine (chooseIndexFile_operates fuel t _ _).seq ?_
    rintro t' _ w rfl
    exact serveTarget_works hst hserve fuel peerAddr t' _ _

/-- A new handler. -/
theorem reqhdlrNew_works (fuel : Nat) (peerAddr : Option Bytes) :
    Works cfg st 0 (reqhdlrNew fuel cfg rhdr peerAddr)
      (Has handlerFds (HandlerAllowed cfg st)) h := by
  unfold reqhdlrNew
  refine .ite (fun _ => ?_) fun _ => ?_
  · refine (works_lift (Sound.ordinary (respNew_sound _ _))).seq ?_
    rintro resp _ t ⟨rfl, hresp⟩
    refine (works_lift (Sound.ordinary (respAppendHeader_sound hresp _ _))).seq ?_
    rintro resp _ u ⟨rfl, hresp⟩
    have hnone : (0 : Multiset Fd) = fdsIf respFds (some resp) := by
      rw [fdsIf_some, respFds, hresp.1, fdOf_none]
    rw [hnone]
    refine (finishIfReady_works (some resp)).seq ?_
    rintro response _ v rfl
    refine .pure ⟨?_, fun m he => by cases he⟩
    show fdsIf rsndrFds response = 0 + 0 + fdsIf rsndrFds response
    abel
  · refine (doProcessRequest_works hst fuel peerAddr).seq ?_
    rintro ⟨hdlr, resp⟩ _ t ⟨rfl, hallowed, hnone⟩
    rw [add_comm]
    refine (finishIfReady_works resp).part ?_
    rintro response _ u rfl
    refine .pure ⟨?_, hallowed⟩
    dsimp only at hnone
    show fdsIf rsndrFds response + (fdsIf filemgrFds hdlr.filemgr + fdsIf cgiFds hdlr.cgiexe +
      fdsIf rsndrFds hdlr.response) = fdsIf filemgrFds hdlr.filemgr + fdsIf cgiFds hdlr.cgiexe +
      fdsIf rsndrFds response
    rw [hnone, fdsIf_none]
    abel

theorem lateResponse_works (fuel : Nat) {filemgr : Option FileManager}
    (hmgr : ∀ m, filemgr = some m → FilemgrAllowed cfg st m) :
    Works cfg st (fdsIf filemgrFds filemgr) (lateResponse fuel cfg filemgr rhdr)
      (fun r o _ => o = fdsIf filemgrFds r.1 + respFds r.2 ∧
        ∀ m, r.1 = some m → FilemgrAllowed cfg st m) h := by
  cases filemgr with
  | none =>
    refine (works_page (printMesgPage_plain _ _ _ _ _)).seq ?_
    rintro resp _ t rfl
    exact .pure ⟨rfl, fun m he => by cases he⟩
  | some m =>
    refine (processFolderReq_works hst fuel (hmgr m rfl)).seq ?_
    rintro ⟨m', resp⟩ _ t ⟨rfl, hm'⟩
    refine .pure ⟨rfl, fun x he => ?_⟩
    cases he
    exact hm'

/-- The request has been read: its form is dispatched, or the CGI program gets the end of the
body. -/
theorem reqhdlrRequestReadCompleted_works (fuel : Nat) {hdlr : RequestHandler}
    (hallowed : HandlerAllowed cfg st hdlr) :
    Works cfg st (handlerFds hdlr) (reqhdlrRequestReadCompleted fuel cfg hdlr rhdr)
      (Has handlerFds (HandlerAllowed cfg st)) h := by
  unfold reqhdlrRequestReadCompleted
  split
  · rename_i cgiexe hcgi
    have hown : handlerFds hdlr =
        cgiFds cgiexe + (fdsIf filemgrFds hdlr.filemgr + fdsIf rsndrFds hdlr.response) := by
      rw [handlerFds, hcgi, fdsIf_some]
      abel
    rw [hown]
    refine (cgiexeRequestReadCompleted_works cgiexe).part ?_
    rintro c _ t rfl
    refine .pure ⟨?_, hallowed⟩
    show cgiFds c + _ = fdsIf filemgrFds hdlr.filemgr + cgiFds c + fdsIf rsndrFds hdlr.response
    abel
  · exact .pure ⟨rfl, hallowed⟩
  · rename_i hcgi hresponse
    have hown : handlerFds hdlr = fdsIf filemgrFds hdlr.filemgr := by
      rw [handlerFds, hcgi, hresponse, fdsIf_none, fdsIf_none, add_zero, add_zero]
    rw [hown]
    refine (lateResponse_works hst fuel hallowed).seq ?_
    rintro ⟨m, resp⟩ _ t ⟨rfl, hm⟩
    dsimp only at hm ⊢
    rw [add_comm]
    refine (respFinish_works resp).part ?_
    rintro response _ u rfl
    refine .pure ⟨?_, hm⟩
    show rsndrFds response + _ = fdsIf filemgrFds m + fdsIf cgiFds hdlr.cgiexe + rsndrFds response
    rw [hcgi, fdsIf_none]
    abel

end Handler

section Turns

theorem reqhdlrProcessData_works (fuel : Nat) {hdlr : RequestHandler}
    (hallowed : HandlerAllowed cfg st hdlr) (data : Bytes) (dpr : DataProcessingResult) :
    Works cfg st (handlerFds hdlr) (reqhdlrProcessData fuel hdlr data dpr)
      (fun r o t => Has handlerFds (HandlerAllowed cfg st) r.1 o t) h := by
  unfold reqhdlrProcessData
  split
  · rename_i m hmgr
    have hown : handlerFds hdlr =
        filemgrFds m + (fdsIf cgiFds hdlr.cgiexe + fdsIf rsndrFds hdlr.response) := by
      rw [handlerFds, hmgr, fdsIf_some, add_assoc]
    rw [hown]
    refine (filemgrConsumeBodyBytes_works fuel (hallowed m hmgr) data).part ?_
    rintro m' _ t ⟨rfl, hm'⟩
    refine .pure ⟨(add_assoc _ _ _).symm, fun x he => ?_⟩
    cases he
    exact hm'
  · rename_i cgiexe hmgr hcgi
    have hown : handlerFds hdlr =
        cgiFds cgiexe + (fdsIf filemgrFds hdlr.filemgr + fdsIf rsndrFds hdlr.response) := by
      rw [handlerFds, hcgi, fdsIf_some]
      abel
    rw [hown]
    refine (cgiexeProcessData_works fuel cgiexe data dpr).part ?_
    rintro ⟨c, d, n⟩ _ t rfl
    refine .pure ⟨?_, hallowed⟩
    show cgiFds c + _ = fdsIf filemgrFds hdlr.filemgr + cgiFds c + fdsIf rsndrFds hdlr.response
    abel
  · exact .pure ⟨rfl, hallowed⟩

variable {sock : Fd}

theorem awaitCgiResponse_works (fuel : Nat) {hdlr : RequestHandler}
    (hallowed : HandlerAllowed cfg st hdlr) (dpr : DataProcessingResult) :
    Works cfg st (handlerFds hdlr) (awaitCgiResponse fuel hdlr dpr)
      (fun r o t => Has handlerFds (HandlerAllowed cfg st) r.1 o t) h := by
  unfold awaitCgiResponse
  split
  · rename_i cgiexe hresponse hcgi
    have hown : handlerFds hdlr = cgiFds cgiexe + fdsIf filemgrFds hdlr.filemgr := by
      rw [handlerFds, hcgi, hresponse, fdsIf_some, fdsIf_none, add_zero, add_comm]
    rw [hown]
    refine (cgiexeGetResponse_works fuel cgiexe dpr).part ?_
    rintro ⟨c, d, resp⟩ _ t rfl
    dsimp only
    rw [add_comm (cgiFds c), add_assoc]
    refine (finishIfReady_works resp).part ?_
    rintro response _ u rfl
    refine .pure ⟨?_, hallowed⟩
    show fdsIf rsndrFds response + _ =
      fdsIf filemgrFds hdlr.filemgr + cgiFds c + fdsIf rsndrFds response
    abel
  · exact .pure ⟨rfl, hallowed⟩

theorem reqhdlrProgressResponse_works (fuel : Nat) {hdlr : RequestHandler}
    (hallowed : HandlerAllowed cfg st hdlr) (dpr : DataProcessingResult) :
    Works cfg st (handlerFds hdlr + {sock}) (reqhdlrProgressResponse fuel hdlr sock dpr)
      (fun r o _ => o = handlerFds r.1 + {sock} ∧ HandlerAllowed cfg st r.1) h := by
  refine (awaitCgiResponse_works fuel hallowed dpr).part ?_
  rintro ⟨hdlr, dpr⟩ _ t ⟨rfl, hallowed⟩
  dsimp only at hallowed ⊢
  cases hresponse : hdlr.response with
  | none => exact .pure ⟨rfl, hallowed⟩
  | some response =>
    have hown : handlerFds hdlr + {sock} =
        {sock} + rsndrFds response + (fdsIf filemgrFds hdlr.filemgr + fdsIf cgiFds hdlr.cgiexe) := by
      rw [handlerFds, hresponse, fdsIf_some]
      abel
    rw [hown]
    refine (rsndrSend_works fuel response dpr).part ?_
    rintro ⟨response', dpr', isFinished⟩ _ u rfl
    refine .pure ⟨?_, hallowed⟩
    show {sock} + rsndrFds response' + _ =
      fdsIf filemgrFds hdlr.filemgr + fdsIf cgiFds hdlr.cgiexe + rsndrFds response' + {sock}
    abel

theorem freeIfAny_works {fds : α → Multiset Fd} {free : α → Prog Unit} {obj : Option α}
    (hfree : ∀ a, obj = some a → Works cfg st (fds a) (free a) (fun _ o _ => o = 0) h) :
    Works cfg st (fdsIf fds obj) (freeIfAny free obj) (fun _ o _ => o = 0) h := by
  cases obj with
  | none => exact .pure rfl
  | some a => exact hfree a rfl

/-- A handler that is freed owns nothing any more. -/
theorem reqhdlrFree_works {hdlr : RequestHandler} (hallowed : HandlerAllowed cfg st hdlr) :
    Works cfg st (handlerFds hdlr) (reqhdlrFree hdlr) (fun _ o _ => o = 0) h := by
  rw [handlerFds, add_assoc]
  refine (freeIfAny_works fun m he => filemgrFree_works (hallowed m he)).part ?_
  rintro _ _ t rfl
  rw [zero_add]
  refine (freeIfAny_works fun c _ => cgiexeFree_works c).part ?_
  rintro _ _ u rfl
  rw [zero_add]
  exact freeIfAny_works fun r _ => rsndrFree_works r

end Turns

end FilemanagerHttpd.Audit
