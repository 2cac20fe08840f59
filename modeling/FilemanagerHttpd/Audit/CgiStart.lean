import FilemanagerHttpd.Audit.Lookups
import FilemanagerHttpd.Audit.HeadAnswers

/-!
# The start of a CGI program

Until the pipes are made, a request looks files up and closes only the directory that it has
opened. The socket is still open then, so the pipes have other descriptors.
-/

namespace FilemanagerHttpd.Audit

open Library Server

/-- Calls that leave a descriptor open. -/
def LeavesOpen (sock : Fd) {α : Type} (p : Prog α) : Prop :=
  Within (S := sys) (fun c => c ≠ .close sock ∧ c ≠ .closedir sock) (fun _ => True) Any p

variable {cfg : Config} {sock : Fd} {α : Type}

theorem LooksUp.leavesOpen {p : Prog α} (hp : LooksUp p) : LeavesOpen sock p := by
  refine hp.mono (fun c hc => ?_) (fun _ _ => trivial) fun _ h => h
  obtain ⟨path, rfl⟩ := hc
  exact ⟨(fun he => by cases he), fun he => by cases he⟩

theorem LeavesOpen.wp {p : Prog α} (hp : LeavesOpen sock p) {h : History}
    (hs : sock ∈ openFds h) : wp posix .none p (fun _ h' => sock ∈ openFds h') h := by
  refine wp_mono (Within.wp hp (I := fun h => sock ∈ openFds h) (fun _ _ _ _ => trivial)
    (fun _ _ _ _ => trivial) ?_ hs) fun _ _ h => h.2
  rintro c h₁ r h₂ ⟨hclose, hclosedir⟩ hs ⟨-, rfl⟩
  exact mem_openFds_cons hs (not_mem_closes r hclose hclosedir)

section Lookup

/-- The search for an index file closes only the directory that it has opened. -/
theorem configGetIndexFile_open (fuel : Nat) (dir : Path) {h : History}
    (hs : sock ∈ openFds h) :
    wp posix .none (configGetIndexFile fuel cfg dir) (fun _ h' => sock ∈ openFds h') h := by
  refine (wp_perform _ _ _ _).mpr ⟨trivial, fun r hr => ?_⟩
  have hopen : sock ∈ openFds (⟨.opendir dir, r⟩ :: h) :=
    mem_openFds_cons hs (not_mem_closes r (fun he => by cases he) fun he => by cases he)
  cases r with
  | error e => exact hopen
  | ok d =>
    have hne : d ≠ sock := fun he => hr (he ▸ hs)
    have hround : ∀ dirName best, LeavesOpen sock (indexFileRound cfg dirName d best) := by
      rintro dirName ⟨bestMatchIdx, bestIdxFile⟩
      refine .ite (.pure trivial) (within_perform
        ⟨(fun he => by cases he), fun he => by cases he⟩ fun name => ?_)
      cases name with
      | none => exact .pure trivial
      | some name =>
        refine .ite (.pure trivial) ?_
        split
        · exact .pure trivial
        · refine within_perform ⟨(fun he => by cases he), fun he => by cases he⟩ fun st => ?_
          cases st with
          | error e => exact .pure trivial
          | ok st => exact .ite (.pure trivial) (.pure trivial)
    have hsearch : LeavesOpen sock (do
        let filePathName ← (mbNewWithStr dir : Except Fault MemBuf)
        let filePathName ← mbEnsureEndsWithSlash filePathName
        let best ← Program.iterate .outOfFuel (indexFileRound cfg filePathName d) fuel
          (cfg.indexPatterns.length, none)
        perform (.closedir d)
        return (Except.ok best : Except Errno (Option Path))) := by
      refine Within.bind (.lift (Sound.always _)) fun mb _ => ?_
      refine Within.bind (.lift (Sound.always _)) fun mb' _ => ?_
      refine Within.bind (Within.loop trivial (fun best => hround mb' best) fuel _) fun best _ => ?_
      refine within_perform ⟨(fun he => by cases he), fun he => hne ?_⟩ fun _ => .pure trivial
      injection he
    exact hsearch.wp hopen

theorem chooseIndexFile_open (fuel : Nat) (t : Target) {h : History} (hs : sock ∈ openFds h) :
    wp posix .none (chooseIndexFile fuel cfg t) (fun _ h' => sock ∈ openFds h') h := by
  unfold chooseIndexFile
  split
  · refine wp_seq (configGetIndexFile_open fuel _ hs) ?_
    intro r h' hs'
    split
    · exact hs'
    · exact hs'
    · exact hs'
  · exact hs

end Lookup

section Start

variable {rhdr : RequestHeader}

/-- A handler that works with a CGI program, and does not write to the socket for it. -/
structure WithCgi (sock : Fd) (hdlr : RequestHandler) (cgiexe : CgiExecutor) : Prop where
  no_filemgr : hdlr.filemgr = none
  cgi : hdlr.cgiexe = some cgiexe
  apart : cgiexe.inFd ≠ some sock

/-- A CGI program that has just been started: nothing has been read from it. -/
structure FreshCgi (sock : Fd) (rhdr : RequestHeader) (cgiexe : CgiExecutor) : Prop where
  onlyHead : cgiexe.onlyHead = (reqhdrGetMethod rhdr == ascii "HEAD")
  header : cgiexe.cgiHeader = datahdrNew
  apart : cgiexe.inFd ≠ some sock

/-- If the handler has a CGI program, it has just been started, and there is no response yet. -/
def StartsCgi (sock : Fd) (rhdr : RequestHeader) {β : Type} (hdlr : RequestHandler)
    (resp : Option β) : Prop :=
  ∀ cgiexe, hdlr.cgiexe = some cgiexe →
    hdlr.filemgr = none ∧ FreshCgi sock rhdr cgiexe ∧ resp = none

theorem startsCgi_none {β : Type} {hdlr : RequestHandler} (hnone : hdlr.cgiexe = none)
    (resp : Option β) : StartsCgi sock rhdr hdlr resp := by
  intro cgiexe he
  rw [hnone] at he
  cases he

/-- A pipe has other descriptors than what is open. -/
theorem cgiexeNew_apart (fuel : Nat) (exePath : Path) (peerAddr scriptName pathInfo : Option Bytes)
    {h : History} (hs : sock ∈ openFds h) :
    wp posix .none (cgiexeNew fuel cfg rhdr exePath peerAddr scriptName pathInfo)
      (fun cgiexe _ => FreshCgi sock rhdr cgiexe) h := by
  have hinFd : wp posix .none (cgiexeNew fuel cfg rhdr exePath peerAddr scriptName pathInfo)
      (fun cgiexe _ => cgiexe.inFd ≠ some sock) h := by
    refine (wp_perform _ _ _ _).mpr ⟨trivial, fun r hr => ?_⟩
    rcases r with - | ⟨toCgiRead, toCgiWrite⟩
    · trivial
    have hne : some toCgiWrite ≠ some sock := by
      intro he
      exact hr.2.1 (Option.some.inj he ▸ hs)
    refine (wp_perform _ _ _ _).mpr ⟨trivial, fun r _ => ?_⟩
    rcases r with - | ⟨fromCgiRead, fromCgiWrite⟩
    · trivial
    refine (wp_perform _ _ _ _).mpr ⟨trivial, fun r _ => ?_⟩
    cases r with
    | fail => trivial
    | child =>
      show wp posix .none (perform (.dup2 toCgiRead 0) >>= _) _ _
      refine wp_mono (wp_of_yields (Q := fun _ => False) ?_ _) fun _ _ h => h.1.elim
      refine Yields.seq fun _ => Yields.seq fun _ => Yields.seq fun _ => Yields.seq fun _ =>
        Yields.seq fun _ => Yields.seq fun _ => ?_
      exact runCgi_never fuel rhdr exePath _ _ _
    | parent =>
      exact (wp_perform _ _ _ _).mpr ⟨trivial, fun _ _ =>
        (wp_perform _ _ _ _).mpr ⟨trivial, fun _ _ => hne⟩⟩
  have hboth := wp_and hinFd
    (wp_of_yields (cgiexeNew_started fuel rhdr exePath peerAddr scriptName pathInfo) h)
  refine wp_weaken hboth (fun _ _ _ => trivial) (fun _ _ _ => trivial) ?_
  rintro cgiexe _ ⟨hne, ⟨honly, -, hheader⟩, -⟩
  exact ⟨honly, hheader, hne⟩

theorem serveTarget_starts (fuel : Nat) {hdlr : RequestHandler} (hnone : hdlr.cgiexe = none)
    (hmgr : hdlr.filemgr = none) (t : Target) (q : Bytes) (isHeadReq : Bool) {h : History}
    (hs : sock ∈ openFds h) :
    wp posix .none (serveTarget fuel cfg hdlr rhdr t q isHeadReq)
      (fun x _ => StartsCgi sock rhdr x.1 x.2) h := by
  have hother : ∀ {p : Prog (RequestHandler × Option RespBuf)},
      Yields (S := sys) (fun x => x.1.cgiexe = none) p →
        wp posix .none p (fun x _ => StartsCgi sock rhdr x.1 x.2) h := by
    intro p hp
    exact wp_mono (wp_of_yields hp h) fun x _ hx => startsCgi_none hx.1 x.2
  unfold serveTarget
  split
  · exact hother (Yields.seq fun _ => .pure hnone)
  · split
    · exact hother (Yields.seq fun _ => .pure hnone)
    · split
      · trivial
      · split
        · refine wp_seq (cgiexeNew_apart fuel _ _ _ _ hs) ?_
          intro cgiexe h' hfresh c he
          rw [← Option.some.inj he]
          exact ⟨hmgr, hfresh, rfl⟩
        · exact hother (Yields.seq fun _ => .pure hnone)

theorem doProcessRequest_starts (fuel : Nat) {hdlr : RequestHandler} (hnone : hdlr.cgiexe = none)
    (hmgr : hdlr.filemgr = none) {h : History} (hs : sock ∈ openFds h) :
    wp posix .none (doProcessRequest fuel cfg hdlr rhdr)
      (fun x _ => StartsCgi sock rhdr x.1 x.2) h := by
  have hpage : ∀ (p : Prog RespBuf) (h : History), wp posix .none
      (p >>= fun resp => pure (hdlr, some resp)) (fun x _ => StartsCgi sock rhdr x.1 x.2) h := by
    intro p h
    refine wp_seq (wp_of_yields (Yields.any p) h) ?_
    exact fun resp _ _ => startsCgi_none hnone _
  unfold doProcessRequest
  dsimp only
  split
  · exact (wp_perform _ _ _ _).mpr ⟨trivial, fun _ _ => hpage _ _⟩
  split
  · exact hpage _ _
  split
  · exact hpage _ _
  refine wp_seq ((lookupTarget_looksUp _).leavesOpen.wp hs) ?_
  intro t h₁ hs₁
  refine wp_seq (wp_lift (Q := fun _ h' => h' = h₁) (fun _ => trivial) fun _ _ => rfl) ?_
  rintro lacks _ rfl
  split
  · exact hpage _ _
  refine wp_seq (chooseIndexFile_open fuel t hs₁) ?_
  intro t h₂ hs₂
  exact serveTarget_starts fuel hnone hmgr t _ _ hs₂

/-- The handler of a request whose socket is open. -/
theorem reqhdlrNew_starts (fuel : Nat) (peerAddr : Option Bytes) {h : History}
    (hs : sock ∈ openFds h) :
    wp posix .none (reqhdlrNew fuel cfg rhdr peerAddr)
      (fun hdlr _ => StartsCgi sock rhdr hdlr hdlr.response) h := by
  unfold reqhdlrNew
  dsimp only
  split
  · refine wp_mono (wp_of_yields (Q := fun hdlr => hdlr.cgiexe = none) ?_ h) ?_
    · exact Yields.seq fun _ => Yields.seq fun _ => Yields.seq fun _ => .pure rfl
    · exact fun hdlr _ hx => startsCgi_none hx.1 _
  · refine wp_seq (doProcessRequest_starts fuel rfl rfl hs) ?_
    rintro ⟨hdlr, resp⟩ h₁ hstarts
    cases resp with
    | none => exact fun cgiexe he => ⟨(hstarts cgiexe he).1, (hstarts cgiexe he).2.1, rfl⟩
    | some resp =>
      refine wp_seq (wp_of_yields (Yields.any _) h₁) ?_
      intro response _ _ cgiexe he
      cases (hstarts cgiexe he).2.2

end Start

end FilemanagerHttpd.Audit
