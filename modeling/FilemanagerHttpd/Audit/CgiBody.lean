import FilemanagerHttpd.Library.OpenFiles
import FilemanagerHttpd.Audit.SenderRun
import FilemanagerHttpd.Server.CgiExecutor
import FilemanagerHttpd.Server.Environment

/-!
# The body that a CGI program reads

The program reads its standard input: the pipe that the server writes the request body to, or
a temporary file with the body of a chunked request. `CONTENT_LENGTH` comes from the header
lines, or is the length of that file.
-/

namespace FilemanagerHttpd.Audit

open Library Server

/-- How the calls of a CGI process use its descriptors. The process is alone with its open
files, except for the other ends of its streams, and no call fails on an open descriptor. -/
def childWorld : World sys (Descriptors Byte) := fun t c r t' =>
  match c, r with
  | .read fd count, .got data =>
    t.refers fd ≠ none ∧ data <+: t.ahead fd ∧ data.length ≤ count ∧
      (data = [] → t.ahead fd = [] ∨ count = 0) ∧ t' = t.modify fd (·.skip data.length)
  | .read fd _, .fail _ => t.refers fd = none ∧ t' = t
  | .write fd data, .wrote n =>
    t.refers fd ≠ none ∧ n ≤ data.length ∧ t' = t.modify fd (·.put (data.take n))
  | .write fd _, .fail _ => t.refers fd = none ∧ t' = t
  | .mkstemp _, .ok (_, fd) =>
    t.refers fd = none ∧ ∃ d, (∀ fd', t.refers fd' ≠ some d) ∧ t' = t.openAt fd d (.regular [] 0)
  | .mkstemp _, .error _ => False
  | .dup2 old new, _ => t' = t.dup old new
  | .close fd, _ => t' = t.close fd
  | _, _ => t' = t

/-- A condition on the descriptors and the environment of the program that is executed. -/
def execDuty (P : Descriptors Byte → List Bytes → Prop) : Duty sys Fault (Descriptors Byte) where
  guard c t := match c with
    | .execve _ _ envp => P t envp
    | _ => True
  faulted _ _ := True

section Spool

variable {P : Descriptors Byte → List Bytes → Prop}

theorem fatalErrorResp_child {α : Type} (message : Bytes) (status : Option Bytes)
    (Q : α → Descriptors Byte → Prop) (t : Descriptors Byte) :
    wp childWorld (execDuty P) (fatalErrorResp message status) Q t :=
  ⟨trivial, fun _ _ _ => trivial⟩

/-- What has been read of the body is in the temporary file, whose offset is at its end. -/
structure SpoolState (body : Bytes) (tmpFd d₀ d₁ : Nat) (contents : Bytes)
    (t : Descriptors Byte) : Prop where
  apart : d₁ ≠ d₀
  stdin : ∃ rest, body = contents ++ rest ∧ t.Has 0 d₀ (.stream rest)
  file : t.Has tmpFd d₁ (.regular contents contents.length)

/-- Writing a piece to the file. -/
theorem spoolWrite_child {tmpFd d₀ d₁ : Nat} {rest contents buf : Bytes} {t : Descriptors Byte}
    (hd : d₁ ≠ d₀) (hin : t.Has 0 d₀ (.stream rest))
    (hfile : t.Has tmpFd d₁ (.regular contents contents.length)) (fuel : Nat) :
    wp childWorld (execDuty P) (Program.iterate .outOfFuel (spoolWriteRound tmpFd buf) fuel 0)
      (fun _ t' => t'.Has 0 d₀ (.stream rest) ∧
        t'.Has tmpFd d₁ (.regular (contents ++ buf) (contents ++ buf).length)) t := by
  refine wp_iterate (I := fun offs t' => offs ≤ buf.length ∧ t'.Has 0 d₀ (.stream rest) ∧
      t'.Has tmpFd d₁ (.regular (contents ++ buf.take offs) (contents ++ buf.take offs).length))
    (fun _ => trivial) ?_ fuel ⟨Nat.zero_le _, hin, by simpa using hfile⟩
  rintro offs t' ⟨hle, hin, hfile⟩
  unfold spoolWriteRound
  by_cases hlt : offs < buf.length
  · rw [if_pos hlt]
    refine ⟨trivial, fun r t₂ hw => ?_⟩
    cases r with
    | fail e => exact absurd (hfile.1.symm.trans hw.1) nofun
    | wrote wr =>
      obtain ⟨-, hwr, rfl⟩ := hw
      have hlen : (buf.drop offs).length = buf.length - offs := List.length_drop
      refine ⟨by omega, hfile.modify_other hin hd.symm _, ?_⟩
      have hput := hfile.modify (·.put ((buf.drop offs).take wr))
      rw [OpenFile.put_at_end, List.append_assoc] at hput
      rw [List.take_add]
      exact hput
  · rw [if_neg hlt]
    have hall : buf.take offs = buf := List.take_of_length_le (by omega)
    rw [hall] at hfile
    exact ⟨hin, hfile⟩

/-- What the loops have stored when they end: the whole body, unless it is too long. -/
def Stored (body : Bytes) (tmpFd d₀ d₁ : Nat) (r : Nat × Bool) (t : Descriptors Byte) : Prop :=
  r.2 = false ∧ ∃ contents, r.1 = contents.length ∧ SpoolState body tmpFd d₀ d₁ contents t ∧
    (r.1 ≤ spoolLimit → contents = body)

theorem spoolReadRound_child {body : Bytes} {tmpFd d₀ d₁ : Nat} (fuel : Nat) {contents : Bytes}
    {t : Descriptors Byte} (h : SpoolState body tmpFd d₀ d₁ contents t) :
    wp childWorld (execDuty P) (spoolReadRound fuel tmpFd contents.length)
      (AfterRound (fun ctLen t' => ∃ contents, ctLen = contents.length ∧
          SpoolState body tmpFd d₀ d₁ contents t') (Stored body tmpFd d₀ d₁)) t := by
  obtain ⟨rest, hbody, hin⟩ := h.stdin
  unfold spoolReadRound
  by_cases hlimit : spoolLimit < contents.length
  · rw [if_pos hlimit]
    exact ⟨rfl, contents, rfl, h, fun hle => absurd hlimit (Nat.not_lt.mpr hle)⟩
  rw [if_neg hlimit, perform_bind, wp_call]
  refine ⟨trivial, fun r t₁ hw => ?_⟩
  cases r with
  | fail e => exact absurd (hin.1.symm.trans hw.1) nofun
  | got data =>
    obtain ⟨-, hbegin, -, hend, rfl⟩ := hw
    rw [hin.ahead, OpenFile.ahead] at hbegin hend
    obtain ⟨rest', rfl⟩ := hbegin
    have hin' := hin.modify (·.skip data.length)
    have hfile := hin.modify_other h.file h.apart (·.skip data.length)
    have hskip : (OpenFile.stream (data ++ rest')).skip data.length = .stream rest' := by
      rw [OpenFile.skip, List.drop_left]
    rw [hskip] at hin'
    cases data with
    | nil =>
      have hrest : rest' = [] := (hend rfl).resolve_right (by decide)
      refine ⟨rfl, contents, rfl, ⟨h.apart, ⟨rest', hbody, hin'⟩, hfile⟩, fun _ => ?_⟩
      rw [hbody, hrest, List.append_nil, List.append_nil]
    | cons b data =>
      refine wp_seq (spoolWrite_child h.apart hin' hfile fuel) ?_
      rintro _ t₂ ⟨hin₂, hfile₂⟩
      refine ⟨contents ++ b :: data, (List.length_append).symm, h.apart, ⟨rest', ?_, hin₂⟩, hfile₂⟩
      rw [hbody, List.append_assoc]

/-- The stored body is behind the offset that the program starts with. -/
theorem handleNoContentLength_child {body : Bytes} {d₀ : Nat} (fuel : Nat)
    {t : Descriptors Byte} (hin : t.Has 0 d₀ (.stream body)) :
    wp childWorld (execDuty P) (handleNoContentLength fuel)
      (fun len t' => t'.ahead 0 = [] ∧ len = decimal body.length) t := by
  simp only [handleNoContentLength, perform_bind, wp_call]
  refine ⟨trivial, fun r t₁ hw => ?_⟩
  cases r with
  | error e => exact hw.elim
  | ok tmp =>
    obtain ⟨path, tmpFd⟩ := tmp
    obtain ⟨hfd, d₁, hd, rfl⟩ := hw
    have hfd₀ : 0 ≠ tmpFd := by
      rintro rfl
      cases hin.1.symm.trans hfd
    have hd₀ : d₀ ≠ d₁ := by
      rintro rfl
      exact hd 0 hin.1
    refine ⟨trivial, fun _ t₂ hw => ?_⟩
    obtain rfl : t₂ = t.openAt tmpFd d₁ (.regular [] 0) := hw
    have hstart : SpoolState body tmpFd d₀ d₁ [] (t.openAt tmpFd d₁ (.regular [] 0)) :=
      ⟨hd₀.symm, ⟨body, rfl, hin.openAt hfd₀ hd₀⟩, Descriptors.has_openAt _ _ _ _⟩
    have hloop : wp childWorld (execDuty P) (Program.iterate .outOfFuel
        (spoolReadRound fuel tmpFd) fuel 0) (Stored body tmpFd d₀ d₁)
        (t.openAt tmpFd d₁ (.regular [] 0)) := by
      refine wp_iterate (I := fun ctLen t' => ∃ contents, ctLen = contents.length ∧
        SpoolState body tmpFd d₀ d₁ contents t') (fun _ => trivial) ?_ fuel ⟨[], rfl, hstart⟩
      rintro _ t' ⟨contents, rfl, hs⟩
      exact spoolReadRound_child fuel hs
    refine wp_seq hloop ?_
    rintro ⟨_, failed⟩ t' ⟨hfailed, contents, rfl, hs, hall⟩
    obtain rfl : failed = false := hfailed
    simp only [Bool.false_eq_true, if_false]
    by_cases hlimit : spoolLimit < contents.length
    · rw [if_pos hlimit]
      exact fatalErrorResp_child _ _ _ _
    · rw [if_neg hlimit]
      refine ⟨trivial, fun _ t₃ hw => ?_⟩
      obtain rfl : t₃ = t'.dup tmpFd 0 := hw
      refine ⟨?_, by rw [hall (Nat.not_lt.mp hlimit)]⟩
      rw [Descriptors.ahead_dup, hs.file.ahead, OpenFile.ahead_at_end]

end Spool

section Environment

/-- `getenv`. -/
def getenv (envp : List Bytes) (name : Bytes) : Option Bytes :=
  (envp.find? fun e => (name ++ [equalsSign]).isPrefixOf e).map fun e => e.drop (name.length + 1)

/-- No entry for a variable. -/
def Unset (name : Bytes) (envp : List Bytes) : Prop :=
  ∀ e ∈ envp, ¬ (name ++ [equalsSign]) <+: e

/-- Texts that differ where both have bytes. -/
theorem not_prefix_of_take_ne {p n : Bytes} (h : p.take n.length ≠ n.take p.length) (rest : Bytes) :
    ¬ p <+: n ++ rest := by
  rintro ⟨s, hs⟩
  have ht := congrArg (fun l => (l.take n.length).take p.length) hs
  rw [List.take_take, Nat.min_comm, ← List.take_take, List.take_left, List.take_left] at ht
  exact h ht

theorem Unset.appendEnv {name envName : Bytes} {envp : List Bytes} (h : Unset name envp)
    (hne : (name ++ [equalsSign]).take envName.length ≠ envName.take (name ++ [equalsSign]).length)
    (value : Bytes) : Unset name (appendEnv envp envName value) := by
  intro e he
  rcases List.mem_append.mp he with he | he
  · exact h e he
  · rw [List.mem_singleton.mp he, List.append_assoc]
    exact not_prefix_of_take_ne hne _

theorem Unset.appendEnvIf {name envName : Bytes} {envp : List Bytes} (h : Unset name envp)
    (hne : (name ++ [equalsSign]).take envName.length ≠ envName.take (name ++ [equalsSign]).length)
    (value : Option Bytes) : Unset name (appendEnvIf envp envName value) := by
  cases value with
  | none => exact h
  | some value => exact h.appendEnv hne value

/-- A variable that is put once has its value. -/
theorem getenv_appendEnvIf {name : Bytes} {envp : List Bytes} (h : Unset name envp)
    (value : Option Bytes) : getenv (appendEnvIf envp name value) name = value := by
  have hnone : (envp.find? fun e => (name ++ [equalsSign]).isPrefixOf e) = none := by
    rw [List.find?_eq_none]
    intro e he hp
    exact h e he (List.isPrefixOf_iff_prefix.mp hp)
  cases value with
  | none => rw [appendEnvIf, getenv, hnone]; rfl
  | some value =>
    have hself : (name ++ [equalsSign]).isPrefixOf (name ++ [equalsSign] ++ value) = true :=
      List.isPrefixOf_iff_prefix.mpr (List.prefix_append _ _)
    rw [appendEnvIf, appendEnv, getenv, List.find?_append, hnone, Option.none_or,
      List.find?_cons_of_pos hself, Option.map_some]
    simp

def contentLengthName : Bytes := ascii "CONTENT_LENGTH"

/-- The length that the header lines announce to the program: the last one. -/
def announcedLength (hdr : RequestHeader) : Option Bytes :=
  (((requestHeaders hdr).filter fun h => eqIgnoreCase h.1 (ascii "Content-Length")).getLast?).map
    (·.2)

theorem not_contentLength {name : Bytes} (h : eqIgnoreCase name (ascii "Content-Type") = true) :
    eqIgnoreCase name (ascii "Content-Length") = false := by
  simp only [eqIgnoreCase, beq_iff_eq, beq_eq_false_iff_ne] at h ⊢
  rw [h]
  decide

theorem putRequestHeader_unset {env : List Bytes × Option Bytes}
    (h : Unset contentLengthName env.1) (header : Bytes × Bytes) :
    Unset contentLengthName (putRequestHeader env header).1 := by
  unfold putRequestHeader
  split_ifs
  · exact h.appendEnv (by decide) _
  · exact h
  · unfold putHeader
    split_ifs
    · exact h
    · intro e he
      rcases List.mem_append.mp he with he | he
      · exact h e he
      · rw [List.mem_singleton.mp he, List.append_assoc, List.append_assoc]
        exact not_prefix_of_take_ne (by decide) _

theorem putRequestHeader_length (env : List Bytes × Option Bytes) (header : Bytes × Bytes) :
    (putRequestHeader env header).2 =
      if eqIgnoreCase header.1 (ascii "Content-Length") then some header.2 else env.2 := by
  unfold putRequestHeader
  split_ifs with htype hlen hlen
  · rw [not_contentLength htype] at hlen
    cases hlen
  · rfl
  · rfl
  · rfl

/-- The environment from the header lines, and the length among them. -/
theorem putRequestHeaders (hdrs : List (Bytes × Bytes)) {env : List Bytes × Option Bytes}
    (h : Unset contentLengthName env.1) :
    Unset contentLengthName (hdrs.foldl putRequestHeader env).1 ∧
      (hdrs.foldl putRequestHeader env).2 =
        (((hdrs.filter fun h => eqIgnoreCase h.1 (ascii "Content-Length")).getLast?).map
          (·.2)).or env.2 := by
  induction hdrs generalizing env with
  | nil => exact ⟨h, rfl⟩
  | cons header hdrs ih =>
    obtain ⟨hunset, hlen⟩ := ih (putRequestHeader_unset h header)
    refine ⟨hunset, ?_⟩
    rw [List.foldl_cons, hlen, putRequestHeader_length, List.filter_cons]
    by_cases hheader : eqIgnoreCase header.1 (ascii "Content-Length") = true
    · rw [if_pos hheader, if_pos hheader, List.getLast?_cons]
      cases (hdrs.filter fun h => eqIgnoreCase h.1 (ascii "Content-Length")).getLast? <;> rfl
    · rw [if_neg hheader, if_neg hheader]

theorem cgiEnvironment_unset (cfg : Config) (hdr : RequestHeader)
    (peerAddr scriptName pathInfo : Option Bytes) :
    Unset contentLengthName (cgiEnvironment cfg hdr peerAddr scriptName pathInfo) := by
  have hnil : Unset contentLengthName [] := fun e he => absurd he List.not_mem_nil
  unfold cgiEnvironment
  refine Unset.appendEnvIf ?_ (by decide) _
  refine Unset.appendEnv ?_ (by decide) _
  refine Unset.appendEnvIf (Unset.appendEnvIf ?_ (by decide) _) (by decide) _
  refine Unset.appendEnvIf (Unset.appendEnvIf (Unset.appendEnvIf ?_ (by decide) _) (by decide) _)
    (by decide) _
  exact hnil.appendEnv (by decide) _

end Environment

section Child

/-- What the program finds: on its standard input, and in `CONTENT_LENGTH`. -/
def ProgramFinds (stdin : Bytes) (length : Option Bytes) (t : Descriptors Byte)
    (envp : List Bytes) : Prop :=
  t.ahead 0 = stdin ∧ getenv envp contentLengthName = length

/-- Whether the body is stored in a temporary file first. -/
def spooled (hdr : RequestHeader) : Bool :=
  (announcedLength hdr).isNone && reqhdrIsChunkedTransferEncoding hdr

theorem runCgi_child (fuel : Nat) (cfg : Config) (hdr : RequestHeader) (exePath : Path)
    (peerAddr scriptName pathInfo : Option Bytes) {body : Bytes} {d₀ : Nat} {t : Descriptors Byte}
    (hin : t.Has 0 d₀ (.stream body)) :
    wp childWorld (execDuty (ProgramFinds (if spooled hdr then [] else body)
        (if spooled hdr then some (decimal body.length) else announcedLength hdr)))
      (runCgi fuel cfg hdr exePath peerAddr scriptName pathInfo) (fun _ _ => True) t := by
  have hheaders := @putRequestHeaders (requestHeaders hdr)
    (cgiEnvironment cfg hdr peerAddr scriptName pathInfo, none)
    (cgiEnvironment_unset cfg hdr peerAddr scriptName pathInfo)
  unfold runCgi
  generalize (requestHeaders hdr).foldl putRequestHeader
    (cgiEnvironment cfg hdr peerAddr scriptName pathInfo, none) = env at hheaders ⊢
  obtain ⟨envp, contentLength⟩ := env
  obtain ⟨hunset, hlen⟩ := hheaders
  rw [Option.or_none] at hlen
  obtain rfl : contentLength = announcedLength hdr := hlen
  simp only [perform_bind, wp_call]
  refine ⟨trivial, fun hostname t₁ hw => ?_⟩
  obtain rfl : t₁ = t := hw
  have hlength : wp childWorld (execDuty (ProgramFinds (if spooled hdr then [] else body)
        (if spooled hdr then some (decimal body.length) else announcedLength hdr)))
      (contentLengthOf fuel hdr (announcedLength hdr))
      (fun len t' => t'.ahead 0 = (if spooled hdr then [] else body) ∧
        len = if spooled hdr then some (decimal body.length) else announcedLength hdr) t₁ := by
    have hahead : t₁.ahead 0 = body := hin.ahead
    unfold contentLengthOf spooled
    cases announcedLength hdr with
    | some len => exact ⟨hahead, rfl⟩
    | none =>
      cases reqhdrIsChunkedTransferEncoding hdr with
      | false => exact ⟨hahead, rfl⟩
      | true =>
        refine wp_seq (handleNoContentLength_child fuel hin) ?_
        rintro len t' ⟨hnil, rfl⟩
        exact ⟨hnil, rfl⟩
  refine wp_seq hlength ?_
  rintro len t₂ ⟨hstdin, rfl⟩
  refine ⟨trivial, fun _ t₃ hw => ?_⟩
  obtain rfl : t₃ = t₂ := hw
  refine ⟨⟨hstdin, getenv_appendEnvIf ?_ _⟩, fun _ t₄ _ => fatalErrorResp_child _ _ _ _⟩
  refine Unset.appendEnv ?_ (by decide) _
  refine Unset.appendEnv (Unset.appendEnv ?_ (by decide) _) (by decide) _
  exact hunset.appendEnvIf (by decide) _

end Child

section Parent

/-- Calls of `cgiexe_processData` none of whose writes fails: the bytes that have been taken,
and the events of the calls. -/
inductive BodyCalls (fd : Fd) : CgiExecutor → Bytes → History → Prop
  | nil (cgiexe : CgiExecutor) : BodyCalls fd cgiexe [] []
  | cons {fuel n : Nat} {cgiexe cgiexe' : CgiExecutor} {data body : Bytes}
      {dpr dpr' : DataProcessingResult} {h new log : History} :
    Runs posix (cgiexeProcessData fuel cgiexe data dpr) h (.done (cgiexe', dpr', n)) (new ++ h) →
    cgiexe'.inFd = some fd → BodyCalls fd cgiexe' body log →
    BodyCalls fd cgiexe (data.take n ++ body) (log ++ new)

/-- What a call takes is what it writes to the program. -/
theorem cgiexeProcessData_writes {fd : Fd} (fuel : Nat) {cgiexe : CgiExecutor}
    (hfd : cgiexe.inFd = some fd) (data : Bytes) (dpr : DataProcessingResult) (h : History) :
    wp posix .none (cgiexeProcessData fuel cgiexe data dpr) (fun r h' => r.1.inFd = some fd →
      Transfer fd none h h' (data.take r.2.2) []) h := by
  refine wp_iterate (I := fun (x : CgiExecutor × DataProcessingResult × Nat) h' =>
      x.1.inFd = some fd → x.2.2 ≤ data.length ∧ Transfer fd none h h' (data.take x.2.2) [])
    (fun _ => trivial) ?_ fuel fun _ => ⟨Nat.zero_le _, .refl⟩
  rintro ⟨cgiexe, dpr, wrtot⟩ h' hI
  unfold cgiWriteRound
  dsimp only at hI ⊢
  split
  · rename_i hnone
    intro hsome
    exact absurd (hnone.symm.trans hsome) nofun
  · rename_i fd' hfd'
    by_cases hlt : wrtot < data.length
    · rw [if_pos hlt, perform_bind, wp_perform]
      refine ⟨trivial, fun r hr => ?_⟩
      cases r with
      | wrote wr =>
        intro hsome
        obtain rfl : fd' = fd := Option.some.inj (hfd'.symm.trans hsome)
        have hwr : wr ≤ (data.drop wrtot).length := hr.1
        rw [List.length_drop] at hwr
        refine ⟨by dsimp only; omega, ?_⟩
        have ht := @Transfer.wrote _ _ _ _ _ _ (data.drop wrtot) wr (hI hsome).2
        rw [List.take_add]
        exact ht
      | fail e =>
        by_cases he : e = .wouldBlock
        · simp only [he, if_true]
          exact fun hsome => (hI hsome).2.quiet rfl fun _ _ => rfl
        · simp only [he, if_false]
          exact ⟨trivial, fun _ _ _ => nofun⟩
    · rw [if_neg hlt]
      intro hsome
      have hall : data.take wrtot = data.take data.length := by
        rw [List.take_of_length_le (by omega), List.take_length]
      rw [← hall]
      exact (hI hsome).2

theorem BodyCalls.sent {fd : Fd} {cgiexe : CgiExecutor} {body : Bytes} {log : History}
    (hc : BodyCalls fd cgiexe body log) (hfd : cgiexe.inFd = some fd) : sentTo fd log = body := by
  induction hc with
  | nil => rfl
  | cons hrun hfd' _ ih =>
    have ht := wp_result (cgiexeProcessData_writes _ hfd _ _ _) hrun hfd'
    rw [sentTo_append, ih hfd', ← ht.of_append.1]

end Parent

/-- The program finds the body that was announced to it. -/
def FindsBody (body : Bytes) (t : Descriptors Byte) (envp : List Bytes) : Prop :=
  t.ahead 0 = body ∧ ∀ len, getenv envp contentLengthName = some len → len = decimal body.length

/-- The header lines announce the length of the body as it is, or they announce none and the
body is not chunked, or empty. -/
def AnnouncedRight (hdr : RequestHeader) (body : Bytes) : Prop :=
  match announcedLength hdr with
  | some len => len = decimal body.length
  | none => reqhdrIsChunkedTransferEncoding hdr = true → body = []

/-- When the program is executed, the rest of its standard input is the body that the server
has taken for it, and its length is announced, exactly when the header lines are right. -/
theorem cgi_finds_body_iff {fuel : Nat} {cfg : Config} {hdr : RequestHeader} {exePath path : Path}
    {peerAddr scriptName pathInfo : Option Bytes} {cgiexe : CgiExecutor} {inFd : Fd}
    {body : Bytes} {log : History} {d₀ : Nat} {t₀ t : Descriptors Byte} {q : Prog CgiExecutor}
    {argv envp : List Bytes} (hfd : cgiexe.inFd = some inFd)
    (hcalls : BodyCalls inFd cgiexe body log) (hin : t₀.Has 0 d₀ (.stream (sentTo inFd log)))
    (hrun : Runs childWorld (runCgi fuel cfg hdr exePath peerAddr scriptName pathInfo) t₀ q t)
    (hexec : q.call? = some (.execve path argv envp)) :
    FindsBody body t envp ↔ AnnouncedRight hdr body := by
  obtain ⟨next, rfl⟩ := Program.eq_call hexec
  rw [hcalls.sent hfd] at hin
  obtain ⟨hstdin, hlen⟩ : ProgramFinds _ _ t envp := wp_guard
    (runCgi_child fuel cfg hdr exePath peerAddr scriptName pathInfo hin) hrun
  unfold FindsBody AnnouncedRight
  rw [hstdin, hlen]
  unfold spooled
  cases announcedLength hdr with
  | some len =>
    constructor
    · exact fun h => h.2 len rfl
    · exact fun h => ⟨rfl, fun l hl => Option.some.inj hl ▸ h⟩
  | none =>
    cases reqhdrIsChunkedTransferEncoding hdr with
    | false => exact ⟨fun _ => nofun, fun _ => ⟨rfl, nofun⟩⟩
    | true =>
      constructor
      · exact fun h _ => h.1.symm
      · exact fun h => ⟨(h rfl).symm, fun l hl => (Option.some.inj hl).symm⟩

section Example

/-- A process with a body on its standard input. -/
def stdinHolds (body : Bytes) : Descriptors Byte :=
  ⟨fun fd => if fd = 0 then some 0 else none, fun _ => .stream body⟩

def startedCgi : CgiExecutor := ⟨false, some 5, some 6, datahdrNew⟩

def cgiRequest (lines : List (Bytes × Bytes)) : RequestHeader :=
  { reqhdrNew with
    request := ascii "POST", path := some (ascii "/a"), version := ascii "1.1", headers := lines }

def lengthHeader : RequestHeader := cgiRequest [(ascii "Content-Length", ascii " 3")]

def chunkedHeader : RequestHeader := cgiRequest [(ascii "Transfer-Encoding", ascii " chunked")]

theorem abc_written : BodyCalls 5 startedCgi (ascii "abc")
    ([] ++
      (playIn Environment.quiet (cgiexeProcessData 9 startedCgi (ascii "abc") dprInit) []).2) :=
  .cons (n := 3) (playIn_returns_new Environment.quiet
    (cgiexeProcessData 9 startedCgi (ascii "abc") dprInit) (a := (startedCgi, dprInit, 3))
    (by decide +kernel)) rfl (.nil _)

/-- The run of a program that is executed at once. -/
theorem runs_lengthHeader : ∃ q path argv envp,
    Runs childWorld (runCgi 9 bareConfig lengthHeader (ascii "/a") none none none)
      (stdinHolds (ascii "abc")) q (stdinHolds (ascii "abc")) ∧
    q.call? = some (.execve path argv envp) :=
  ⟨_, _, _, _, .step (r := (none : Option Bytes)) rfl (.step (r := ()) rfl (.refl _ _)), rfl⟩

/-- The run of a program whose body is stored first. -/
theorem runs_chunkedHeader : ∃ q t path argv envp,
    Runs childWorld (runCgi 9 bareConfig chunkedHeader (ascii "/a") none none none)
      (stdinHolds (ascii "abc")) q t ∧
    q.call? = some (.execve path argv envp) := by
  have hfresh : ∀ fd, (stdinHolds (ascii "abc")).refers fd ≠ some 1 := by
    intro fd
    unfold stdinHolds
    dsimp only
    split <;> decide
  let t := stdinHolds (ascii "abc")
  let t₁ := t.openAt 3 1 (.regular [] 0)
  let t₂ := t₁.modify 0 (·.skip 3)
  let t₃ := t₂.modify 3 (·.put (ascii "abc"))
  let t₄ := t₃.modify 0 (·.skip 0)
  have hmake : childWorld t (.mkstemp spoolTemplate) (.ok (ascii "/tmp/fmgrAAAAAA", 3)) t₁ :=
    ⟨rfl, 1, hfresh, rfl⟩
  have hread : childWorld t₁ (.read 0 65535) (.got (ascii "abc")) t₂ :=
    ⟨by decide, by decide, by decide, nofun, rfl⟩
  have hwrite : childWorld t₂ (.write 3 (ascii "abc")) (.wrote 3) t₃ := ⟨by decide, by decide, rfl⟩
  have hend : childWorld t₃ (.read 0 65535) (.got []) t₄ :=
    ⟨by decide, by decide, by decide, fun _ => .inl (by decide), rfl⟩
  exact ⟨_, _, _, _, _, .step (r := (none : Option Bytes)) rfl <| .step hmake <|
    .step (r := (none : Option Errno)) rfl <| .step hread <| .step hwrite <| .step hend <|
    .step (r := ()) rfl <| .step (r := ()) rfl <| .refl _ _, rfl⟩

theorem cgi_finds_body_iff_length : ∃ t envp, FindsBody (ascii "abc") t envp := by
  obtain ⟨q, path, argv, envp, hrun, hexec⟩ := runs_lengthHeader
  have hin : (stdinHolds (ascii "abc")).Has 0 0 (.stream (sentTo 5
      ([] ++ (playIn Environment.quiet (cgiexeProcessData 9 startedCgi (ascii "abc") dprInit)
        []).2))) := by
    rw [abc_written.sent rfl]
    exact ⟨rfl, rfl⟩
  have hright : AnnouncedRight lengthHeader (ascii "abc") := by
    have hlen : announcedLength lengthHeader = some (ascii "3") := by decide +kernel
    rw [AnnouncedRight, hlen]
    decide +kernel
  exact ⟨_, envp, (cgi_finds_body_iff rfl abc_written hin hrun hexec).mpr hright⟩

/-- A chunked body is stored, and the program starts behind it. -/
theorem cgi_finds_body_chunked :
    ¬ ∀ (q : Prog CgiExecutor) (t : Descriptors Byte) (path : Path) (argv envp : List Bytes),
      Runs childWorld (runCgi 9 bareConfig chunkedHeader (ascii "/a") none none none)
        (stdinHolds (ascii "abc")) q t →
      q.call? = some (.execve path argv envp) → FindsBody (ascii "abc") t envp := by
  intro hclaim
  obtain ⟨q, t, path, argv, envp, hrun, hexec⟩ := runs_chunkedHeader
  have hbody := (hclaim q t path argv envp hrun hexec).1
  obtain ⟨next, rfl⟩ := Program.eq_call hexec
  have hfinds : ProgramFinds _ _ t envp := wp_guard
    (runCgi_child 9 bareConfig chunkedHeader (ascii "/a") none none none
      (show (stdinHolds (ascii "abc")).Has 0 0 (.stream (ascii "abc")) from ⟨rfl, rfl⟩)) hrun
  have hspooled : spooled chunkedHeader = true := by decide +kernel
  have hnil := hfinds.1
  rw [hspooled, if_pos rfl, hbody] at hnil
  exact absurd hnil (by decide)

end Example

end FilemanagerHttpd.Audit
