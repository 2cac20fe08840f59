import FilemanagerHttpd.Audit.UrlPaths
import FilemanagerHttpd.Audit.Pages
import FilemanagerHttpd.Server.Environment

/-!
# Requests stay inside the shares

Whatever the file system answers, a request looks up, lists, opens and executes paths
of the shares only.
-/

namespace FilemanagerHttpd.Audit

open Library Server

/-- The path of a share, one below it, or an entry of a directory there. -/
def Served (cfg : Config) (path : Path) : Prop := InShare cfg path ∨ EntryInShare cfg path

/-- The calls of a request that follow a path use a served one. -/
def ConfinedCall (cfg : Config) : Sys → Prop
  | .stat path | .openRead path | .opendir path | .execve path _ _ => Served cfg path
  | _ => True

/-- The calls without a path that is followed. -/
def pathless : Sys → Bool
  | .stat _ | .openRead _ | .opendir _ | .execve .. => false
  | _ => true

theorem confinedCall_of_pathless {cfg : Config} {c : Sys} (h : pathless c = true) :
    ConfinedCall cfg c := by
  cases c with
  | stat | openRead | opendir | execve => cases h
  | _ => trivial

abbrev Confined (cfg : Config) {α : Type} (Q : α → Prop) (p : Prog α) : Prop :=
  Within (S := sys) (ConfinedCall cfg) Ordinary Q p

/-- Calls without a path, as a request that is served makes them. -/
abbrev Unnamed {α : Type} (Q : α → Prop) (p : Prog α) : Prop :=
  Within (S := sys) (pathless · = true) ServeFault Q p

/-- Every call is confined. -/
def Confinement (cfg : Config) : Duty sys Fault History :=
  ⟨fun c _ => ConfinedCall cfg c, fun _ _ => True⟩

variable {cfg : Config}

theorem confined_of_within {α : Type} {Q : α → Prop} {p : Prog α} (hp : Confined cfg Q p)
    (h : History) : wp posix (Confinement cfg) p (fun a _ => Q a) h :=
  wp_mono (hp.wp (I := fun _ => True) (fun _ _ hc _ => hc) (fun _ _ _ _ => trivial)
    (fun _ _ _ _ _ _ _ => trivial) trivial) fun _ _ hQ => hQ.1

theorem pathless_of_plain {c : Sys} (h : plainCall c = true) : pathless c = true := by
  cases c <;> first | rfl | cases h

theorem Confined.of_plain {α : Type} {Q : α → Prop} {p : Prog α} (hp : Plain Q p) :
    Confined cfg Q p :=
  hp.mono (fun _ hc => confinedCall_of_pathless (pathless_of_plain hc))
    (fun _ hf => ordinary_of_pageFault hf) fun _ hQ => hQ

theorem confined_of_plain {α : Type} {Q : α → Prop} {p : Prog α} (hp : Plain Q p)
    (h : History) : wp posix (Confinement cfg) p (fun a _ => Q a) h :=
  confined_of_within (.of_plain hp) h

theorem isRegularFile_within {path : Path} (hpath : Served cfg path) :
    Confined cfg Any (isRegularFile path) := by
  refine within_perform hpath fun r => ?_
  cases r <;> exact .pure trivial

theorem subShare_within {s : Share} (hs : s ∈ cfg.shares) (path : Bytes)
    (folder : Option Folder) :
    Confined cfg Any (subShare path folder s) := by
  have hserved : Served cfg s.syspath := .inl ⟨s, hs, [], remainder_nil, .inl (by simp)⟩
  refine .ite (.pure trivial) (.ite (.pure trivial)
    (.ite (.pure trivial) (.ite (.pure trivial) ?_)))
  refine within_perform hserved fun r => ?_
  cases r <;> exact .pure trivial

theorem configGetSubSharesForPath_within (urlPath : Bytes) :
    Confined cfg Any (configGetSubSharesForPath cfg urlPath) := by
  have hfold : ∀ shares : List Share, (∀ s ∈ shares, s ∈ cfg.shares) → ∀ folder,
      Confined cfg Any
        (shares.foldlM (subShare (dchTrimTrailing urlPath slash)) folder) := by
    intro shares
    induction shares with
    | nil => intro _ folder; exact .pure trivial
    | cons s shares ih =>
      intro hsub folder
      rw [List.foldlM_cons]
      exact (subShare_within (hsub s (.head _)) _ _).bind fun folder _ =>
        ih (fun s hs => hsub s (.tail _ hs)) folder
  exact .ite (.pure trivial)
    ((hfold cfg.shares (fun _ hs => hs) none).bind fun _ _ => .pure trivial)

/-- Each cut of a path is before one of its slashes. -/
theorem slashCuts_split {path a b : Bytes} (h : (a, b) ∈ slashCuts path) :
    path = a ++ b ∧ ∃ t, b = slash :: t := by
  simp only [slashCuts, List.mem_reverse, List.mem_map, List.mem_filter, List.mem_range] at h
  obtain ⟨i, ⟨hi, hb⟩, he⟩ := h
  obtain ⟨rfl, rfl⟩ : path.take i = a ∧ path.drop i = b := by simpa using he
  refine ⟨(List.take_append_drop i path).symm, path.drop (i + 1), ?_⟩
  have hget : path[i]? = some slash := by simpa using hb
  rw [List.getElem?_eq_getElem hi] at hget
  rw [List.drop_eq_getElem_cons hi, Option.some.inj hget]

/-- A CGI that is found by a prefix of an accepted path is in a share. -/
theorem findCgiPrefix_confined {q : Bytes} (hq : hasDotDot q = false)
    (cuts : List (Bytes × Bytes)) (hcuts : ∀ c ∈ cuts, q = c.1 ++ c.2 ∧ ∃ t, c.2 = slash :: t)
    (h : History) :
    wp posix (Confinement cfg) (findCgiPrefix cfg cuts)
      (fun r _ => ∀ found, r = some found → InShare cfg found.cgiExe) h := by
  induction cuts generalizing h with
  | nil => intro found hf; cases hf
  | cons c cuts ih =>
    obtain ⟨cgiUrl, cgiSubPath⟩ := c
    have hrest := ih fun c hc => hcuts c (.tail _ hc)
    obtain ⟨hcut, hsub⟩ := hcuts _ (.head _)
    unfold findCgiPrefix
    refine wp_seq (wp_lift (Q := fun _ _ => True) (fun _ => trivial) fun _ _ => trivial) ?_
    intro matched h₁ _
    cases matched with
    | false => exact hrest h₁
    | true =>
      simp only [Bool.not_true, Bool.false_eq_true, if_false]
      cases hpath : configGetSysPathForUrlPath cfg cgiUrl with
      | none => exact hrest h₁
      | some cgiExe =>
        have hin : InShare cfg cgiExe := inShare_of_accepted hq hcut (.inr hsub) hpath
        refine wp_seq (confined_of_within (isRegularFile_within (.inl hin)) h₁) ?_
        intro isReg h₂ _
        cases isReg with
        | false => exact hrest h₂
        | true =>
          intro found hf
          obtain rfl := Option.some.inj hf
          exact hin

theorem configFindCGI_confined {q : Bytes} (hq : hasDotDot q = false) (h : History) :
    wp posix (Confinement cfg) (configFindCGI cfg q)
      (fun r _ => ∀ found, r = some found → InShare cfg found.cgiExe) h := by
  unfold configFindCGI
  refine wp_seq (wp_lift (Q := fun _ _ => True) (fun _ => trivial) fun _ _ => trivial) ?_
  intro matched h₁ _
  refine wp_seq (confined_of_within (Q := Any) ?_ h₁) ?_
  · cases matched with
    | false => exact .pure trivial
    | true =>
      cases hpath : configGetSysPathForUrlPath cfg q with
      | none => exact .pure trivial
      | some cgiExe =>
        exact isRegularFile_within (.inl (inShare_of_accepted hq (List.append_nil q).symm
          (.inl rfl) hpath))
  intro wholePath h₂ _
  cases wholePath with
  | true => intro found hf; cases hf
  | false => exact findCgiPrefix_confined hq _ (fun c hc => slashCuts_split hc) h₂

/-- What the lookup has found is in a share. -/
structure TargetInShare (cfg : Config) (t : Target) : Prop where
  inShare : ∀ p, t.sysPath = some p → InShare cfg p
  no_nul : t.isFolder = true → ∀ p, t.sysPath = some p → nul ∉ p

theorem nul_not_mem_sysPath (hcfg : SharesParsed cfg.shares) {q path : Bytes} (hq : nul ∉ q)
    (h : configGetSysPathForUrlPath cfg q = some path) : nul ∉ path := by
  obtain ⟨s, hs, r, hu, -, hpath⟩ := configGetSysPathForUrlPath_split h
  intro hm
  rcases hpath with rfl | ⟨rfl, -⟩
  · rcases List.mem_append.mp hm with hm | hm
    · exact hcfg.no_nul s hs hm
    · have hmem : nul ∈ (if q = [slash] then [] else q) := by rw [hu]; simp [hm]
      split at hmem
      · cases hmem
      · exact hq hmem
  · exact absurd hm (by decide)

theorem lookupTarget_confined (hcfg : SharesParsed cfg.shares) {q : Bytes}
    (hq : hasDotDot q = false) (hnul : nul ∉ q) (h : History) :
    wp posix (Confinement cfg) (lookupTarget cfg q) (fun t _ => TargetInShare cfg t) h := by
  unfold lookupTarget
  cases hpath : configGetSysPathForUrlPath cfg q with
  | none =>
    refine wp_seq (confined_of_within (configGetSubSharesForPath_within q) h) ?_
    intro folder h₁ _
    cases folder with
    | none => exact ⟨nofun, nofun⟩
    | some folder => exact ⟨nofun, nofun⟩
  | some sysPath =>
    have hin : InShare cfg sysPath :=
      inShare_of_accepted hq (List.append_nil q).symm (.inl rfl) hpath
    have hok : ∀ p, some sysPath = some p → InShare cfg p ∧ nul ∉ p := by
      intro p hp
      obtain rfl := Option.some.inj hp
      exact ⟨hin, nul_not_mem_sysPath hcfg hnul hpath⟩
    simp only [perform_bind, wp_perform]
    refine ⟨.inl hin, fun r _ => ?_⟩
    have hother : ∀ e, TargetInShare cfg (.ofError (some sysPath) e) :=
      fun e => ⟨fun p hp => (hok p hp).1, nofun⟩
    cases r with
    | ok st =>
      refine wp_seq
        (confined_of_within (.ite (.lift (configIsCGI_ordinary cfg q)) (.pure trivial)) _) ?_
      intro isCGI h₁ _
      exact ⟨fun p hp => (hok p hp).1, fun _ p hp => (hok p hp).2⟩
    | error e =>
      cases e with
      | notDir =>
        refine wp_seq (configFindCGI_confined hq _) ?_
        intro found h₁ hfound
        cases found with
        | none => exact hother _
        | some found =>
          refine ⟨?_, nofun⟩
          intro p hp
          obtain rfl := Option.some.inj hp
          exact hfound found rfl
      | _ => exact hother _

/-- The directory of a share with one slash behind it. -/
theorem dir_slash_of_inShare (hcfg : SharesParsed cfg.shares) {dir : Path}
    (hin : InShare cfg dir) :
    ∃ s ∈ cfg.shares, ∃ r, Remainder r ∧
      (if dir.getLast? = some slash then dir else dir ++ [slash]) = s.syspath ++ r ++ [slash] := by
  obtain ⟨s, hs, r, hr, hpath⟩ := hin
  rcases hpath with rfl | ⟨rfl, hsys, -⟩
  · rcases List.eq_nil_or_concat r with rfl | ⟨r', b, rfl⟩
    · rw [List.append_nil, if_neg (hcfg.no_slash_end s hs)]
      exact ⟨s, hs, [], remainder_nil, by simp⟩
    · by_cases hb : b = slash
      · subst hb
        have hlast : (s.syspath ++ r'.concat slash).getLast? = some slash := by
          simp
        rw [if_pos hlast]
        refine ⟨s, hs, r', ⟨?_, fun hm => hr.no_dotDot ?_⟩, by simp⟩
        · rcases hr.rooted with h | ⟨t, ht⟩
          · simp at h
          · cases r' with
            | nil => exact .inl rfl
            | cons c r' =>
              obtain rfl : c = slash := by simp at ht; exact ht.1
              exact .inr ⟨r', rfl⟩
        · rw [List.concat_eq_append, components_append_cons]
          exact List.mem_append_left _ hm
      · have hlast : (s.syspath ++ r'.concat b).getLast? ≠ some slash := by
          simpa using hb
        rw [if_neg hlast]
        exact ⟨s, hs, _, hr, rfl⟩
  · rw [if_pos (by rfl)]
    exact ⟨s, hs, [], remainder_nil, by rw [hsys]; rfl⟩

/-- A name that `readdir` yields and the source does not skip. -/
theorem entryName_of_readdir {name : Bytes} (hl : name ≠ [] ∧ slash ∉ name ∧ nul ∉ name)
    (hdot : isDotName name = false) : EntryName name := by
  simp only [isDotName, Bool.or_eq_false_iff, beq_eq_false_iff_ne] at hdot
  exact ⟨hl.1, hl.2.1, hdot.1, hdot.2⟩

/-- The best index file so far is an entry of a directory in a share. -/
def IndexServed (cfg : Config) (file : Option Path) : Prop :=
  ∀ p, file = some p → EntryInShare cfg p

theorem indexFileRound_confined {dirName : MemBuf} {dir : Fd} (hnul : nul ∉ dirName.data)
    (hentry : ∀ name, EntryName name → EntryInShare cfg (dirName.data ++ name))
    {best : Nat × Option Path} (hbest : IndexServed cfg best.2) (h : History) :
    wp posix (Confinement cfg) (indexFileRound cfg dirName dir best)
      (AfterRound (fun b _ => IndexServed cfg b.2) (fun b _ => IndexServed cfg b)) h := by
  obtain ⟨bestMatchIdx, bestIdxFile⟩ := best
  simp only [indexFileRound]
  by_cases hzero : bestMatchIdx = 0
  · rw [if_pos hzero]; exact hbest
  rw [if_neg hzero]
  simp only [perform_bind, wp_perform]
  refine ⟨trivial, fun r hr => ?_⟩
  cases r with
  | none => exact hbest
  | some name =>
    have hlaw : name ≠ [] ∧ slash ∉ name ∧ nul ∉ name := hr
    simp only
    by_cases hdot : isDotName name = true
    · rw [if_pos hdot]; exact hbest
    rw [if_neg hdot]
    cases firstMatch cfg (cfg.indexPatterns.take bestMatchIdx) name with
    | none => exact hbest
    | some matchIdx =>
      have hpath : EntryInShare cfg (cstr (mbSetStrEnd dirName dirName.dataLen name).data) := by
        rw [cstr_mbSetStrEnd hnul hlaw.2.2]
        exact hentry name (entryName_of_readdir hlaw (by simpa using hdot))
      simp only [wp_perform]
      refine ⟨.inr hpath, fun r _ => ?_⟩
      cases r with
      | error e => exact hbest
      | ok st =>
        simp only
        by_cases hd : st.isDir = true
        · rw [if_pos hd]; exact hbest
        · rw [if_neg hd]
          intro p hp
          obtain rfl := Option.some.inj hp
          exact hpath

theorem configGetIndexFile_confined (hcfg : SharesParsed cfg.shares) (fuel : Nat) {dir : Path}
    (hin : InShare cfg dir) (hnul : nul ∉ dir) (h : History) :
    wp posix (Confinement cfg) (configGetIndexFile fuel cfg dir)
      (fun r _ => ∀ file, r = .ok file → IndexServed cfg file) h := by
  unfold configGetIndexFile
  simp only [perform_bind, wp_perform]
  refine ⟨.inl hin, fun r _ => ?_⟩
  cases r with
  | error e => intro p hp; cases hp
  | ok d =>
    refine wp_seq (wp_lift (Q := fun mb _ => mb.data = dir) (fun _ => trivial) fun mb hmb =>
      mbNewWithStr_ok hnul hmb) ?_
    rintro mb h₁ rfl
    refine wp_seq (wp_lift (Q := fun mb' _ => mb'.data =
      if mb.data.getLast? = some slash then mb.data else mb.data ++ [slash]) (fun _ => trivial)
      fun mb' hmb' => mbEnsureEndsWithSlash_ok hmb') ?_
    intro mb' h₂ hmb'
    obtain ⟨s, hs, r, hr, hdir⟩ := dir_slash_of_inShare hcfg hin
    have hnul' : nul ∉ mb'.data := by
      rw [hmb']
      split
      · exact hnul
      · intro hm
        rcases List.mem_append.mp hm with hm | hm
        · exact hnul hm
        · exact absurd hm (by decide)
    have hentry : ∀ name, EntryName name → EntryInShare cfg (mb'.data ++ name) := by
      intro name hname
      exact ⟨s, hs, r, name, hr, hname, by rw [hmb', hdir]; simp⟩
    refine wp_seq (wp_iterate (fun _ => trivial)
      (fun best h hb => indexFileRound_confined hnul' hentry hb h) fuel nofun) ?_
    intro best h₃ hbest
    simp only [wp_perform]
    refine ⟨trivial, fun _ _ file hf => ?_⟩
    obtain rfl := Except.ok.inj hf
    exact hbest

/-- A target whose file is served; a folder is in a share itself. -/
structure TargetServed (cfg : Config) (t : Target) : Prop where
  served : ∀ p, t.sysPath = some p → Served cfg p
  folder : t.isFolder = true → ∀ p, t.sysPath = some p → InShare cfg p

theorem TargetInShare.served {t : Target} (ht : TargetInShare cfg t) : TargetServed cfg t :=
  ⟨fun p hp => .inl (ht.inShare p hp), fun _ p hp => ht.inShare p hp⟩

theorem chooseIndexFile_confined (hcfg : SharesParsed cfg.shares) (fuel : Nat) {t : Target}
    (ht : TargetInShare cfg t) (h : History) :
    wp posix (Confinement cfg) (chooseIndexFile fuel cfg t)
      (fun t' _ => TargetServed cfg t') h := by
  obtain ⟨sysPath, isFolder, isCGI, isShareList, sysErrNo, cgiUrl, cgiSubPath⟩ := t
  unfold chooseIndexFile
  split
  · rename_i dir herr hfolder hlist hdir
    obtain rfl : sysPath = some dir := hdir
    refine wp_seq (configGetIndexFile_confined hcfg fuel (ht.inShare dir rfl)
      (ht.no_nul hfolder dir rfl) h) ?_
    intro r h₁ hr
    cases r with
    | error e => exact TargetServed.mk ht.served.served ht.served.folder
    | ok file =>
      cases file with
      | none => exact ht.served
      | some indexFile =>
        refine TargetServed.mk ?_ nofun
        intro p hp
        exact .inr (hr _ rfl p hp)
  · exact ht.served

/-- The calls that start a CGI program. -/
def cgiCall (exePath : Path) : Sys → Prop
  | .execve path _ _ => path = exePath
  | c => pathless c = true

theorem fatalErrorResp_within {α : Type} {A : Sys → Prop} (hA : ∀ data, A (.write 1 data))
    (message : Bytes) (status : Option Bytes) :
    Within (S := sys) A ServeFault Any (fatalErrorResp message status : Prog α) :=
  within_perform (hA _) fun _ => .fault (by decide)

theorem handleNoContentLength_within (fuel : Nat) :
    Unnamed Any (handleNoContentLength fuel) := by
  have hfatal : ∀ {α : Type} message status,
      Unnamed Any (fatalErrorResp message status : Prog α) :=
    fun message status => fatalErrorResp_within (fun _ => rfl) message status
  refine within_perform rfl fun r => ?_
  cases r with
  | error e => exact hfatal _ _
  | ok tmp =>
    obtain ⟨path, tmpFd⟩ := tmp
    refine within_perform rfl fun _ => .bind (.loop serveFault_outOfFuel (fun ctLen => ?_) _ _) ?_
    · refine .ite (.pure trivial) (within_perform rfl fun r => ?_)
      cases r with
      | fail e => exact .pure trivial
      | got buf =>
        cases buf with
        | nil => exact .pure trivial
        | cons b buf =>
          refine .bind (.loop serveFault_outOfFuel (fun offs => ?_) _ _) fun _ _ => .pure trivial
          refine .ite (within_perform rfl fun r => ?_) (.pure trivial)
          cases r with
          | wrote wr => exact .pure trivial
          | fail e => exact hfatal _ _
    · rintro ⟨ctLen, failed⟩ _
      exact .ite (hfatal _ _) (.ite (hfatal _ _) (within_perform rfl fun _ => .pure trivial))

theorem cgiexeNew_within (fuel : Nat) (rhdr : RequestHeader) (exePath : Path)
    (peerAddr scriptName pathInfo : Option Bytes) :
    Within (S := sys) (cgiCall exePath) ServeFault Any
      (cgiexeNew fuel cfg rhdr exePath peerAddr scriptName pathInfo) := by
  have hpathless : ∀ c, pathless c = true → cgiCall exePath c := by
    intro c hc
    cases c with
    | execve => cases hc
    | _ => exact hc
  have hlen : ∀ len,
      Within (S := sys) (cgiCall exePath) ServeFault Any (contentLengthOf fuel rhdr len) := by
    intro len
    unfold contentLengthOf
    split
    · exact ((handleNoContentLength_within fuel).mono hpathless (fun _ hf => hf)
        fun _ h => h).bind fun _ _ => .pure trivial
    · exact .pure trivial
  refine within_perform rfl fun r => ?_
  rcases r with - | ⟨toCgiRead, toCgiWrite⟩
  · exact .fault (by decide)
  refine within_perform rfl fun r => ?_
  rcases r with - | ⟨fromCgiRead, fromCgiWrite⟩
  · exact .fault (by decide)
  refine within_perform rfl fun r => ?_
  cases r with
  | fail => exact .fault (by decide)
  | parent => exact within_perform rfl fun _ => within_perform rfl fun _ => .pure trivial
  | child =>
    refine within_perform rfl fun _ => within_perform rfl fun _ => ?_
    refine within_perform rfl fun _ => within_perform rfl fun _ => ?_
    refine within_perform rfl fun _ => within_perform rfl fun _ => ?_
    refine within_perform rfl fun _ => (hlen _).bind fun _ _ => ?_
    exact within_perform rfl fun _ => within_perform rfl fun _ =>
      fatalErrorResp_within (fun _ => rfl) _ _

theorem cgiexeNew_confined (fuel : Nat) (rhdr : RequestHeader) {exePath : Path}
    (hexe : Served cfg exePath) (peerAddr scriptName pathInfo : Option Bytes) (h : History) :
    wp posix (Confinement cfg) (cgiexeNew fuel cfg rhdr exePath peerAddr scriptName pathInfo)
      (fun _ _ => True) h := by
  refine confined_of_within ((cgiexeNew_within fuel rhdr exePath _ _ _).mono ?_
    (fun _ hf => ordinary_of_serveFault hf) fun _ hQ => hQ) h
  intro c hc
  cases c with
  | execve path argv envp => obtain rfl : path = exePath := hc; exact hexe
  | _ => exact confinedCall_of_pathless hc

theorem processFileReq_confined (urlPath : Bytes) {sysPath : Path} (hpath : Served cfg sysPath)
    (onlyHead : Bool) (h : History) :
    wp posix (Confinement cfg) (processFileReq cfg urlPath sysPath onlyHead)
      (fun _ _ => True) h := by
  refine confined_of_within (Q := Any) ?_ h
  refine within_perform hpath fun r => ?_
  cases r with
  | error e => exact (Confined.of_plain (printErrorPage_plain _ _ _ _ _)).any
  | ok fd =>
    refine .bind (.lift (Sound.ordinary (respNew_sound _ _))) fun _ hf => ?_
    refine .bind (.lift (Sound.ordinary (respAppendHeader_sound hf _ _))) fun resp hf => ?_
    refine .ite (within_perform trivial fun _ => .pure trivial) ?_
    cases splitAtLastByte slash urlPath with
    | none => exact .fault (by decide)
    | some p =>
      refine .bind (.lift (Sound.ordinary (mbAppendStrL_sound _ _))) fun _ _ => ?_
      refine .bind (.lift (Sound.ordinary (respAppendHeader_sound hf _ _))) fun resp _ => ?_
      unfold respEnqFile closeFd
      cases resp.fileDesc with
      | none => exact .pure trivial
      | some fd => exact within_perform trivial fun _ => .pure trivial

/-- The directory of a handler's file manager is in a share. -/
def FolderInShare (cfg : Config) (hdlr : RequestHandler) : Prop :=
  ∀ filemgr, hdlr.filemgr = some filemgr → ∀ p, filemgr.sysPath = some p → InShare cfg p

theorem filemgrNew_sysPath {sysPath : Option Path} {rhdr : RequestHeader} {filemgr : FileManager}
    (h : filemgrNew cfg sysPath rhdr = .ok filemgr) : filemgr.sysPath = sysPath := by
  unfold filemgrNew at h
  split at h
  · rw [← Except.ok.inj h]
  · split at h
    · obtain ⟨err, -, h⟩ := bind_ok h
      rw [← Except.ok.inj h]
    · rw [← Except.ok.inj h]
    · obtain ⟨body, -, h⟩ := bind_ok h
      rw [← Except.ok.inj h]

theorem serveTarget_confined (fuel : Nat) {hdlr : RequestHandler} (hnone : hdlr.filemgr = none)
    (rhdr : RequestHeader) {t : Target} (ht : TargetServed cfg t) (q : Bytes) (isHeadReq : Bool)
    (h : History) :
    wp posix (Confinement cfg) (serveTarget fuel cfg hdlr rhdr t q isHeadReq)
      (fun r _ => FolderInShare cfg r.1) h := by
  have hkeep : FolderInShare cfg hdlr := by
    intro filemgr hf
    rw [hnone] at hf
    cases hf
  unfold serveTarget
  split
  · exact wp_seq (confined_of_plain (printErrorPage_plain _ _ _ _ _) h) fun _ _ _ => hkeep
  · by_cases hfolder : t.isFolder = true
    · rw [if_pos hfolder]
      refine wp_seq (wp_lift (Q := fun fm _ => fm.sysPath = t.sysPath) (fun _ => trivial)
        fun fm hfm => filemgrNew_sysPath hfm) ?_
      intro fm h₁ hfm filemgr hf p hp
      obtain rfl := Option.some.inj hf
      rw [hfm] at hp
      exact ht.folder hfolder p hp
    · rw [if_neg hfolder]
      cases hsys : t.sysPath with
      | none => trivial
      | some sysPath =>
        have hserved := ht.served sysPath hsys
        simp only
        by_cases hcgi : t.isCGI = true
        · rw [if_pos hcgi]
          exact wp_seq (cgiexeNew_confined fuel rhdr hserved _ _ _ h) fun _ _ _ => hkeep
        · rw [if_neg hcgi]
          exact wp_seq (processFileReq_confined q hserved isHeadReq h) fun _ _ _ => hkeep

theorem doProcessRequest_confined (hcfg : SharesParsed cfg.shares) (fuel : Nat)
    {hdlr : RequestHandler} (hnone : hdlr.filemgr = none) {rhdr : RequestHeader}
    (hnul : nul ∉ reqhdrGetPath rhdr) (h : History) :
    wp posix (Confinement cfg) (doProcessRequest fuel cfg hdlr rhdr)
      (fun r _ => FolderInShare cfg r.1) h := by
  have hkeep : FolderInShare cfg hdlr := by
    intro filemgr hf
    rw [hnone] at hf
    cases hf
  unfold doProcessRequest
  simp only
  split_ifs with hlogin hserve hdots
  · simp only [perform_bind, wp_perform]
    exact ⟨trivial, fun _ _ =>
      wp_seq (confined_of_plain (printUnauthorized_plain _ _) _) fun _ _ _ => hkeep⟩
  · exact wp_seq (confined_of_plain (printUnauthorized_plain _ _) _) fun _ _ _ => hkeep
  · exact wp_seq (confined_of_plain (printMesgPage_plain _ _ _ _ _) _) fun _ _ _ => hkeep
  · have hq : hasDotDot (reqhdrGetPath rhdr) = false := by simpa using hdots
    refine wp_seq (lookupTarget_confined hcfg hq hnul h) ?_
    intro t h₁ ht
    refine wp_seq (wp_lift (Q := fun _ _ => True) (fun _ => trivial) fun _ _ => trivial) ?_
    intro lacks h₂ _
    cases lacks with
    | true =>
      exact wp_seq (confined_of_plain (printMovedAddSlash_plain _ _) _) fun _ _ _ => hkeep
    | false =>
      refine wp_seq (chooseIndexFile_confined hcfg fuel ht h₂) ?_
      intro t' h₃ ht'
      exact serveTarget_confined fuel hnone rhdr ht' _ _ h₃

theorem closeFd_within (fd : Option Fd) : Unnamed Any (closeFd fd) := by
  cases fd with
  | none => exact .pure trivial
  | some fd => exact ⟨rfl, fun _ => trivial⟩

theorem rsndrNew_within (header : MemBuf) (body : Option MemBuf) (fd : Option Fd) :
    Unnamed Any (rsndrNew header body fd) := by
  unfold rsndrNew
  have hbytes : Unnamed Any (fileBytesToSend body fd) := by
    unfold fileBytesToSend
    split
    · refine within_perform rfl fun r => ?_
      cases r <;> exact .pure trivial
    · exact .pure trivial
  have hclose : ∀ c, Unnamed Any (closeIf c fd) := fun c =>
    .ite ((closeFd_within fd).bind fun _ _ => .pure trivial) (.pure trivial)
  refine hbytes.bind fun nbytes _ => .bind (Q := Any) ?_ fun _ _ => (hclose _).bind fun _ _ =>
    .bind (.lift (Sound.serve (mbAppendStr_sound _ _))) fun _ _ => ?_
  · cases body with
    | none => exact .pure trivial
    | some body => exact .lift (Sound.serve (mbAppendStr_sound _ _))
  · cases body with
    | none => exact .pure trivial
    | some body =>
      refine .ite ?_ (.pure trivial)
      exact .bind (.lift (Sound.serve (mbAppendStr_sound _ _))) fun _ _ =>
        .bind (.lift (Sound.serve (mbAppendStr_sound _ _))) fun _ _ => .pure trivial

theorem respFinish_within (resp : RespBuf) : Unnamed Any (respFinish resp) :=
  .bind (.lift (Sound.serve (respAppendHeader_sound ⟨rfl, rfl⟩ _ _))) fun _ _ =>
    rsndrNew_within _ _ _

theorem finishIfReady_within (resp : Option RespBuf) : Unnamed Any (finishIfReady resp) := by
  cases resp with
  | none => exact .pure trivial
  | some resp => exact (respFinish_within resp).bind fun _ _ => .pure trivial

theorem finishIfReady_confined (resp : Option RespBuf) (h : History) :
    wp posix (Confinement cfg) (finishIfReady resp) (fun _ _ => True) h :=
  confined_of_within ((finishIfReady_within resp).mono (fun _ hc => confinedCall_of_pathless hc)
    (fun _ hf => ordinary_of_serveFault hf) fun _ hQ => hQ) h

theorem reqhdlrNew_confined (hcfg : SharesParsed cfg.shares) (fuel : Nat) {rhdr : RequestHeader}
    (hnul : nul ∉ reqhdrGetPath rhdr) (peerAddr : Option Bytes) (h : History) :
    wp posix (Confinement cfg) (reqhdlrNew fuel cfg rhdr peerAddr)
      (fun hdlr _ => FolderInShare cfg hdlr) h := by
  unfold reqhdlrNew
  simp only
  split_ifs with hmeth
  · refine wp_seq (wp_lift (Q := fun _ _ => True) (fun _ => trivial) fun _ _ => trivial) ?_
    intro resp h₁ _
    refine wp_seq (wp_lift (Q := fun _ _ => True) (fun _ => trivial) fun _ _ => trivial) ?_
    intro resp h₂ _
    exact wp_seq (finishIfReady_confined _ _) fun _ _ _ => nofun
  · refine wp_seq (doProcessRequest_confined hcfg fuel rfl hnul h) ?_
    rintro ⟨hdlr, resp⟩ h₁ hfolder
    exact wp_seq (finishIfReady_confined resp h₁) fun _ _ _ => hfolder

/-- The headers that `reqhdr_appendData` makes of any pieces of any text. -/
inductive HeaderRead (cfg : Config) : RequestHeader → Prop
  | new : HeaderRead cfg reqhdrNew
  | append {req req' : RequestHeader} {data : Bytes} {offset : Option Nat} :
      HeaderRead cfg req → reqhdrAppendData cfg req data = .ok (req', offset) →
      HeaderRead cfg req'

/-- The path of a header has no zero byte. -/
def PathText (req : RequestHeader) : Prop := nul ∉ reqhdrGetPath req

theorem pathText_some {req : RequestHeader} {p : Bytes} (h : nul ∉ p) :
    PathText { req with path := some p } := h

theorem decodeRequestStartLine_pathText (req : RequestHeader) :
    PathText (decodeRequestStartLine req) := by
  unfold decodeRequestStartLine
  split
  · exact (by decide : nul ∉ [slash])
  · split
    · exact nul_not_mem_cstr _
    · exact nul_not_mem_cstr _

theorem reqhdrAddLine_path {req req' : RequestHeader} {line : Bytes}
    (h : reqhdrAddLine cfg req line = .ok req') : req'.path = req.path := by
  unfold reqhdrAddLine at h
  split at h
  · rw [← Except.ok.inj h]
  · rename_i name value _
    obtain ⟨req₁, hauth, h⟩ := bind_ok h
    have hpath : req₁.path = req.path := by
      unfold checkAuthorization at hauth
      split at hauth
      · obtain ⟨authorized, -, hauth⟩ := bind_ok hauth
        rw [← Except.ok.inj hauth]
      · rw [Except.ok.inj hauth]
    split at h
    · rw [← hpath, ← Except.ok.inj h]
    · cases h

theorem reqhdrAppendLoop_pathText {n : Nat} {req req' : RequestHeader} {bol : Bytes}
    {rest : Option Bytes} (hreq : PathText req)
    (h : reqhdrAppendLoop cfg n req bol = .ok (req', rest)) : PathText req' := by
  induction n generalizing req bol with
  | zero => obtain ⟨rfl, -⟩ := Prod.mk.inj (Except.ok.inj h); exact hreq
  | succ n ih =>
    rw [reqhdrAppendLoop] at h
    split at h
    · obtain ⟨rfl, -⟩ := Prod.mk.inj (Except.ok.inj h); exact hreq
    split at h
    · obtain ⟨line, -, h⟩ := bind_ok h
      obtain ⟨rfl, -⟩ := Prod.mk.inj (Except.ok.inj h); exact hreq
    · obtain ⟨line, -, h⟩ := bind_ok h
      simp only at h
      split at h
      · refine ih ?_ h
        exact hreq
      · exact ih (decodeRequestStartLine_pathText _) h
    · obtain ⟨line, -, h⟩ := bind_ok h
      obtain ⟨rfl, -⟩ := Prod.mk.inj (Except.ok.inj h); exact hreq
    · obtain ⟨line, -, h⟩ := bind_ok h
      split at h
      · obtain ⟨rfl, -⟩ := Prod.mk.inj (Except.ok.inj h); exact hreq
      · obtain ⟨req₁, hadd, h⟩ := bind_ok h
        refine ih ?_ h
        unfold PathText reqhdrGetPath
        rw [reqhdrAddLine_path hadd]
        exact hreq

theorem HeaderRead.pathText {req : RequestHeader} (hread : HeaderRead cfg req) : PathText req := by
  induction hread with
  | new => exact List.not_mem_nil
  | append _ happ ih =>
    obtain ⟨r, hloop, happ⟩ := bind_ok happ
    obtain ⟨rfl, -⟩ := Prod.mk.inj (Except.ok.inj happ)
    exact reqhdrAppendLoop_pathText ih hloop

/-- At every moment of the creation of a handler, the call to be made follows no path
outside the shares; and the folder that the handler lists, if any, is in a share. -/
theorem url_paths_confined {htmlDir : Bytes} {lines : List Bytes} (hdir : nul ∉ htmlDir)
    (hshares : cfg.shares = configParseShares htmlDir lines) {rhdr : RequestHeader}
    (hread : HeaderRead cfg rhdr) (fuel : Nat) (peerAddr : Option Bytes) (h h' : History) :
    (∀ c next, Runs posix (reqhdlrNew fuel cfg rhdr peerAddr) h (.call c next) h' →
      ConfinedCall cfg c) ∧
    (∀ hdlr, Runs posix (reqhdlrNew fuel cfg rhdr peerAddr) h (.done hdlr) h' →
      FolderInShare cfg hdlr) := by
  have hcfg : SharesParsed cfg.shares := hshares ▸ configParseShares_parsed hdir lines
  have hwp := reqhdlrNew_confined hcfg fuel hread.pathText peerAddr h
  constructor
  · intro c next hrun
    exact wp_guard hwp hrun
  · intro hdlr hrun
    have hfolder := wp_result hwp hrun
    exact hfolder

section Example

/-- One share, without index files, CGI programs or users. -/
def oneShare : Config where
  listenPort := 8000
  shares := configParseShares [] [ascii "/pub = /srv/"]
  indexPatterns := []
  cgiPatterns := []
  availOps := .all
  guestOps := .all
  credentials := []
  fnmatch _ _ _ := false
  strcoll _ _ := true
  strerror _ := []
  md5 _ := []

/-- Every path is a directory that can be opened. -/
def directories : Environment := fun h c =>
  match c with
  | .stat _ => ⟨.ok ⟨true, false, 0o755, 0⟩, trivial⟩
  | .opendir _ => ⟨.ok (Environment.freshFd h), Environment.freshFd_not_mem h⟩
  | c => Environment.quiet h c

def folderHeader : RequestHeader :=
  { reqhdrNew with
    request := ascii "GET", path := some (ascii "/pub/a b/"), version := ascii "1.1" }

theorem url_paths_confined_folder : InShare oneShare (ascii "/srv/a b/") := by
  have hshares : oneShare.shares = configParseShares [] [ascii "/pub = /srv/"] := rfl
  have hparse : reqhdrAppendData oneShare reqhdrNew
      (ascii "GET /%70ub/a%20b/ HTTP/1.1" ++ crlf ++ crlf) = .ok (folderHeader, some 30) := by
    decide +kernel
  have hrun : Runs posix (reqhdlrNew 9 oneShare folderHeader none) []
      (.done ⟨none, some ⟨some (ascii "/srv/a b/"), none, none⟩, none, none⟩)
      (playIn directories (reqhdlrNew 9 oneShare folderHeader none) []).2 :=
    playIn_returns _ _ _ (by decide +kernel)
  exact (url_paths_confined List.not_mem_nil hshares (.append .new hparse) 9 none [] _).2 _ hrun
    _ rfl _ rfl

end Example

end FilemanagerHttpd.Audit
