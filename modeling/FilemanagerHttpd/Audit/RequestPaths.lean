import FilemanagerHttpd.Audit.UrlConfinement
import FilemanagerHttpd.Audit.FormFaults

/-!
# Reading the path of a request

The path is read by its last byte, by its last slash, and behind its first byte. All three
reads stay inside a path that is not empty: a file is found for a path with a slash only.
-/

namespace FilemanagerHttpd.Audit

open Library Server

/-- The faults of reading the path of the request outside its bounds. -/
def PathFault (f : Fault) : Prop := f = .indexOutOfRange .urlPath ∨ f = .nullPointer .lastSlash

instance (f : Fault) : Decidable (PathFault f) := inferInstanceAs (Decidable (_ ∨ _))

theorem not_pathFault_of_serve {f : Fault} (h : ServeFault f) : ¬ PathFault f := by
  rintro (rfl | rfl) <;> revert h <;> decide

/-- Choosing and starting a response, whatever the system answers. -/
abbrev Serves {α : Type} (Q : α → Prop) (p : Prog α) : Prop :=
  Within (S := sys) (fun _ => True) ServeFault Q p

variable {cfg : Config} {α : Type}

theorem Serves.of_plain {Q : α → Prop} {p : Prog α} (hp : Plain Q p) : Serves Q p :=
  hp.mono (fun _ _ => trivial) (fun _ hf => .inl hf) fun _ hQ => hQ

theorem Serves.of_unnamed {Q : α → Prop} {p : Prog α} (hp : Unnamed Q p) : Serves Q p :=
  hp.mono (fun _ _ => trivial) (fun _ hf => hf) fun _ hQ => hQ

theorem serves_lift {Q : α → Prop} {e : Except Fault α}
    (he : Sound (pageFault · = true) Q e) : Serves Q (liftM e : Prog α) :=
  .lift (Sound.serve he)

section Lookup

theorem isRegularFile_serves (path : Path) : Serves Any (isRegularFile path) := by
  refine within_perform trivial fun r => ?_
  cases r <;> exact .pure trivial

theorem subShare_serves (path : Bytes) (folder : Option Folder) (s : Share) :
    Serves Any (subShare path folder s) := by
  refine .ite (.pure trivial) (.ite (.pure trivial)
    (.ite (.pure trivial) (.ite (.pure trivial) ?_)))
  refine within_perform trivial fun r => ?_
  cases r <;> exact .pure trivial

theorem configGetSubSharesForPath_serves (urlPath : Bytes) :
    Serves Any (configGetSubSharesForPath cfg urlPath) := by
  have hfold : ∀ (shares : List Share) folder,
      Serves Any (shares.foldlM (subShare (dchTrimTrailing urlPath slash)) folder) := by
    intro shares
    induction shares with
    | nil => intro folder; exact .pure trivial
    | cons s shares ih =>
      intro folder
      rw [List.foldlM_cons]
      exact (subShare_serves _ _ s).bind fun folder _ => ih folder
  exact .ite (.pure trivial) ((hfold cfg.shares none).bind fun _ _ => .pure trivial)

theorem findCgiPrefix_serves (cuts : List (Bytes × Bytes)) :
    Serves Any (findCgiPrefix cfg cuts) := by
  induction cuts with
  | nil => exact .pure trivial
  | cons cut cuts ih =>
    obtain ⟨cgiUrl, cgiSubPath⟩ := cut
    have hne : (if cgiUrl = [] then [slash] else cgiUrl) ≠ [] := by
      split
      · exact List.cons_ne_nil _ _
      · assumption
    refine (serves_lift (configIsCGI_inside cfg hne)).bind fun matched _ => .ite ih ?_
    cases configGetSysPathForUrlPath cfg cgiUrl with
    | none => exact ih
    | some cgiExe =>
      exact (isRegularFile_serves cgiExe).bind fun isReg _ => .ite (.pure trivial) ih

theorem configFindCGI_serves {q : Bytes} (hq : q ≠ []) : Serves Any (configFindCGI cfg q) := by
  refine (serves_lift (configIsCGI_inside cfg hq)).bind fun matched _ => ?_
  refine .bind (Q := Any) ?_ fun wholePath _ => .ite (.pure trivial) (findCgiPrefix_serves _)
  cases matched with
  | false => exact .pure trivial
  | true =>
    cases configGetSysPathForUrlPath cfg q with
    | none => exact .pure trivial
    | some cgiExe => exact isRegularFile_serves cgiExe

/-- A share of a configuration file covers only paths with a slash, and the empty one. -/
theorem slash_mem_of_sysPath (hcfg : SharesParsed cfg.shares) {q path : Bytes} (hq : q ≠ [])
    (h : configGetSysPathForUrlPath cfg q = some path) : slash ∈ q := by
  by_cases hroot : q = [slash]
  · rw [hroot]; exact List.mem_cons_self
  obtain ⟨s, hs, r, hu, hr, -⟩ := configGetSysPathForUrlPath_split h
  rw [if_neg hroot] at hu
  rw [hu]
  rcases (hcfg.rooted s hs).1 with hnil | hhead
  · rcases hr with rfl | ⟨t, rfl⟩
    · exact absurd (by rw [hu, hnil]; rfl) hq
    · exact List.mem_append_right _ List.mem_cons_self
  · exact List.mem_append_left _ (List.mem_of_mem_head? hhead)

/-- A file that is found has a path of its own, and its URL path has a slash. -/
def FileHasSlash (q : Bytes) (t : Target) : Prop :=
  t.sysErrNo = none → t.isFolder = false → slash ∈ q ∧ t.sysPath.isSome = true

theorem fileHasSlash_ofError (q : Bytes) (sysPath : Option Path) (e : Errno) :
    FileHasSlash q (.ofError sysPath e) := fun h => nomatch h

theorem lookupTarget_serves (hcfg : SharesParsed cfg.shares) {q : Bytes} (hq : q ≠ []) :
    Serves (FileHasSlash q) (lookupTarget cfg q) := by
  unfold lookupTarget
  cases hpath : configGetSysPathForUrlPath cfg q with
  | none =>
    refine (configGetSubSharesForPath_serves q).bind fun folder _ => ?_
    cases folder with
    | none => exact .pure (fileHasSlash_ofError _ _ _)
    | some folder => exact .pure fun _ h => nomatch h
  | some sysPath =>
    have hslash := slash_mem_of_sysPath hcfg hq hpath
    refine within_perform trivial fun r => ?_
    cases r with
    | ok st =>
      refine .bind (Q := Any) (.ite (serves_lift (configIsCGI_inside cfg hq)) (.pure trivial)) ?_
      exact fun isCGI _ => .pure fun _ _ => ⟨hslash, rfl⟩
    | error e =>
      cases e with
      | notDir =>
        refine (configFindCGI_serves hq).bind fun found _ => ?_
        cases found with
        | none => exact .pure (fileHasSlash_ofError _ _ _)
        | some found => exact .pure fun _ _ => ⟨hslash, rfl⟩
      | _ => exact .pure (fileHasSlash_ofError _ _ _)

end Lookup

section Serving

theorem indexFileRound_serves (dirName : MemBuf) (dir : Fd) (best : Nat × Option Path) :
    Serves Any (indexFileRound cfg dirName dir best) := by
  obtain ⟨bestMatchIdx, bestIdxFile⟩ := best
  refine .ite (.pure trivial) (within_perform trivial fun r => ?_)
  cases r with
  | none => exact .pure trivial
  | some name =>
    refine .ite (.pure trivial) ?_
    cases firstMatch cfg (cfg.indexPatterns.take bestMatchIdx) name with
    | none => exact .pure trivial
    | some matchIdx =>
      refine within_perform trivial fun r => ?_
      cases r with
      | error e => exact .pure trivial
      | ok st => exact .ite (.pure trivial) (.pure trivial)

theorem configGetIndexFile_serves (fuel : Nat) (dir : Path) :
    Serves Any (configGetIndexFile fuel cfg dir) := by
  refine within_perform trivial fun r => ?_
  cases r with
  | error e => exact .pure trivial
  | ok d =>
    refine (serves_lift (mbNewWithStr_sound _)).bind fun _ _ => ?_
    refine (serves_lift (mbEnsureEndsWithSlash_sound _)).bind fun mb _ => ?_
    refine (Within.loop serveFault_outOfFuel (fun best => indexFileRound_serves mb d best) _ _).bind
      fun best _ => within_perform trivial fun _ => .pure trivial

theorem chooseIndexFile_serves (fuel : Nat) {q : Bytes} {t : Target} (ht : FileHasSlash q t)
    (hfolder : t.sysErrNo = none → t.isFolder = true → slash ∈ q) :
    Serves (FileHasSlash q) (chooseIndexFile fuel cfg t) := by
  obtain ⟨sysPath, isFolder, isCGI, isShareList, sysErrNo, cgiUrl, cgiSubPath⟩ := t
  unfold chooseIndexFile
  split
  · rename_i dir herr hisFolder hlist hdir
    refine (configGetIndexFile_serves fuel dir).bind fun r _ => ?_
    cases r with
    | error e => exact .pure fun h => nomatch h
    | ok file =>
      cases file with
      | none => exact .pure ht
      | some indexFile => exact .pure fun _ _ => ⟨hfolder herr hisFolder, rfl⟩
  · exact .pure ht

theorem processFileReq_serves {q : Bytes} (hq : slash ∈ q) (sysPath : Path) (onlyHead : Bool) :
    Serves Any (processFileReq cfg q sysPath onlyHead) := by
  refine within_perform trivial fun r => ?_
  cases r with
  | error e => exact (Serves.of_plain (printErrorPage_plain _ _ _ _ _)).any
  | ok fd =>
    refine (serves_lift (respNew_sound _ _)).bind fun _ hf => ?_
    refine (serves_lift (respAppendHeader_sound hf _ _)).bind fun resp hf => ?_
    refine .ite (within_perform trivial fun _ => .pure trivial) ?_
    cases hlast : splitAtLastByte slash q with
    | none =>
      rw [splitAtLastByte, Option.map_eq_none_iff] at hlast
      exact absurd (List.mem_reverse.mpr hq) (not_mem_of_splitAtByte hlast)
    | some p =>
      refine (serves_lift (mbAppendStrL_sound _ _)).bind fun _ _ => ?_
      refine (serves_lift (respAppendHeader_sound hf _ _)).bind fun resp _ => ?_
      exact (Serves.of_unnamed (closeFd_within _)).bind fun _ _ => .pure trivial

theorem filemgrNew_sound (sysPath : Option Path) (rhdr : RequestHeader) :
    Sound (pageFault · = true) Any (filemgrNew cfg sysPath rhdr) := by
  unfold filemgrNew
  split
  · trivial
  · split
    · exact (Sound.page (fmtError_wraps _ _ _)).bind fun _ _ => trivial
    · trivial
    · have hnew : ∀ boundary destDir, Sound (pageFault · = true) Any
          (mpdataNew boundary destDir) := fun _ _ =>
        (mbNewWithStr_sound _).bind fun _ _ => (mbAppendStr_sound _ _).bind fun _ _ => trivial
      exact (hnew _ _).bind fun _ _ => trivial

theorem serveTarget_serves (fuel : Nat) (hdlr : RequestHandler) (rhdr : RequestHeader) {q : Bytes}
    {t : Target} (ht : FileHasSlash q t) (isHeadReq : Bool) :
    Serves Any (serveTarget fuel cfg hdlr rhdr t q isHeadReq) := by
  unfold serveTarget
  split
  · exact (Serves.of_plain (printErrorPage_plain _ _ _ _ _)).bind fun _ _ => .pure trivial
  · rename_i herr
    cases hfolder : t.isFolder with
    | true => exact (serves_lift (filemgrNew_sound _ _)).bind fun _ _ => .pure trivial
    | false =>
      obtain ⟨hslash, hsys⟩ := ht herr hfolder
      obtain ⟨sysPath, hsysPath⟩ := Option.isSome_iff_exists.mp hsys
      rw [hsysPath, if_neg (by decide)]
      dsimp only
      have hcgi : ∀ peerAddr scriptName pathInfo, Serves Any
          (cgiexeNew fuel cfg rhdr sysPath peerAddr scriptName pathInfo) := fun _ _ _ =>
        (cgiexeNew_within fuel rhdr sysPath _ _ _).mono (fun _ _ => trivial) (fun _ hf => hf)
          fun _ hQ => hQ
      refine Within.ite ((hcgi _ _ _).bind fun _ _ => ?_)
        ((processFileReq_serves hslash sysPath isHeadReq).bind fun _ _ => ?_)
      · exact .pure trivial
      · exact .pure trivial

theorem doProcessRequest_serves (hcfg : SharesParsed cfg.shares) (fuel : Nat)
    (hdlr : RequestHandler) {rhdr : RequestHeader} (hpath : reqhdrGetPath rhdr ≠ []) :
    Serves Any (doProcessRequest fuel cfg hdlr rhdr) := by
  have hpage : ∀ {p : Prog RespBuf} {Q : RespBuf → Prop}, Plain Q p →
      Serves Any (p >>= fun resp => pure (hdlr, some resp)) := fun hp =>
    (Serves.of_plain hp).bind fun _ _ => .pure trivial
  refine .ite (within_perform trivial fun _ => ?_) (.ite ?_ (.ite ?_ ?_))
  · exact hpage (printUnauthorized_plain _ _)
  · exact hpage (printUnauthorized_plain _ _)
  · exact hpage (printMesgPage_plain _ _ _ _ _)
  · refine (lookupTarget_serves hcfg hpath).bind fun t ht => ?_
    have hlacks : Sound (pageFault · = true) (fun lacks => lacks = false →
        t.sysErrNo = none → t.isFolder = true → slash ∈ reqhdrGetPath rhdr)
        (lacksSlash t (reqhdrGetPath rhdr)) := by
      unfold lacksSlash
      split
      · cases hlast : (reqhdrGetPath rhdr).getLast? with
        | none => exact absurd (List.getLast?_eq_none_iff.mp hlast) hpath
        | some b =>
          intro hb _ _
          obtain rfl : b = slash := by simpa using hb
          exact List.mem_of_getLast? hlast
      · rename_i hno
        exact fun _ herr hfolder => absurd ⟨herr, hfolder⟩ hno
    refine (serves_lift hlacks).bind fun lacks hlacks => ?_
    cases lacks with
    | true => exact hpage (printMovedAddSlash_plain _ _)
    | false =>
      exact (chooseIndexFile_serves fuel ht (hlacks rfl)).bind fun t' ht' =>
        serveTarget_serves fuel hdlr rhdr ht' _

theorem reqhdlrNew_within {fuel : Nat} {rhdr : RequestHeader}
    (hproc : ∀ hdlr, Serves Any (doProcessRequest fuel cfg hdlr rhdr)) (peerAddr : Option Bytes) :
    Serves Any (reqhdlrNew fuel cfg rhdr peerAddr) := by
  refine .ite ?_ ?_
  · refine (serves_lift (respNew_sound _ _)).bind fun resp hf => ?_
    refine (serves_lift (respAppendHeader_sound hf _ _)).bind fun resp _ => ?_
    exact (Serves.of_unnamed (finishIfReady_within _)).bind fun _ _ => .pure trivial
  · exact (hproc _).bind fun r _ =>
      (Serves.of_unnamed (finishIfReady_within _)).bind fun _ _ => .pure trivial

theorem reqhdlrNew_serves (hcfg : SharesParsed cfg.shares) (fuel : Nat) {rhdr : RequestHeader}
    (hpath : reqhdrGetPath rhdr ≠ []) (peerAddr : Option Bytes) :
    Serves Any (reqhdlrNew fuel cfg rhdr peerAddr) :=
  reqhdlrNew_within (fun hdlr => doProcessRequest_serves hcfg fuel hdlr hpath) peerAddr

end Serving

section Late

theorem folderLoadDir_serves (fuel : Nat) (dir : Path) :
    Serves Any (folderLoadDir fuel cfg dir) := by
  refine within_perform trivial fun r => ?_
  cases r with
  | error e => exact .pure trivial
  | ok d =>
    refine (serves_lift (mbNewWithStr_sound _)).bind fun _ _ => ?_
    refine (serves_lift (mbEnsureEndsWithSlash_sound _)).bind fun mb _ => ?_
    refine (Within.loop serveFault_outOfFuel (fun folder => ?_) _ _).bind
      fun folder _ => within_perform trivial fun _ => .pure trivial
    refine within_perform trivial fun r => ?_
    cases r with
    | none => exact .pure trivial
    | some name =>
      refine .ite (.pure trivial) (within_perform trivial fun r => ?_)
      cases r <;> exact .pure trivial

theorem filemgrPrintFolderContents_serves (fuel : Nat) (filemgr : FileManager)
    (rhdr : RequestHeader) : Serves Any (filemgrPrintFolderContents fuel cfg filemgr rhdr) := by
  refine within_perform trivial fun _ => ?_
  have hmod : Serves Any (folderIsModifiable cfg filemgr.sysPath rhdr) := by
    unfold folderIsModifiable
    cases filemgr.sysPath with
    | none => exact .pure trivial
    | some sysPath => exact .ite ⟨trivial, fun _ => trivial⟩ (.pure trivial)
  have hload : Serves Any (loadFolder fuel cfg filemgr.sysPath (reqhdrGetPath rhdr)) := by
    unfold loadFolder
    cases filemgr.sysPath with
    | some sysPath => exact folderLoadDir_serves fuel sysPath
    | none =>
      refine (configGetSubSharesForPath_serves _).bind fun folder _ => ?_
      cases folder <;> exact .pure trivial
  refine hmod.bind fun isModifiable _ => hload.bind fun r _ => ?_
  cases r with
  | error e => exact .pure trivial
  | ok folder =>
    exact (Serves.of_plain (printFolderContents_plain _ _ _ _ _ _ _)).bind fun _ _ =>
      .pure trivial

theorem failsIn_serves {P : Fault → Prop} (hP : ∀ f, ServeFault f → P f) {Q : α → Prop}
    {p : Prog α} (hp : Serves Q p) : FailsIn P p :=
  hp.mono (fun _ _ => trivial) hP fun _ _ => trivial

/-- The reply to a request for a folder fails as the form does, or as a page. -/
theorem processFolderReq_failsIn {P : Fault → Prop} (hP : ∀ f, ServeFault f → P f) (fuel : Nat)
    {rhdr : RequestHeader} {filemgr : FileManager}
    (hpost : FailsIn P (filemgrProcessPost fuel cfg filemgr rhdr)) :
    FailsIn P (processFolderReq fuel cfg rhdr filemgr) := by
  have hpage : ∀ {p : Prog RespBuf} {Q : RespBuf → Prop} (filemgr : FileManager), Plain Q p →
      FailsIn P (p >>= fun resp => pure (filemgr, resp)) := fun _ hp =>
    (failsIn_plain (fun f hf => hP f (.inl hf)) hp).bind fun _ _ => .pure trivial
  refine .bind (Q := Any) (.ite hpost (.pure trivial)) ?_
  rintro ⟨filemgr', posted⟩ -
  refine .ite (hpage _ (printUnauthorized_plain _ _))
    (.ite ?_ (hpage _ (printErrorPage_plain _ _ _ _ _)))
  refine (failsIn_serves hP (filemgrPrintFolderContents_serves fuel filemgr' rhdr)).bind
    fun r _ => ?_
  cases r with
  | ok resp => exact .pure trivial
  | error e => exact hpage _ (printErrorPage_plain _ _ _ _ _)

theorem reqhdlrRequestReadCompleted_failsIn {P : Fault → Prop} (hP : ∀ f, ServeFault f → P f)
    (fuel : Nat) {hdlr : RequestHandler} {rhdr : RequestHeader}
    (hpost : ∀ filemgr, hdlr.filemgr = some filemgr →
      FailsIn P (filemgrProcessPost fuel cfg filemgr rhdr)) :
    FailsIn P (reqhdlrRequestReadCompleted fuel cfg hdlr rhdr) := by
  unfold reqhdlrRequestReadCompleted
  split
  · refine .bind (Q := Any) ?_ fun _ _ => .pure trivial
    refine .bind (Q := Any) ?_ fun _ _ => .pure trivial
    exact failsIn_serves hP (.of_unnamed (closeFd_within _))
  · exact .pure trivial
  · refine .bind (Q := Any) ?_
      fun r _ => (failsIn_serves hP (.of_unnamed (respFinish_within r.2))).bind
      fun _ _ => .pure trivial
    unfold lateResponse
    cases hfm : hdlr.filemgr with
    | none =>
      exact (failsIn_plain (fun f hf => hP f (.inl hf)) (printMesgPage_plain _ _ _ _ _)).bind
        fun _ _ => .pure trivial
    | some filemgr =>
      exact (processFolderReq_failsIn hP fuel (hpost filemgr hfm)).bind fun _ _ => .pure trivial

end Late

section EmptyPath

/-- A share that is not at the root is seen below the empty path. -/
theorem subShare_runs {s : Share} (hurl : RootedUrl s.urlpath) (hne : s.urlpath ≠ [])
    (folder : Option Folder) (h : History) :
    ∃ f h', Runs posix (subShare [] folder s) h (.done (some f)) h' := by
  obtain ⟨hroot, hend⟩ := hurl
  have hhead := hroot.resolve_left hne
  obtain ⟨b, rest, hcons⟩ := List.exists_cons_of_ne_nil hne
  rw [hcons] at hhead hend
  obtain rfl : b = slash := Option.some.inj hhead
  have hlisted : dchSkipLeading rest slash ≠ [] := by
    intro hnil
    have hall : ∀ c ∈ rest, c = slash := by
      intro c hc
      simpa using List.dropWhile_eq_nil_iff.mp hnil c hc
    apply hend
    rcases List.eq_nil_or_concat rest with rfl | ⟨init, c, rfl⟩
    · rfl
    · obtain rfl := hall c (by simp)
      rw [List.concat_eq_append, ← List.cons_append]
      exact List.getLast?_concat
  unfold subShare
  rw [hcons]
  simp only [List.isPrefixOf, List.length_nil, List.drop_zero, List.head?_cons, Nat.zero_add,
    List.drop_one, List.tail_cons]
  rw [if_neg (by simp), if_neg hlisted]
  split_ifs
  · exact ⟨_, _, .refl _ _⟩
  · exact ⟨_, _, .refl _ _⟩
  · exact ⟨_, _, .step (r := (Except.error .noEnt : Except Errno FileStat)) ⟨trivial, rfl⟩
      (.refl _ _)⟩

theorem configGetSubSharesForPath_runs
    (hall : ∀ s ∈ cfg.shares, RootedUrl s.urlpath ∧ s.urlpath ≠ [])
    (hne : cfg.shares ≠ []) (h : History) :
    ∃ f h', Runs posix (configGetSubSharesForPath cfg []) h (.done (some f)) h' := by
  have hfold : ∀ shares : List Share, (∀ s ∈ shares, RootedUrl s.urlpath ∧ s.urlpath ≠ []) →
      ∀ (f : Folder) h, ∃ f' h',
        Runs posix (shares.foldlM (subShare []) (some f)) h (.done (some f')) h' := by
    intro shares
    induction shares with
    | nil => exact fun _ f h => ⟨f, h, .refl _ _⟩
    | cons s shares ih =>
      intro hs f h
      obtain ⟨hurl, hnil⟩ := hs s List.mem_cons_self
      obtain ⟨f₁, h₁, hrun⟩ := subShare_runs hurl hnil (some f) h
      obtain ⟨f₂, h₂, hrest⟩ := ih (fun s hm => hs s (.tail _ hm)) f₁ h₁
      exact ⟨f₂, h₂, (hrun.bind _).trans hrest⟩
  obtain ⟨s, shares, hcons⟩ := List.exists_cons_of_ne_nil hne
  rw [hcons] at hall
  obtain ⟨hurl, hnil⟩ := hall s List.mem_cons_self
  obtain ⟨f₁, h₁, hrun⟩ := subShare_runs hurl hnil none h
  obtain ⟨f₂, h₂, hrest⟩ := hfold shares (fun s hm => hall s (.tail _ hm)) f₁ h₁
  refine ⟨folderSortEntries cfg f₂, h₂, ?_⟩
  unfold configGetSubSharesForPath
  rw [if_neg (by decide), hcons]
  have hbegin := (hrun.bind fun folder => shares.foldlM (subShare []) folder).trans hrest
  exact hbegin.bind fun folder => pure (folder.map (folderSortEntries cfg))

/-- A share at the root has the empty path. -/
theorem sysPath_of_root {s : Share} (hs : s ∈ cfg.shares) (hnil : s.urlpath = []) :
    (configGetSysPathForUrlPath cfg []).isSome = true := by
  have hkeep : ∀ (shares : List Share) (b : Share),
      (shares.foldl (betterShare []) (some b)).isSome = true := by
    intro shares
    induction shares with
    | nil => exact fun _ => rfl
    | cons a shares ih =>
      intro b
      rcases betterShare_eq [] (some b) a with he | ⟨-, he⟩
      · rw [List.foldl_cons, he]; exact ih b
      · rw [List.foldl_cons, he]; exact ih a
  have hfind : ∀ shares : List Share, s ∈ shares → ∀ best,
      (shares.foldl (betterShare []) best).isSome = true := by
    intro shares
    induction shares with
    | nil => exact fun hm => absurd hm List.not_mem_nil
    | cons a shares ih =>
      intro hm best
      cases best with
      | some b => exact hkeep (a :: shares) b
      | none =>
        rcases List.mem_cons.mp hm with rfl | hm
        · have hbetter : betterShare [] none s = some s := by
            simp [betterShare, shareCovers, hnil]
          rw [List.foldl_cons, hbetter]
          exact hkeep shares s
        · exact ih hm _
  have hbest := hfind cfg.shares hs none
  obtain ⟨best, hbest⟩ := Option.isSome_iff_exists.mp hbest
  unfold configGetSysPathForUrlPath
  simp only [List.nil_eq, List.cons_ne_nil, if_false, List.length_nil]
  rw [if_neg (by decide), hbest]
  dsimp only
  split_ifs <;> rfl

/-- The empty path is found, or shares are found below it. -/
theorem lookupTarget_empty (hcfg : SharesParsed cfg.shares) (h : History) :
    ∃ t h', Runs posix (lookupTarget cfg []) h (.done t) h' ∧ t.sysErrNo = none ∧
      t.isFolder = true := by
  unfold lookupTarget
  cases hpath : configGetSysPathForUrlPath cfg [] with
  | some sysPath =>
    exact ⟨_, _, .step (r := (Except.ok ⟨true, false, 0, 0⟩ : Except Errno FileStat))
      ⟨trivial, rfl⟩ (.refl _ _), rfl, rfl⟩
  | none =>
    have hall : ∀ s ∈ cfg.shares, RootedUrl s.urlpath ∧ s.urlpath ≠ [] := by
      intro s hs
      refine ⟨hcfg.rooted s hs, fun hnil => ?_⟩
      have hsome := sysPath_of_root hs hnil
      rw [hpath] at hsome
      cases hsome
    obtain ⟨f, h', hrun⟩ := configGetSubSharesForPath_runs hall hcfg.nonempty h
    exact ⟨_, _, hrun.bind _, rfl, rfl⟩

variable {rhdr : RequestHeader}

/-- The request is not answered with 401 at once, so its path is looked at. -/
def pathLooked (cfg : Config) (rhdr : RequestHeader) : Bool :=
  reqhdrGetLoginState rhdr != .loginFail && reqhdrIsActionAllowed cfg rhdr .servePage

theorem doProcessRequest_refused (hlooked : pathLooked cfg rhdr = false) (fuel : Nat)
    (hdlr : RequestHandler) : Serves Any (doProcessRequest fuel cfg hdlr rhdr) := by
  have hpage : Serves Any (printUnauthorized (reqhdrGetPath rhdr)
      (reqhdrGetMethod rhdr == ascii "HEAD") >>= fun resp => pure (hdlr, some resp)) :=
    (Serves.of_plain (printUnauthorized_plain _ _)).bind fun _ _ => .pure trivial
  unfold doProcessRequest
  dsimp only
  by_cases hlogin : reqhdrGetLoginState rhdr = .loginFail
  · rw [if_pos hlogin]
    exact within_perform trivial fun _ => hpage
  · have hserve : reqhdrIsActionAllowed cfg rhdr .servePage = false := by
      simpa [pathLooked, hlogin] using hlooked
    rw [if_neg hlogin, if_pos (by rw [hserve]; rfl)]
    exact hpage

/-- An empty path that is looked at is read in front of its first byte. -/
theorem empty_path_faults (hcfg : SharesParsed cfg.shares)
    (hmeth : reqhdrGetMethod rhdr ∈ [ascii "GET", ascii "HEAD", ascii "POST"])
    (hpath : reqhdrGetPath rhdr = []) (hlooked : pathLooked cfg rhdr = true) :
    ∃ h', Runs posix (reqhdlrNew 0 cfg rhdr none) [] (.fault (.indexOutOfRange .urlPath)) h' := by
  obtain ⟨t, h', hrun, herr, hfolder⟩ := lookupTarget_empty hcfg []
  have hlacks : lacksSlash t [] = .error (.indexOutOfRange .urlPath) := by
    rw [lacksSlash, if_pos ⟨herr, hfolder⟩]
    rfl
  simp only [pathLooked, Bool.and_eq_true, bne_iff_ne] at hlooked
  have hmethod : ¬ (reqhdrGetMethod rhdr ≠ ascii "GET" ∧ reqhdrGetMethod rhdr ≠ ascii "POST" ∧
      (! (reqhdrGetMethod rhdr == ascii "HEAD")) = true) := by
    rintro ⟨hget, hpost, hhead⟩
    simp only [List.mem_cons, List.not_mem_nil, or_false] at hmeth
    rcases hmeth with h | h | h
    · exact hget h
    · rw [h] at hhead
      exact absurd hhead (by decide)
    · exact hpost h
  have hdots : hasDotDot [] = false := by decide
  refine ⟨h', ?_⟩
  unfold reqhdlrNew doProcessRequest
  dsimp only
  rw [if_neg hmethod, if_neg hlooked.1, if_neg (by rw [hlooked.2]; decide), hpath,
    if_neg (by rw [hdots]; decide)]
  refine ((hrun.bind _).bind _).trans ?_
  rw [Program.done_bind, hlacks]
  exact .refl _ _

end EmptyPath

/-- Choosing the response and building it read the path inside its bounds. -/
structure PathInside (cfg : Config) (rhdr : RequestHeader) : Prop where
  choosing : ∀ fuel peerAddr h h' f,
    Runs posix (reqhdlrNew fuel cfg rhdr peerAddr) h (.fault f) h' → ¬ PathFault f
  building : ∀ fuel hdlr h h' f,
    Runs posix (reqhdlrRequestReadCompleted fuel cfg hdlr rhdr) h (.fault f) h' → ¬ PathFault f

/-- A folder is read from its path alone, and the parts of a form do not matter. -/
theorem building_inside (fuel : Nat) (hdlr : RequestHandler) (rhdr : RequestHeader) :
    FailsIn (¬ PathFault ·) (reqhdlrRequestReadCompleted fuel cfg hdlr rhdr) := by
  have hjoin : ∀ sysPath, JoinFaults (¬ PathFault ·) sysPath := fun _ =>
    ⟨fun _ => by decide, fun _ => by decide⟩
  have hbasic : BasicFaults (¬ PathFault ·) := ⟨by decide, by decide⟩
  have hupload : ¬ PathFault (.nullPointer .filePathName) := by decide
  have hpart : ¬ PathFault (.nullPointer .contentPart) := by decide
  refine reqhdlrRequestReadCompleted_failsIn (fun f hf => not_pathFault_of_serve hf) fuel
    fun filemgr _ => ?_
  exact filemgrProcessPost_failsIn fuel hbasic (fun _ _ => .inl hupload) fun mpdata _ _ =>
    ⟨hbasic, fun _ => hpart, fun _ => hjoin _, .inl hupload⟩

/-- Every read of the path stays inside it exactly when the path is not empty, or is not
looked at. -/
theorem path_inside_iff {htmlDir : Bytes} {lines : List Bytes} (hdir : nul ∉ htmlDir)
    (hshares : cfg.shares = configParseShares htmlDir lines) {rhdr : RequestHeader}
    (hmeth : reqhdrGetMethod rhdr ∈ [ascii "GET", ascii "HEAD", ascii "POST"]) :
    PathInside cfg rhdr ↔ reqhdrGetPath rhdr ≠ [] ∨ pathLooked cfg rhdr = false := by
  have hcfg : SharesParsed cfg.shares := hshares ▸ configParseShares_parsed hdir lines
  constructor
  · intro hinside
    by_contra hbad
    push Not at hbad
    obtain ⟨hpath, hlooked⟩ := hbad
    obtain ⟨h', hrun⟩ := empty_path_faults hcfg hmeth hpath (by simpa using hlooked)
    exact hinside.choosing _ _ _ _ _ hrun (.inl rfl)
  · intro hok
    have hnew : ∀ fuel peerAddr, Serves Any (reqhdlrNew fuel cfg rhdr peerAddr) := by
      intro fuel peerAddr
      rcases hok with hpath | hlooked
      · exact reqhdlrNew_serves hcfg fuel hpath peerAddr
      · exact reqhdlrNew_within (fun hdlr => doProcessRequest_refused hlooked fuel hdlr) peerAddr
    exact ⟨fun fuel peerAddr h h' f hrun =>
        not_pathFault_of_serve ((hnew fuel peerAddr).faults hrun),
      fun fuel hdlr h h' f hrun => (building_inside fuel hdlr rhdr).faults hrun⟩

section Example

/-- The configuration without any share of its own: the built-in page is at the root. -/
def welcomeConfig : Config :=
  { bareConfig with shares := configParseShares (ascii "/usr/share/filemanager-httpd") [] }

def headHeader : RequestHeader :=
  { reqhdrNew with request := ascii "HEAD", path := some (ascii "/a"), version := ascii "1.1" }

theorem path_inside_iff_head : PathInside welcomeConfig headHeader :=
  (path_inside_iff (show nul ∉ ascii "/usr/share/filemanager-httpd" by decide +kernel)
    (show welcomeConfig.shares = configParseShares _ [] from rfl) (by decide +kernel)).mpr
      (.inl (by decide +kernel))

/-- Every path is a regular file that can be opened. -/
def regularFiles : Environment := fun h c =>
  match c with
  | .stat _ => ⟨.ok ⟨false, true, 0o644, 0⟩, trivial⟩
  | .openRead _ => ⟨.ok (Environment.freshFd h), Environment.freshFd_not_mem h⟩
  | c => Environment.quiet h c

/-- What two spaces behind the method make of the path. -/
def emptyPathHeader : RequestHeader :=
  { reqhdrNew with request := ascii "GET", path := some [], version := ascii "1.1" }

/-- The built-in page, asked for with an empty path: `strrchr` finds no slash. -/
theorem path_inside_empty :
    ¬ ∀ (data : Bytes) (rhdr : RequestHeader) (offset : Nat),
      reqhdrAppendData welcomeConfig reqhdrNew data = .ok (rhdr, some offset) →
      reqhdrGetMethod rhdr ∈ [ascii "GET", ascii "HEAD", ascii "POST"] →
      PathInside welcomeConfig rhdr := by
  intro hclaim
  have hread : reqhdrAppendData welcomeConfig reqhdrNew
      (ascii "GET  HTTP/1.1" ++ crlf ++ crlf) = .ok (emptyPathHeader, some 17) := by
    decide +kernel
  have hinside := hclaim _ _ _ hread (by decide +kernel)
  have hrun := playIn_faults regularFiles (reqhdlrNew 9 welcomeConfig emptyPathHeader none) []
    (f := .nullPointer .lastSlash) (by decide +kernel)
  exact hinside.choosing _ _ _ _ _ hrun (.inr rfl)

end Example

end FilemanagerHttpd.Audit
