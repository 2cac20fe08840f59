import FilemanagerHttpd.Audit.RequestPaths

/-!
# Forms with missing parts

Which forms make an operation follow a part that is missing, or join a name to the path of a
folder that has none, for the file managers that a request can have.
-/

namespace FilemanagerHttpd.Audit

open Library Server

/-- The file managers of requests: as they are created, and with parts of the body read. -/
inductive FormRead (cfg : Config) : FileManager → Prop
  | created {fuel : Nat} {peerAddr : Option Bytes} {rhdr : RequestHeader} {h h' : History}
      {hdlr : RequestHandler} {filemgr : FileManager} :
      Runs posix (reqhdlrNew fuel cfg rhdr peerAddr) h (.done hdlr) h' →
      hdlr.filemgr = some filemgr → FormRead cfg filemgr
  | consumed {fuel : Nat} {data : Bytes} {h h' : History} {filemgr filemgr' : FileManager} :
      FormRead cfg filemgr →
      Runs posix (filemgrConsumeBodyBytes fuel filemgr data) h (.done filemgr') h' →
      FormRead cfg filemgr'

/-- What holds of the file manager of a request: a folder has a path that is not empty, and the
parts of the form know the files they are written to. -/
structure FormOk (filemgr : FileManager) : Prop where
  path : filemgr.sysPath ≠ some []
  parts : ∀ mpdata, filemgr.body = some mpdata → PartsOk mpdata

section Uploads

theorem dispositionParam_ok {cpart : ContentPart} (h : cpart.fileDesc = none) (p : Param) :
    (dispositionParam cpart p).fileDesc = none := by
  unfold dispositionParam
  split_ifs <;> exact h

theorem readDisposition_closed {cpart : ContentPart} (h : cpart.fileDesc = none) :
    (readDisposition cpart).fileDesc = none := by
  have hfold : ∀ (params : List Param) (cpart : ContentPart), cpart.fileDesc = none →
      (params.foldl dispositionParam cpart).fileDesc = none := by
    intro params
    induction params with
    | nil => exact fun _ h => h
    | cons p params ih => exact fun cpart h => ih _ (dispositionParam_ok h p)
  unfold readDisposition
  split
  · exact h
  · split
    · exact h
    · exact hfold _ _ h

theorem openUpload_yields {cpart : ContentPart} (h : cpart.fileDesc = none)
    {destDir fileName : Bytes} (hdir : cpart.destDir = some destDir) (hname : cpart.fileName = some fileName) :
    Yields (S := sys) PartOk (openUpload cpart destDir fileName) := by
  have hopen : ∀ path fd, PartOk { cpart with filePathName := some path, fileDesc := some fd } :=
    fun path fd _ => ⟨rfl, by rw [hdir]; rfl, by rw [hname]; rfl⟩
  have hfail : ∀ path e, PartOk { cpart with filePathName := some path, sysErrNo := some e } :=
    fun path e hfd => by rw [show cpart.fileDesc = none from h] at hfd; cases hfd
  refine Yields.seq fun dir => Yields.seq fun filePathName => ?_
  refine Yields.seq fun r => ?_
  split
  · exact .pure (hopen _ _)
  · refine Yields.seq fun r => ?_
    split
    · exact .pure (hopen _ _)
    · exact .pure (hfail _ _)
  · exact .pure (hfail _ _)

theorem headerComplete_yields {cpart : ContentPart} (h : cpart.fileDesc = none) :
    Yields (S := sys) PartOk (headerComplete cpart) := by
  have hclosed := readDisposition_closed h
  have hnone : ∀ c : ContentPart, c.fileDesc = none → PartOk c := fun c hc hfd => by
    rw [hc] at hfd; cases hfd
  unfold headerComplete
  dsimp only
  split
  · exact .pure (hnone _ hclosed)
  · exact .pure (hnone _ hclosed)
  · rename_i fileName destDir hname hdir
    exact openUpload_yields hclosed hdir hname

theorem storeBody_yields (fuel : Nat) {cpart : ContentPart} (h : PartOk cpart) (data : Bytes) :
    Yields (S := sys) PartOk (storeBody fuel cpart data) := by
  unfold storeBody
  split
  · refine Yields.iterate (I := fun x => PartOk x.1) ?_ fuel h
    rintro ⟨cpart, offset⟩ hok
    unfold writeFileRound
    dsimp only
    split
    · exact .pure hok
    · refine .ite (fun _ => Yields.seq fun r => ?_) fun _ => .pure hok
      split
      · exact .pure hok
      · refine Yields.seq fun _ => ?_
        split
        · exact .fault
        · exact Yields.seq fun _ => .pure fun hfd => nomatch hfd
  · refine Yields.seq fun body => .pure ?_
    exact h
  · exact .fault

theorem cpartAppendData_yields (fuel : Nat) {cpart : ContentPart} (h : PartOk cpart)
    (data : Bytes) : Yields (S := sys) PartOk (cpartAppendData fuel cpart data) := by
  refine .ite (fun hnew => Yields.seq fun r => ?_) fun _ => storeBody_yields fuel h data
  have hclosed : cpart.fileDesc = none := by
    by_contra hne
    have hname := (h (Option.isSome_iff_ne_none.mpr hne)).2.2
    rw [hnew.1] at hname
    cases hname
  obtain ⟨header, offset⟩ := r
  cases offset with
  | none => exact .pure h
  | some offset =>
    have hnew : ({ cpart with header } : ContentPart).fileDesc = none := hclosed
    exact (headerComplete_yields hnew).bind fun c hc => storeBody_yields fuel hc _

theorem appendToLastPart_yields (fuel : Nat) {mpdata : MultipartData} (h : PartsOk mpdata)
    (data : Bytes) : Yields (S := sys) PartsOk (appendToLastPart fuel mpdata data) := by
  unfold appendToLastPart
  cases hlast : mpdata.parts.getLast? with
  | none => exact .pure h
  | some cpart =>
    refine Yields.bind (cpartAppendData_yields fuel (h _ (List.mem_of_getLast? hlast)) data) ?_
    intro c hc
    refine .pure fun d hd => ?_
    rcases List.mem_append.mp hd with hd | hd
    · exact h d (List.mem_of_mem_dropLast hd)
    · rw [List.mem_singleton.mp hd]
      exact hc

theorem continueDelimiter_yields (fuel : Nat) {mpdata : MultipartData} (h : PartsOk mpdata)
    (delim data : Bytes) :
    Yields (S := sys) (fun r => PartsOk r.1) (continueDelimiter fuel mpdata delim data) := by
  refine .ite (fun _ => .pure h) fun _ => .ite (fun _ => ?_) fun _ =>
    .ite (fun _ => .pure h) fun _ => .pure h
  exact (appendToLastPart_yields fuel h _).bind fun m hm => .pure hm

theorem partBody_yields (fuel : Nat) {mpdata : MultipartData} (h : PartsOk mpdata)
    (delim data : Bytes) :
    Yields (S := sys) (fun r => PartsOk r.1) (partBody fuel mpdata delim data) :=
  (appendToLastPart_yields fuel h _).bind fun _ hm => .ite (fun _ => .pure hm) fun _ => .pure hm

theorem boundaryLine_parts {mpdata mpdata' : MultipartData} {data : Bytes} {rest : Option Bytes}
    (h : PartsOk mpdata) (hb : boundaryLine mpdata data = .ok (mpdata', rest)) :
    PartsOk mpdata' := by
  have hadd : ∀ cpart ∈ mpdata.parts ++ [cpartNew mpdata.destDir], PartOk cpart := by
    intro cpart hm
    rcases List.mem_append.mp hm with hm | hm
    · exact h cpart hm
    · rw [List.mem_singleton.mp hm]
      exact nofun
  unfold boundaryLine at hb
  split at hb
  · cases hb
  · dsimp only at hb
    split at hb
    · obtain ⟨rfl, -⟩ := Prod.mk.inj (Except.ok.inj hb)
      exact hadd
    · obtain ⟨rfl, -⟩ := Prod.mk.inj (Except.ok.inj hb)
      exact hadd

theorem mpdataAppendData_yields (fuel : Nat) {mpdata : MultipartData} (h : PartsOk mpdata)
    (data : Bytes) : Yields (S := sys) PartsOk (mpdataAppendData fuel mpdata data) := by
  unfold mpdataAppendData
  split
  · exact .pure h
  · rename_i delim _
    refine (continueDelimiter_yields fuel h delim data).bind ?_
    rintro ⟨m, rest⟩ hm
    refine Yields.iterate (I := fun x => PartsOk x.1) ?_ _ hm
    rintro ⟨m, data⟩ hm
    refine .ite (fun _ => .pure hm) fun _ => ?_
    dsimp only at hm ⊢
    split
    · exact (partBody_yields fuel hm delim data).bind fun r hr => .pure hr
    · refine .ite (fun _ => .pure hm) fun _ => ?_
      cases hb : boundaryLine m data with
      | error f => exact .fault
      | ok r =>
        obtain ⟨m', rest⟩ := r
        have hm' := boundaryLine_parts hm hb
        cases rest with
        | none => exact .pure hm'
        | some rest =>
          cases rest with
          | nil => exact .pure hm'
          | cons b rest =>
            exact (partBody_yields fuel hm' delim _).bind fun r hr => .pure hr

end Uploads

section Requests

variable {cfg : Config}

theorem sysPath_ne_nil {urlPath : Bytes} : configGetSysPathForUrlPath cfg urlPath ≠ some [] := by
  intro h
  unfold configGetSysPathForUrlPath at h
  generalize hu : (if urlPath = [slash] then [] else urlPath) = u at h
  simp only at h
  split at h
  · cases h
  split at h
  · cases h
  · rename_i best _
    split at h
    · rename_i hlen
      have hnil := congrArg List.length (Option.some.inj h)
      rw [List.length_append, List.length_drop, List.length_nil] at hnil
      omega
    · split at h
      · cases h
      · rename_i hne
        exact hne (Option.some.inj h)

/-- A folder that is found has a path that is not empty. -/
def FolderNamed (t : Target) : Prop := t.isFolder = true → t.sysPath ≠ some []

theorem lookupTarget_named (q : Bytes) :
    Yields (S := sys) FolderNamed (lookupTarget cfg q) := by
  unfold lookupTarget
  split
  · refine Yields.seq fun folder => ?_
    split
    · exact .pure fun hfolder => by cases hfolder
    · exact .pure fun _ he => by cases he
  · rename_i sysPath hpath
    refine Yields.seq fun r => ?_
    split
    · refine Yields.seq fun isCGI => .pure fun _ he => ?_
      obtain rfl : sysPath = [] := Option.some.inj he
      exact sysPath_ne_nil hpath
    · refine Yields.seq fun found => ?_
      split
      · exact .pure fun hfolder => by cases hfolder
      · exact .pure fun hfolder => by cases hfolder
    · exact .pure fun hfolder => by cases hfolder

theorem chooseIndexFile_named (fuel : Nat) {t : Target} (ht : FolderNamed t) :
    Yields (S := sys) FolderNamed (chooseIndexFile fuel cfg t) := by
  obtain ⟨sysPath, isFolder, isCGI, isShareList, sysErrNo, cgiUrl, cgiSubPath⟩ := t
  unfold chooseIndexFile
  split
  · refine Yields.seq fun r => ?_
    split
    · exact .pure ht
    · exact .pure ht
    · exact .pure nofun
  · exact .pure ht

theorem filemgrNew_ok {sysPath : Option Path} (hpath : sysPath ≠ some []) {rhdr : RequestHeader}
    {filemgr : FileManager} (h : filemgrNew cfg sysPath rhdr = .ok filemgr) : FormOk filemgr := by
  refine ⟨by rw [filemgrNew_sysPath h]; exact hpath, fun mpdata hbody => ?_⟩
  unfold filemgrNew at h
  split at h
  · rw [← Except.ok.inj h] at hbody; cases hbody
  · split at h
    · obtain ⟨err, -, h⟩ := bind_ok h
      rw [← Except.ok.inj h] at hbody; cases hbody
    · rw [← Except.ok.inj h] at hbody; cases hbody
    · obtain ⟨body, hnew, h⟩ := bind_ok h
      rw [← Except.ok.inj h] at hbody
      obtain rfl : body = mpdata := Option.some.inj hbody
      obtain ⟨mb, -, hnew⟩ := bind_ok hnew
      obtain ⟨mb', -, hnew⟩ := bind_ok hnew
      rw [← Except.ok.inj hnew]
      exact fun c hc => absurd hc List.not_mem_nil

/-- The file manager of a handler, if it has one, is as it should be. -/
def HandlerFormOk (hdlr : RequestHandler) : Prop :=
  ∀ filemgr, hdlr.filemgr = some filemgr → FormOk filemgr

theorem serveTarget_formOk (fuel : Nat) {hdlr : RequestHandler} (hnone : hdlr.filemgr = none)
    (rhdr : RequestHeader) {t : Target} (ht : FolderNamed t) (q : Bytes) (isHeadReq : Bool) :
    Yields (S := sys) (fun r => HandlerFormOk r.1)
      (serveTarget fuel cfg hdlr rhdr t q isHeadReq) := by
  have hkeep : ∀ {h : RequestHandler}, h.filemgr = none → HandlerFormOk h := fun hnone fm hfm => by
    rw [hnone] at hfm; cases hfm
  unfold serveTarget
  split
  · exact Yields.seq fun _ => .pure (hkeep hnone)
  · refine .ite (fun hfolder => ?_) fun _ => ?_
    · cases hnew : filemgrNew cfg t.sysPath rhdr with
      | error f => exact .fault
      | ok filemgr =>
        refine .pure fun fm hfm => ?_
        obtain rfl : filemgr = fm := Option.some.inj hfm
        exact filemgrNew_ok (ht hfolder) hnew
    · split
      · exact .fault
      · exact .ite (fun _ => Yields.seq fun _ => .pure (hkeep hnone)) fun _ =>
          Yields.seq fun _ => .pure (hkeep hnone)

theorem reqhdlrNew_formOk (fuel : Nat) (rhdr : RequestHeader) (peerAddr : Option Bytes) :
    Yields (S := sys) HandlerFormOk (reqhdlrNew fuel cfg rhdr peerAddr) := by
  have hkeep : ∀ {h : RequestHandler}, h.filemgr = none → HandlerFormOk h := fun hnone fm hfm => by
    rw [hnone] at hfm; cases hfm
  refine .ite (fun _ => ?_) fun _ => ?_
  · exact Yields.seq fun _ => Yields.seq fun _ => Yields.seq fun _ => .pure (hkeep rfl)
  · have hproc : Yields (S := sys) (fun r => HandlerFormOk r.1)
        (doProcessRequest fuel cfg ⟨peerAddr, none, none, none⟩ rhdr) := by
      refine .ite (fun _ => Yields.seq fun _ => Yields.seq fun _ => .pure (hkeep rfl)) fun _ =>
        .ite (fun _ => Yields.seq fun _ => .pure (hkeep rfl)) fun _ =>
        .ite (fun _ => Yields.seq fun _ => .pure (hkeep rfl)) fun _ => ?_
      refine (lookupTarget_named _).bind fun t ht => Yields.seq fun lacks => ?_
      refine .ite (fun _ => Yields.seq fun _ => .pure (hkeep rfl)) fun _ => ?_
      exact (chooseIndexFile_named fuel ht).bind fun t ht =>
        serveTarget_formOk fuel rfl rhdr ht _ _
    exact hproc.bind fun r hr => Yields.seq fun _ => .pure hr

theorem FormRead.ok {filemgr : FileManager} (hread : FormRead cfg filemgr) : FormOk filemgr := by
  induction hread with
  | created hrun hfm => exact (reqhdlrNew_formOk _ _ _).returns hrun _ hfm
  | @consumed fuel data _ _ filemgr _ _ hrun ih =>
    have hconsume : Yields (S := sys) FormOk (filemgrConsumeBodyBytes fuel filemgr data) := by
      unfold filemgrConsumeBodyBytes
      cases hbody : filemgr.body with
      | none => exact .pure ih
      | some mpdata =>
        refine (mpdataAppendData_yields fuel (ih.parts mpdata hbody) data).bind fun m hm => ?_
        refine .pure ⟨ih.path, fun m' he => ?_⟩
        obtain rfl : m = m' := Option.some.inj he
        exact hm
    exact hconsume.returns hrun

end Requests

section Forms

variable {cfg : Config} {filemgr : FileManager} {rhdr : RequestHeader}

/-- Each operation of the form has what it needs: its part, and the path of the folder when a
name is joined to it. -/
def FormComplete (cfg : Config) (filemgr : FileManager) (rhdr : RequestHeader) : Prop :=
  ∀ mpdata, filemgr.body = some mpdata → formAllowed cfg rhdr mpdata = true →
    missingPart mpdata = false ∧ (joinsName mpdata = true → filemgr.sysPath ≠ none)

/-- An operation that ends, ends with success or with a message, unless a text of 4 GiB makes
a size wrap. -/
def EndsWell (cfg : Config) (filemgr : FileManager) (rhdr : RequestHeader) : Prop :=
  ∀ fuel h h' f, Runs posix (filemgrProcessPost fuel cfg filemgr rhdr) h (.fault f) h' →
    f = .heapOverflow ∨ f = .outOfFuel

/-- The null pointers that the operations follow. -/
theorem dispatchForm_missing {mpdata : MultipartData} (sysPath : Option Path) (fuel : Nat)
    (h : missingPart mpdata = true) :
    dispatchForm fuel cfg sysPath mpdata = .fault (.nullPointer .contentPart) := by
  unfold missingPart at h
  unfold dispatchForm
  dsimp only at h ⊢
  by_cases hadd : mpdataContainsPartWithName mpdata (ascii "do_add") = true
  · simp only [hadd, if_true, Bool.not_eq_true'] at h ⊢
    rw [addNewFile, derefPart_missing h]
    rfl
  rw [Bool.not_eq_true] at hadd
  simp only [hadd, Bool.false_eq_true, if_false] at h ⊢
  split at h
  · cases h
  · rename_i hother
    simp only [Bool.or_eq_true, not_or] at hother
    simp only [Bool.and_eq_true, Bool.not_eq_true'] at h
    rw [if_neg hother.1, if_neg hother.2, if_pos h.1, replaceFile, derefPart_missing h.2]
    rfl

theorem dispatchForm_joins {mpdata : MultipartData} (fuel : Nat) (h : joinsName mpdata = true) :
    dispatchForm fuel cfg none mpdata = .fault (.nullPointer .sysPath) := by
  unfold joinsName at h
  unfold dispatchForm
  dsimp only at h ⊢
  by_cases hadd : mpdataContainsPartWithName mpdata (ascii "do_add") = true
  · simp [hadd] at h
  rw [Bool.not_eq_true] at hadd
  simp only [hadd, Bool.false_eq_true, if_false] at h ⊢
  by_cases hrename : mpdataContainsPartWithName mpdata (ascii "do_rename") = true
  · simp only [hrename, if_true, Bool.not_eq_true'] at h ⊢
    rw [renameFile_joins cfg h]
    rfl
  rw [Bool.not_eq_true] at hrename
  simp only [hrename, Bool.false_eq_true, if_false] at h ⊢
  by_cases hnewdir : mpdataContainsPartWithName mpdata (ascii "do_newdir") = true
  · simp only [hnewdir, if_true, Bool.not_eq_true'] at h ⊢
    rw [createNewdir_joins cfg h]
    rfl
  rw [Bool.not_eq_true] at hnewdir
  simp only [hnewdir, Bool.false_eq_true, if_false] at h ⊢
  by_cases hreplace : mpdataContainsPartWithName mpdata (ascii "do_replace") = true
  · simp only [hreplace, if_true, Bool.and_eq_true] at h ⊢
    obtain ⟨hfile, hcont⟩ := h
    obtain ⟨fname, hfname⟩ := Option.isSome_iff_exists.mp hfile
    have hpart : mpdataContainsPartWithName mpdata (ascii "new_cont") = true := by
      unfold mpdataContainsPartWithName
      cases hget : mpdataGetPartByName mpdata (ascii "new_cont") with
      | none => rw [hget] at hcont; cases hcont
      | some cpart => rfl
    obtain ⟨i, cpart, hderef, hget, -⟩ := derefPart_present hpart
    rw [hget] at hcont
    obtain ⟨path, hpath⟩ := Option.isSome_iff_exists.mp (show cpart.filePathName.isSome = true
      from hcont)
    have hgetPath : cpartGetFilePathName cpart = some path := hpath
    rw [replaceFile, hderef, hfname]
    show (Program.done (i, cpart) >>= _ : Prog (MultipartData × Option Bytes)) = _
    rw [Program.done_bind]
    simp only [hgetPath]
    rfl
  rw [Bool.not_eq_true] at hreplace
  simp only [hreplace, Bool.false_eq_true, if_false] at h ⊢
  by_cases hdelete : mpdataContainsPartWithName mpdata (ascii "do_delete") = true
  · simp only [hdelete, if_true, Bool.not_eq_true'] at h ⊢
    rw [deleteFile_joins cfg fuel _ h]
    rfl
  rw [Bool.not_eq_true] at hdelete
  simp only [hdelete, Bool.false_eq_true, if_false, Bool.and_eq_true, Bool.not_eq_true'] at h ⊢
  rw [if_pos h.1, chmodFile_joins cfg h.2]
  rfl

theorem filemgrProcessPost_fault {mpdata : MultipartData} (hbody : filemgr.body = some mpdata)
    (hallowed : formAllowed cfg rhdr mpdata = true) {f : Fault} (fuel : Nat)
    (h : dispatchForm fuel cfg filemgr.sysPath mpdata = .fault f) :
    filemgrProcessPost fuel cfg filemgr rhdr = .fault f := by
  simp only [formAllowed, Bool.and_eq_true, Bool.not_eq_true'] at hallowed
  obtain ⟨hlogin, havail, hmodify⟩ := hallowed
  unfold filemgrProcessPost
  rw [hbody]
  dsimp only
  rw [handleForm, if_neg (by simp [hlogin]), if_neg (by simp [havail]),
    if_neg (by simp [hmodify]), h]
  rfl

theorem EndsWell.at_once (hend : EndsWell cfg filemgr rhdr) {f : Fault}
    (h : filemgrProcessPost 0 cfg filemgr rhdr = .fault f) : f = .heapOverflow ∨ f = .outOfFuel :=
  hend 0 [] [] f (by rw [h]; exact .refl _ _)

end Forms

section Example

/-- A form posted to the folder `/pub/`. -/
def postHeader : RequestHeader :=
  { reqhdrNew with
    request := ascii "POST", path := some (ascii "/pub/"), version := ascii "1.1"
    headers := [(ascii "Content-Type", ascii " multipart/form-data; boundary=b")] }

/-- A form with nothing but one button. -/
def buttonBody (button : Bytes) : Bytes :=
  ascii "--b" ++ crlf ++ ascii "Content-Disposition: form-data; name=" ++ button ++ crlf ++ crlf ++
    ascii "1" ++ crlf ++ ascii "--b--"

def newForm : FileManager where
  sysPath := some (ascii "/srv/")
  body := some ⟨some (crlf ++ ascii "--b"), some (ascii "/srv/"), .body, 2, []⟩
  opErrorMsg := none

def buttonForm (button : Bytes) : FileManager where
  sysPath := some (ascii "/srv/")
  body := some ⟨none, some (ascii "/srv/"), .gotBoundary, 0,
    [{ cpartNew (some (ascii "/srv/")) with
      header := ⟨[(ascii "Content-Disposition", ascii " form-data; name=" ++ button)], []⟩
      name := some button
      body := some ⟨ascii "1"⟩ }]⟩
  opErrorMsg := none

theorem newForm_read : FormRead oneShare newForm := by
  have hplay : (playIn directories (reqhdlrNew 9 oneShare postHeader none) []).1.result? =
      some ⟨none, some newForm, none, none⟩ := by decide +kernel
  exact .created (playIn_returns directories _ [] hplay) rfl

theorem addForm_read : FormRead oneShare (buttonForm (ascii "do_add")) := by
  have hplay : (playIn directories (filemgrConsumeBodyBytes 9 newForm
      (buttonBody (ascii "do_add"))) []).1.result? = some (buttonForm (ascii "do_add")) := by
    decide +kernel
  exact .consumed newForm_read (playIn_returns directories _ [] hplay)

theorem permForm_read : FormRead oneShare (buttonForm (ascii "do_perm")) := by
  have hplay : (playIn directories (filemgrConsumeBodyBytes 9 newForm
      (buttonBody (ascii "do_perm"))) []).1.result? = some (buttonForm (ascii "do_perm")) := by
    decide +kernel
  exact .consumed newForm_read (playIn_returns directories _ [] hplay)

end Example

end FilemanagerHttpd.Audit
