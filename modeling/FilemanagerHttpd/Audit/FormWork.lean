import FilemanagerHttpd.Audit.Duties
import FilemanagerHttpd.Audit.FormFaults
import FilemanagerHttpd.Audit.UploadSteps

/-!
# What a form owns

Each unfinished upload of a form owns its file. Uploads are stored only where the user may modify
the folder, and the file manager changes the folder only then.
-/

namespace FilemanagerHttpd.Audit

open Library Server

/-- The file of an unfinished upload. -/
def partFds (cpart : ContentPart) : Multiset Fd := fdOf cpart.fileDesc

def formFds (mpdata : MultipartData) : Multiset Fd := (mpdata.parts.map partFds).sum

def filemgrFds (filemgr : FileManager) : Multiset Fd := fdsIf formFds filemgr.body

variable (cfg : Config) (st : LoginState)

/-- A part has a place to store its body, or a file, only where the user may modify the folder. -/
structure PartAllowed (cpart : ContentPart) : Prop where
  named : cpart.fileDesc ≠ none → cpart.fileName ≠ none
  mayModify : cpart.destDir ≠ none ∨ cpart.fileDesc ≠ none → MayModify cfg st

structure FormAllowed (mpdata : MultipartData) : Prop where
  parts : ∀ cpart ∈ mpdata.parts, PartAllowed cfg st cpart
  mayModify : mpdata.destDir ≠ none → MayModify cfg st

def FilemgrAllowed (filemgr : FileManager) : Prop :=
  ∀ mpdata, filemgr.body = some mpdata → FormAllowed cfg st mpdata

variable {cfg st} {own : Multiset Fd} {h : History} {α β : Type}

theorem ordinary_basic : BasicFaults Ordinary := ⟨by decide, by decide⟩

section Uploads

theorem openUpload_works (hmod : MayModify cfg st) {cpart : ContentPart}
    (hclosed : cpart.fileDesc = none) (hname : cpart.fileName ≠ none) (destDir fileName : Bytes) :
    Works cfg st 0 (openUpload cpart destDir fileName) (Has partFds (PartAllowed cfg st)) h := by
  have hopened : ∀ path fd t, Has partFds (PartAllowed cfg st)
      { cpart with filePathName := some path, fileDesc := some fd } {fd} t :=
    fun path fd t => ⟨rfl, fun _ => hname, fun _ => hmod⟩
  have hfailed : ∀ path e t, Has partFds (PartAllowed cfg st)
      { cpart with filePathName := some path, sysErrNo := some e } 0 t := by
    refine fun path e t => ⟨?_, fun _ => hname, fun _ => hmod⟩
    show 0 = fdOf cpart.fileDesc
    rw [hclosed, fdOf_none]
  refine (works_lift (ordinary_wraps (dirWithSlash_wraps destDir))).seq ?_
  rintro dir _ t ⟨rfl, -⟩
  refine (works_lift (ordinary_wraps (mbAppendStr_wraps dir fileName))).seq ?_
  rintro filePathName _ t ⟨rfl, -⟩
  refine works_open ⟨rfl, hmod⟩ (fun fd hm => absurd hm (Multiset.notMem_zero fd)) rfl ?_
  intro r _
  split
  · rename_i fd _
    exact .pure (zero_add ({fd} : Multiset Fd) ▸ hopened _ fd _)
  · refine works_open ⟨rfl, .inl hmod⟩ (fun fd hm => absurd hm (Multiset.notMem_zero fd)) rfl ?_
    intro r _
    split
    · rename_i path fd _
      exact .pure (zero_add ({fd} : Multiset Fd) ▸ hopened path fd _)
    · exact .pure (hfailed _ _ _)
  · exact .pure (hfailed _ _ _)

theorem headerComplete_works {cpart : ContentPart} (hpart : PartAllowed cfg st cpart)
    (hclosed : cpart.fileDesc = none) :
    Works cfg st 0 (headerComplete cpart) (Has partFds (PartAllowed cfg st)) h := by
  obtain ⟨name, fileName, hread⟩ := readDisposition_eq cpart
  have hclosed' : (readDisposition cpart).fileDesc = none := by
    rw [hread]
    exact hclosed
  have hmod : (readDisposition cpart).destDir ≠ none → MayModify cfg st := by
    rw [hread]
    exact fun hdest => hpart.mayModify (.inl hdest)
  have hnone : ∀ c : ContentPart, c.fileDesc = none → c.destDir = (readDisposition cpart).destDir →
      ∀ t, Has partFds (PartAllowed cfg st) c 0 t := by
    intro c hfd hdir t
    refine ⟨?_, fun hne => absurd hfd hne, fun hsome => hmod ?_⟩
    · rw [partFds, hfd, fdOf_none]
    · exact hdir ▸ hsome.resolve_right fun hne => hne hfd
  unfold headerComplete
  dsimp only
  split
  · exact .pure (hnone { readDisposition cpart with body := some mbNew } hclosed' rfl _)
  · exact .pure (hnone _ hclosed' rfl _)
  · rename_i file destDir hfile hdir
    refine openUpload_works (hmod ?_) hclosed' ?_ destDir file
    · rw [hdir]
      exact Option.some_ne_none _
    · rw [hfile]
      exact Option.some_ne_none _

/-- A part whose file has been closed. -/
theorem PartAllowed.closed {cpart : ContentPart} (hpart : PartAllowed cfg st cpart)
    (e : Option Errno) : PartAllowed cfg st { cpart with sysErrNo := e, fileDesc := none } where
  named := fun hfd => absurd rfl hfd
  mayModify := fun hdest => hpart.mayModify (.inl (hdest.resolve_right fun hfd => hfd rfl))

theorem writeFileRound_works {cpart : ContentPart} (hpart : PartAllowed cfg st cpart)
    (data : Bytes) (offset : Nat) :
    Works cfg st (partFds cpart) (writeFileRound data (cpart, offset)) (fun r o t => AfterRound
      (fun x _ => Has partFds (PartAllowed cfg st) x.1 o t)
      (fun c _ => Has partFds (PartAllowed cfg st) c o t) r t) h := by
  unfold writeFileRound
  dsimp only
  cases hfd : cpart.fileDesc with
  | none => exact .pure ⟨rfl, hpart⟩
  | some fd =>
    have hown : partFds cpart = {fd} := by rw [partFds, hfd, fdOf_some]
    have hmod := hpart.mayModify (.inr (by rw [hfd]; exact Option.some_ne_none _))
    refine .ite (fun _ => ?_) fun _ => .pure ⟨rfl, hpart⟩
    refine works_call ⟨rfl, trivial⟩ ?_ rfl (fun r => by cases r <;> rfl) fun r _ => ?_
    · intro x hx
      rw [hown]
      simp only [descriptorsUsed] at hx
      split at hx
      · exact absurd hx (Multiset.notMem_zero x)
      · exact hx
    cases r with
    | wrote wr => exact .pure ⟨rfl, hpart⟩
    | fail e =>
      refine works_close (o := 0) (hown.trans (add_zero _).symm) fun t => ?_
      split
      · exact works_fault (by decide)
      · exact works_call ⟨rfl, .inl hmod⟩ (fun x hx => absurd hx (Multiset.notMem_zero x)) rfl
          (fun _ => rfl) fun _ _ => .pure ⟨rfl, hpart.closed (some e)⟩

theorem storeBody_works (fuel : Nat) {cpart : ContentPart} (hpart : PartAllowed cfg st cpart)
    (data : Bytes) :
    Works cfg st (partFds cpart) (storeBody fuel cpart data)
      (Has partFds (PartAllowed cfg st)) h := by
  unfold storeBody
  split
  · refine works_iterate (I := fun x o t => Has partFds (PartAllowed cfg st) x.1 o t) ?_ fuel
      ⟨rfl, hpart⟩
    rintro ⟨c, offset⟩ _ t ⟨rfl, hc⟩
    exact writeFileRound_works hc data offset
  · refine (works_lift (ordinary_wraps (mbAppendData_wraps _ _))).seq ?_
    rintro body _ t ⟨rfl, -⟩
    exact .pure ⟨rfl, hpart.named, hpart.mayModify⟩
  · exact works_fault (by decide)

theorem cpartAppendData_works (fuel : Nat) {cpart : ContentPart} (hpart : PartAllowed cfg st cpart)
    (data : Bytes) :
    Works cfg st (partFds cpart) (cpartAppendData fuel cpart data)
      (Has partFds (PartAllowed cfg st)) h := by
  refine .ite (fun hnew => ?_) fun _ => storeBody_works fuel hpart data
  have hclosed : cpart.fileDesc = none := by
    by_contra hfd
    exact hpart.named hfd hnew.1
  have hown : partFds cpart = 0 := by rw [partFds, hclosed, fdOf_none]
  refine (works_lift (ordinary_wraps (datahdrAppendData_wraps _ _))).seq ?_
  rintro ⟨header, offset⟩ _ t ⟨rfl, -⟩
  have hkept : PartAllowed cfg st { cpart with header } := ⟨hpart.named, hpart.mayModify⟩
  cases offset with
  | none => exact .pure ⟨rfl, hkept⟩
  | some offset =>
    rw [hown]
    refine (headerComplete_works hkept hclosed).seq ?_
    rintro c _ u ⟨rfl, hc⟩
    exact storeBody_works fuel hc _

theorem formFds_append (mpdata : MultipartData) (parts : List ContentPart) (cpart : ContentPart)
    (hparts : mpdata.parts = parts ++ [cpart]) :
    formFds mpdata = partFds cpart + (parts.map partFds).sum := by
  rw [formFds, hparts, List.map_append, List.sum_append, add_comm]
  congr 1
  exact add_zero _

theorem appendToLastPart_works (fuel : Nat) {mpdata : MultipartData}
    (hform : FormAllowed cfg st mpdata) (data : Bytes) :
    Works cfg st (formFds mpdata) (appendToLastPart fuel mpdata data)
      (Has formFds (FormAllowed cfg st)) h := by
  unfold appendToLastPart
  cases hlast : mpdata.parts.getLast? with
  | none => exact .pure ⟨rfl, hform⟩
  | some cpart =>
    have hparts : mpdata.parts = mpdata.parts.dropLast ++ [cpart] :=
      (List.dropLast_append_getLast? cpart hlast).symm
    rw [formFds_append mpdata _ cpart hparts]
    have hpart := hform.parts cpart (List.mem_of_getLast? hlast)
    refine (cpartAppendData_works fuel hpart data).part ?_
    rintro c _ t ⟨rfl, hc⟩
    refine .pure ⟨(formFds_append _ _ c rfl).symm, fun d hd => ?_, hform.mayModify⟩
    rcases List.mem_append.mp hd with hd | hd
    · exact hform.parts d (List.mem_of_mem_dropLast hd)
    · rw [List.mem_singleton.mp hd]
      exact hc

/-- The position of the reading is not what a form owns. -/
theorem FormAllowed.at {mpdata : MultipartData} (hform : FormAllowed cfg st mpdata)
    (delim : Option Bytes) (pos : ParsePosition) (n : Nat) :
    FormAllowed cfg st { mpdata with boundaryDelimiter := delim, parsePos := pos, delimMatchPart := n } :=
  ⟨hform.parts, hform.mayModify⟩

theorem continueDelimiter_works (fuel : Nat) {mpdata : MultipartData}
    (hform : FormAllowed cfg st mpdata) (delim data : Bytes) :
    Works cfg st (formFds mpdata) (continueDelimiter fuel mpdata delim data)
      (fun r o t => Has formFds (FormAllowed cfg st) r.1 o t) h := by
  refine .ite (fun _ => .pure ⟨rfl, hform⟩) fun _ => .ite (fun _ => ?_) fun _ =>
    .ite (fun _ => .pure ⟨rfl, hform.at _ _ _⟩) fun _ => .pure ⟨rfl, hform.at _ _ _⟩
  refine (appendToLastPart_works fuel hform _).seq ?_
  rintro m _ t ⟨rfl, hm⟩
  exact .pure ⟨rfl, hm.at _ _ _⟩

theorem partBody_works (fuel : Nat) {mpdata : MultipartData}
    (hform : FormAllowed cfg st mpdata) (delim data : Bytes) :
    Works cfg st (formFds mpdata) (partBody fuel mpdata delim data)
      (fun r o t => Has formFds (FormAllowed cfg st) r.1 o t) h := by
  refine (appendToLastPart_works fuel hform _).seq ?_
  rintro m _ t ⟨rfl, hm⟩
  exact .ite (fun _ => .pure ⟨rfl, hm.at _ _ _⟩) fun _ => .pure ⟨rfl, hm.at _ _ _⟩

/-- A part that begins owns nothing. -/
theorem boundaryLine_owns {mpdata : MultipartData} (hform : FormAllowed cfg st mpdata)
    (data : Bytes) :
    Sound Ordinary (fun r => formFds r.1 = formFds mpdata ∧ FormAllowed cfg st r.1)
      (boundaryLine mpdata data) := by
  refine .ite (by decide : Ordinary .heapOverflow) ?_
  have hfds : formFds { mpdata with parts := mpdata.parts ++ [cpartNew mpdata.destDir] } =
      formFds mpdata := by
    rw [formFds_append _ mpdata.parts (cpartNew mpdata.destDir) rfl]
    exact zero_add _
  have hnew : FormAllowed cfg st
      { mpdata with parts := mpdata.parts ++ [cpartNew mpdata.destDir] } := by
    refine ⟨fun d hd => ?_, hform.mayModify⟩
    rcases List.mem_append.mp hd with hd | hd
    · exact hform.parts d hd
    · rw [List.mem_singleton.mp hd]
      exact ⟨fun hfd => absurd rfl hfd, fun hdest =>
        hform.mayModify (hdest.resolve_right fun hfd => hfd rfl)⟩
  dsimp only
  split
  · exact ⟨hfds, hnew⟩
  · exact ⟨hfds, hnew.parts, hnew.mayModify⟩

theorem mpdataAppendData_works (fuel : Nat) {mpdata : MultipartData}
    (hform : FormAllowed cfg st mpdata) (data : Bytes) :
    Works cfg st (formFds mpdata) (mpdataAppendData fuel mpdata data)
      (Has formFds (FormAllowed cfg st)) h := by
  unfold mpdataAppendData
  split
  · exact .pure ⟨rfl, hform⟩
  rename_i delim _
  refine (continueDelimiter_works fuel hform delim data).seq ?_
  rintro ⟨m, rest⟩ _ t ⟨rfl, hm⟩
  refine works_iterate (I := fun x o t => Has formFds (FormAllowed cfg st) x.1 o t) ?_ _ ⟨rfl, hm⟩
  rintro ⟨m, data⟩ _ u ⟨rfl, hm⟩
  dsimp only at hm ⊢
  refine .ite (fun _ => .pure ⟨rfl, hm⟩) fun _ => ?_
  dsimp only
  split
  · refine (partBody_works fuel hm delim data).seq ?_
    rintro r _ v ⟨rfl, hr⟩
    exact .pure ⟨rfl, hr⟩
  · refine .ite (fun _ => .pure ⟨rfl, hm.at _ _ _⟩) fun _ => ?_
    refine (works_lift (boundaryLine_owns hm data)).seq ?_
    rintro ⟨m', rest⟩ _ v ⟨rfl, hfds, hm'⟩
    dsimp only at hfds hm'
    rw [← hfds]
    split
    · rename_i heq
      cases heq
      exact .pure ⟨rfl, hm'⟩
    · rename_i heq
      cases heq
      exact .pure ⟨rfl, hm'⟩
    · rename_i heq
      cases heq
      refine (partBody_works fuel hm' delim _).seq ?_
      rintro r _ w ⟨rfl, hr⟩
      exact .pure ⟨rfl, hr⟩

end Uploads

section Operations

theorem opError_operates (e : Option Errno) (strs : List Bytes) :
    Operates cfg st (opError cfg e strs) :=
  (operates_lift ((ordinary_wraps (fmtError_wraps cfg e strs)).any)).seq fun _ => operates_pure _

theorem opErrorIf_operates (failure : Option Errno) (strs : List Bytes) :
    Operates cfg st (opErrorIf cfg failure strs) := by
  cases failure with
  | none => exact operates_pure _
  | some e => exact opError_operates _ _

theorem formatPath_operates (sysPath : Option Path) (subdir : Bytes) :
    Operates cfg st (liftM (formatPath sysPath subdir) : Prog Path) :=
  operates_lift (formatPath_sound ⟨fun _ => by decide, fun _ => by decide⟩ subdir)

variable (hmod : MayModify cfg st)
include hmod

theorem renameFile_operates (sysPath : Option Path) (oldName newDir newName : Option Bytes) :
    Operates cfg st (renameFile cfg sysPath oldName newDir newName) := by
  unfold renameFile
  split
  · intro own h
    refine .ite (fun _ => opError_operates _ _ _ _) fun _ => .ite
      (fun _ => opError_operates _ _ _ _) fun _ => ?_
    refine (formatPath_operates sysPath _).seq (fun oldpath => ?_) own h
    refine (formatPath_operates (some _) _).seq fun newUrlPath => fun own h => ?_
    exact works_path ⟨rfl, hmod⟩ rfl rfl (fun _ => rfl) fun r t => opErrorIf_operates _ _ _ _
  · exact opError_operates _ _

theorem createNewdir_operates (sysPath : Option Path) (newDir : Option Bytes) :
    Operates cfg st (createNewdir cfg sysPath newDir) := by
  unfold createNewdir
  split
  · exact opError_operates _ _
  · exact opError_operates _ _
  · intro own h
    refine .ite (fun _ => opError_operates _ _ _ _) fun _ => ?_
    refine (formatPath_operates sysPath _).seq (fun path => fun own h => ?_) own h
    exact works_path ⟨rfl, hmod⟩ rfl rfl (fun _ => rfl) fun r t => opErrorIf_operates _ _ _ _

/-- The directory that is being removed is open while its entries are. -/
theorem delRecursive_operates (n : Nat) (path : Path) : Operates cfg st (delRecursive n path) := by
  induction n generalizing path with
  | zero => exact fun _ _ => works_fault (by decide)
  | succ n ih =>
    intro own h
    refine works_path ⟨rfl, .inl hmod⟩ rfl rfl (fun _ => rfl) fun r t => ?_
    split
    · exact .pure rfl
    · refine works_open (c := .opendir path) ⟨rfl, trivial⟩
        (fun fd hm => absurd hm (Multiset.notMem_zero fd)) rfl fun r _ => ?_
      cases r with
      | error e => exact .pure (add_zero own)
      | ok d =>
        refine (operates_lift (ordinary_wraps (dirWithSlash_wraps path)).any _ _).seq ?_
        rintro mb _ u rfl
        refine Ledger.Owns.seq (Q := fun _ o _ => o = own + {d}) ?_ ?_
        · refine works_iterate (I := fun _ o _ => o = own + {d}) ?_ n rfl
          rintro - _ v rfl
          refine works_call ⟨rfl, trivial⟩
            (fun fd hm => Multiset.mem_add.mpr (.inr hm)) rfl (fun _ => rfl) fun r _ => ?_
          cases r with
          | none => exact .pure rfl
          | some name =>
            refine .ite (fun _ => .pure rfl) fun _ => ?_
            refine (ih _ _ _).seq ?_
            rintro r _ w rfl
            cases r with
            | ok _ => exact .pure rfl
            | error e => exact .pure rfl
        · rintro res _ v rfl
          refine works_closedir (o := own) (add_comm own {d}) fun w => ?_
          cases res with
          | error e => exact .pure rfl
          | ok _ =>
            refine works_path ⟨rfl, hmod⟩ rfl rfl (fun _ => rfl) fun r x => ?_
            cases r with
            | none => exact .pure rfl
            | some e => exact .pure rfl
    · exact .pure rfl
    · exact .pure rfl

theorem deleteFile_operates (fuel : Nat) (sysPath : Option Path) (fname : Option Bytes)
    (recursively : Bool) : Operates cfg st (deleteFile fuel cfg sysPath fname recursively) := by
  unfold deleteFile
  split
  · exact opError_operates _ _
  · exact opError_operates _ _
  · refine (formatPath_operates sysPath _).seq fun path => fun own h => .ite (fun _ => ?_) fun _ => ?_
    · refine (delRecursive_operates hmod fuel path).seq (fun r => ?_) own h
      cases r with
      | ok _ => exact operates_pure _
      | error e => exact opError_operates _ _
    · have hone : Operates cfg st (deleteOne path) := by
        intro own h
        refine works_path ⟨rfl, .inl hmod⟩ rfl rfl (fun _ => rfl) fun r t => ?_
        split
        · exact works_path (k := fun r => pure r) ⟨rfl, hmod⟩ rfl rfl (fun _ => rfl) fun r u => .pure rfl
        · exact .pure rfl
      exact hone.seq (fun r => opErrorIf_operates _ _) own h

theorem chmodFile_operates (sysPath : Option Path) (fname puser pgroup pothers : Option Bytes) :
    Operates cfg st (chmodFile cfg sysPath fname puser pgroup pothers) := by
  unfold chmodFile
  split
  · split
    · exact opError_operates _ _
    · refine (formatPath_operates sysPath _).seq fun path => fun own h => ?_
      exact works_path ⟨rfl, hmod⟩ rfl rfl (fun _ => rfl) fun r t => opErrorIf_operates _ _ _ _
  · exact opError_operates _ _

theorem moveUpload_operates (path target : Path) (replaceIfExists : Bool) :
    Operates cfg st (moveUpload path target replaceIfExists) := by
  intro own h
  refine .ite (fun _ => .pure rfl) fun _ => .ite (fun _ => ?_) fun _ => ?_
  · exact works_path (k := fun r => pure r) ⟨rfl, hmod⟩ rfl rfl (fun _ => rfl) fun r t => .pure rfl
  · refine works_path ⟨rfl, hmod⟩ rfl rfl (fun _ => rfl) fun r t => ?_
    cases r with
    | none =>
      exact works_path ⟨rfl, .inl hmod⟩ rfl rfl (fun _ => rfl) fun r u => .pure rfl
    | some e => exact .pure rfl

theorem cpartFinishUpload_works {cpart : ContentPart} (hpart : PartAllowed cfg st cpart)
    (targetName : Option Bytes) (replaceIfExists : Bool) :
    Works cfg st (partFds cpart) (cpartFinishUpload cpart targetName replaceIfExists)
      (fun r o t => Has partFds (PartAllowed cfg st) r.1 o t) h := by
  unfold cpartFinishUpload
  cases hfd : cpart.fileDesc with
  | none => exact .pure ⟨rfl, hpart⟩
  | some fd =>
    have hopen : cpart.fileDesc.isSome = true := by rw [hfd]; rfl
    have htarget := targetPath_sound ordinary_basic hopen (.inl (by decide)) targetName
    refine (operates_lift htarget _ _).seq ?_
    rintro target _ t rfl
    split
    · exact works_fault (by decide)
    · refine (moveUpload_operates hmod _ target replaceIfExists _ _).seq ?_
      rintro r _ u rfl
      have hown : partFds cpart = {fd} + 0 := by rw [partFds, hfd, fdOf_some, add_zero]
      cases r with
      | none => exact works_close hown fun v => .pure ⟨rfl, hpart.closed cpart.sysErrNo⟩
      | some e =>
        have hname := hpart.named (by rw [hfd]; exact Option.some_ne_none fd)
        exact .pure ⟨hown.trans (add_zero _), fun _ => hname, fun _ => hmod⟩

end Operations

section Freeing

theorem cpartFree_works {cpart : ContentPart} (hpart : PartAllowed cfg st cpart) :
    Works cfg st (partFds cpart) (cpartFree cpart) (fun _ o _ => o = 0) h := by
  unfold cpartFree
  cases hfd : cpart.fileDesc with
  | none => exact .pure (by rw [partFds, hfd, fdOf_none])
  | some fd =>
    have hmod := hpart.mayModify (.inr (by rw [hfd]; exact Option.some_ne_none _))
    refine works_close (o := 0) (by rw [partFds, hfd, fdOf_some, add_zero]) fun t => ?_
    split
    · exact works_fault (by decide)
    · exact works_path ⟨rfl, .inl hmod⟩ rfl rfl (fun _ => rfl) fun _ u => .pure rfl

theorem mpdataFree_works {mpdata : MultipartData} (hform : FormAllowed cfg st mpdata) :
    Works cfg st (formFds mpdata) (mpdataFree mpdata) (fun _ o _ => o = 0) h := by
  have hall : ∀ (parts : List ContentPart) (h : History),
      (∀ cpart ∈ parts, PartAllowed cfg st cpart) →
        Works cfg st (parts.map partFds).sum (freeParts parts) (fun _ o _ => o = 0) h := by
    intro parts
    induction parts with
    | nil => exact fun h _ => .pure rfl
    | cons cpart parts ih =>
      intro h hparts
      show Works cfg st (partFds cpart + (parts.map partFds).sum) _ _ h
      refine (cpartFree_works (hparts cpart List.mem_cons_self)).part ?_
      rintro _ _ t rfl
      rw [zero_add]
      exact ih t fun c hc => hparts c (.tail _ hc)
  exact hall mpdata.parts h hform.parts

end Freeing

section FileManager

theorem derefPart_at (mpdata : MultipartData) (idx : Option Nat) :
    Sound Ordinary (fun r => mpdata.parts[r.1]? = some r.2) (derefPart mpdata idx) := by
  unfold derefPart
  cases idx with
  | none => exact (by decide : Ordinary (.nullPointer .contentPart))
  | some i =>
    dsimp only
    cases hi : mpdata.parts[i]? with
    | none => exact (by decide : Ordinary (.nullPointer .contentPart))
    | some cpart => exact hi

/-- One part of a form and the others. -/
theorem formFds_at {mpdata : MultipartData} {i : Nat} {cpart : ContentPart}
    (hi : mpdata.parts[i]? = some cpart) :
    ∃ others, formFds mpdata = partFds cpart + others ∧
      ∀ c, formFds (setPart mpdata i c) = partFds c + others := by
  obtain ⟨hlt, rfl⟩ := List.getElem?_eq_some_iff.mp hi
  refine ⟨((mpdata.parts.take i).map partFds).sum + ((mpdata.parts.drop (i + 1)).map partFds).sum,
    ?_, fun c => ?_⟩
  · have hsplit : mpdata.parts = mpdata.parts.take i ++ mpdata.parts[i] ::
        mpdata.parts.drop (i + 1) := by
      rw [← List.drop_eq_getElem_cons hlt, List.take_append_drop]
    rw [formFds]
    conv_lhs => rw [hsplit]
    rw [List.map_append, List.map_cons, List.sum_append, List.sum_cons]
    abel
  · rw [formFds, setPart, List.set_eq_take_append_cons_drop, if_pos hlt, List.map_append,
      List.map_cons, List.sum_append, List.sum_cons]
    abel

theorem FormAllowed.set {mpdata : MultipartData} (hform : FormAllowed cfg st mpdata) (i : Nat)
    {cpart : ContentPart} (hpart : PartAllowed cfg st cpart) :
    FormAllowed cfg st (setPart mpdata i cpart) := by
  refine ⟨fun c hc => ?_, hform.mayModify⟩
  rcases List.mem_or_eq_of_mem_set hc with hc | rfl
  · exact hform.parts c hc
  · exact hpart

variable (hmod : MayModify cfg st)
include hmod

/-- The upload of a part is finished, or the error says why not. -/
theorem finishPart_works {mpdata : MultipartData} (hform : FormAllowed cfg st mpdata) {i : Nat}
    {cpart : ContentPart} (hi : mpdata.parts[i]? = some cpart) (targetName : Option Bytes)
    (replaceIfExists : Bool) (fname : Bytes) :
    Works cfg st (formFds mpdata) (do
      match ← cpartFinishUpload cpart targetName replaceIfExists with
      | (cpart, true, _) => return (setPart mpdata i cpart, none)
      | (cpart, false, sysErrNo) =>
        let err ← opError cfg sysErrNo [ascii "unable to store ", fname]
        return (setPart mpdata i cpart, err))
      (fun r o t => Has formFds (FormAllowed cfg st) r.1 o t) h := by
  obtain ⟨others, hown, hset⟩ := formFds_at hi
  rw [hown]
  have hpart := hform.parts cpart (List.mem_of_getElem? hi)
  refine (cpartFinishUpload_works hmod hpart targetName replaceIfExists).part ?_
  rintro ⟨c, stored, e⟩ _ t ⟨rfl, hc⟩
  cases stored with
  | true => exact .pure ⟨(hset c).symm, hform.set i hc⟩
  | false =>
    refine (opError_operates e _ _ _).seq ?_
    rintro err _ u rfl
    exact .pure ⟨(hset c).symm, hform.set i hc⟩

theorem addNewFile_works {mpdata : MultipartData} (hform : FormAllowed cfg st mpdata)
    (idx : Option Nat) :
    Works cfg st (formFds mpdata) (addNewFile cfg mpdata idx)
      (fun r o t => Has formFds (FormAllowed cfg st) r.1 o t) h := by
  refine (works_lift (derefPart_at mpdata idx)).seq ?_
  rintro ⟨i, cpart⟩ _ t ⟨rfl, hi⟩
  dsimp only at hi ⊢
  cases cpartGetFileName cpart with
  | none =>
    refine (opError_operates none _ _ _).seq ?_
    rintro err _ u rfl
    exact .pure ⟨rfl, hform⟩
  | some fname => exact finishPart_works hmod hform hi none false fname

theorem replaceFile_works (sysPath : Option Path) (fname : Option Bytes)
    {mpdata : MultipartData} (hform : FormAllowed cfg st mpdata) (idx : Option Nat) :
    Works cfg st (formFds mpdata) (replaceFile cfg sysPath fname mpdata idx)
      (fun r o t => Has formFds (FormAllowed cfg st) r.1 o t) h := by
  refine (works_lift (derefPart_at mpdata idx)).seq ?_
  rintro ⟨i, cpart⟩ _ t ⟨rfl, hi⟩
  dsimp only at hi ⊢
  split
  · refine (formatPath_operates sysPath _ _ _).seq ?_
    rintro filePath _ u rfl
    exact finishPart_works hmod hform hi (some filePath) true _
  · refine (opError_operates none _ _ _).seq ?_
    rintro err _ u rfl
    exact .pure ⟨rfl, hform⟩

theorem dispatchForm_works (fuel : Nat) (sysPath : Option Path) {mpdata : MultipartData}
    (hform : FormAllowed cfg st mpdata) :
    Works cfg st (formFds mpdata) (dispatchForm fuel cfg sysPath mpdata)
      (fun r o t => Has formFds (FormAllowed cfg st) r.1 o t) h := by
  have hop : ∀ {p : Prog OpResult}, Operates cfg st p → Works cfg st (formFds mpdata)
      (p >>= fun err => pure (mpdata, err))
      (fun r o t => Has formFds (FormAllowed cfg st) r.1 o t) h := by
    intro p hp
    refine (hp _ _).seq ?_
    rintro err _ t rfl
    exact .pure ⟨rfl, hform⟩
  unfold dispatchForm
  refine .ite (fun _ => addNewFile_works hmod hform _) fun _ => ?_
  refine .ite (fun _ => hop (renameFile_operates hmod _ _ _ _)) fun _ => ?_
  refine .ite (fun _ => hop (createNewdir_operates hmod _ _)) fun _ => ?_
  refine .ite (fun _ => replaceFile_works hmod _ _ hform _) fun _ => ?_
  refine .ite (fun _ => hop (deleteFile_operates hmod _ _ _ _)) fun _ => ?_
  exact .ite (fun _ => hop (chmodFile_operates hmod _ _ _ _ _)) fun _ => .pure ⟨rfl, hform⟩

end FileManager

section Requests

theorem mpdataNew_owns (boundary : Bytes) {destDir : Option Path}
    (hdest : destDir ≠ none → MayModify cfg st) :
    Sound Ordinary (fun m => formFds m = 0 ∧ FormAllowed cfg st m)
      (mpdataNew boundary destDir) := by
  refine (ordinary_wraps (mbNewWithStr_wraps _)).bind fun mb _ =>
    (ordinary_wraps (mbAppendStr_wraps mb _)).bind fun mb' _ => ?_
  exact ⟨rfl, (fun c hc => by cases hc), hdest⟩

variable {rhdr : RequestHeader} (hst : reqhdrGetLoginState rhdr = st)
include hst

theorem mayModify_of_allowed (hallowed : reqhdrIsActionAllowed cfg rhdr .modify = true) :
    MayModify cfg st := by
  rw [← hst]
  exact hallowed

theorem handleForm_works (fuel : Nat) (sysPath : Option Path) {mpdata : MultipartData}
    (hform : FormAllowed cfg st mpdata) :
    Works cfg st (formFds mpdata) (handleForm fuel cfg sysPath mpdata rhdr)
      (fun r o t => Has formFds (FormAllowed cfg st) r.1 o t) h := by
  refine .ite (fun _ => .pure ⟨rfl, hform⟩) fun _ => .ite (fun _ => ?_) fun _ => ?_
  · refine (opError_operates none _ _ _).seq ?_
    rintro err _ t rfl
    exact .pure ⟨rfl, hform⟩
  · refine .ite (fun _ => .pure ⟨rfl, hform⟩) fun hallowed => ?_
    have hmod := mayModify_of_allowed hst (by simpa using hallowed)
    refine (dispatchForm_works hmod fuel sysPath hform).seq ?_
    rintro r _ t ⟨rfl, hr⟩
    exact .pure ⟨rfl, hr⟩

/-- The form is given up with all its files. -/
theorem filemgrProcessPost_works (fuel : Nat) {filemgr : FileManager}
    (hmgr : FilemgrAllowed cfg st filemgr) :
    Works cfg st (filemgrFds filemgr) (filemgrProcessPost fuel cfg filemgr rhdr)
      (fun r o t => Has filemgrFds (FilemgrAllowed cfg st) r.1 o t) h := by
  unfold filemgrProcessPost
  split
  · exact .pure ⟨rfl, hmgr⟩
  · rename_i mpdata hbody
    have hown : filemgrFds filemgr = formFds mpdata := by rw [filemgrFds, hbody, fdsIf_some]
    rw [hown]
    refine (handleForm_works hst fuel filemgr.sysPath (hmgr mpdata hbody)).seq ?_
    rintro ⟨m, opErr, requireAuth⟩ _ t ⟨rfl, hm⟩
    refine (mpdataFree_works hm).seq ?_
    rintro _ _ u rfl
    exact .pure ⟨rfl, fun m he => by cases he⟩

theorem filemgrNew_owns (sysPath : Option Path) :
    Sound Ordinary (fun filemgr => filemgrFds filemgr = 0 ∧ FilemgrAllowed cfg st filemgr)
      (filemgrNew cfg sysPath rhdr) := by
  have hnone : ∀ msg, filemgrFds ⟨sysPath, none, msg⟩ = 0 ∧
      FilemgrAllowed cfg st ⟨sysPath, none, msg⟩ := fun msg => ⟨rfl, fun m he => by cases he⟩
  unfold filemgrNew
  split
  · exact hnone _
  · split
    · exact (ordinary_wraps (fmtError_wraps cfg _ _)).bind fun err _ => hnone _
    · exact hnone _
    · rename_i boundary _
      have hdest : (if reqhdrIsActionAllowed cfg rhdr .modify then sysPath else none) ≠ none →
          MayModify cfg st := by
        split
        · rename_i hallowed
          exact fun _ => mayModify_of_allowed hst hallowed
        · exact fun hne => absurd rfl hne
      refine (mpdataNew_owns boundary hdest).bind fun m hm => ⟨hm.1, fun m' he => ?_⟩
      cases he
      exact hm.2

end Requests

section Body

theorem filemgrConsumeBodyBytes_works (fuel : Nat) {filemgr : FileManager}
    (hmgr : FilemgrAllowed cfg st filemgr) (data : Bytes) :
    Works cfg st (filemgrFds filemgr) (filemgrConsumeBodyBytes fuel filemgr data)
      (Has filemgrFds (FilemgrAllowed cfg st)) h := by
  unfold filemgrConsumeBodyBytes
  split
  · exact .pure ⟨rfl, hmgr⟩
  · rename_i mpdata hbody
    have hown : filemgrFds filemgr = formFds mpdata := by rw [filemgrFds, hbody, fdsIf_some]
    rw [hown]
    refine (mpdataAppendData_works fuel (hmgr mpdata hbody) data).seq ?_
    rintro m _ t ⟨rfl, hm⟩
    refine .pure ⟨rfl, fun m' he => ?_⟩
    cases he
    exact hm

theorem filemgrFree_works {filemgr : FileManager} (hmgr : FilemgrAllowed cfg st filemgr) :
    Works cfg st (filemgrFds filemgr) (filemgrFree filemgr) (fun _ o _ => o = 0) h := by
  unfold filemgrFree
  split
  · rename_i hbody
    exact .pure (by rw [filemgrFds, hbody, fdsIf_none])
  · rename_i mpdata hbody
    rw [filemgrFds, hbody]
    exact mpdataFree_works (hmgr mpdata hbody)

end Body

end FilemanagerHttpd.Audit
