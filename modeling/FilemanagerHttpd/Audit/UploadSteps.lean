import FilemanagerHttpd.Audit.BufferBytes
import FilemanagerHttpd.Server.ContentPart
import FilemanagerHttpd.Server.DirTree
import FilemanagerHttpd.Server.Disk

/-!
# The steps of an upload

What each function of a content part does to the disk, for a part whose file is at the entry that
its path names.
-/

namespace FilemanagerHttpd.Audit

open Library Server

variable {ε : Type} {locate : Path → ε} {s t u : DiskState ε}

/-- The failed calls from one state to another. -/
def Failed (s t : DiskState ε) (errors : List Errno) : Prop :=
  uploadFailures t.history = uploadFailures s.history ++ errors

theorem failed_refl (s : DiskState ε) : Failed s s [] := (List.append_nil _).symm

theorem failed_record {errors : List Errno} (h : Failed s t errors) (e : Event) :
    Failed s (t.record e) (errors ++ e.uploadFailure.toList) := by
  show uploadFailures (e :: t.history) = _
  rw [uploadFailures, List.reverse_cons, List.filterMap_append, ← List.append_assoc, ← h]
  cases he : e.uploadFailure <;> simp [uploadFailures, he]

theorem failed_trans {errors more : List Errno} (h : Failed s t errors) (h' : Failed t u more) :
    Failed s u (errors ++ more) := by
  show uploadFailures u.history = _
  rw [h', h, List.append_assoc]

/-- A part whose file is open, is at the part's own path, and is nowhere else. -/
structure Holds (locate : Path → ε) (s : DiskState ε) (cpart : ContentPart) (fd : Fd) (path : Path)
    (i : Inode) (body : Bytes) : Prop where
  fileDesc : cpart.fileDesc = some fd
  filePathName : cpart.filePathName = some path
  opened : s.files fd = some i
  entry : s.entries (locate path) = some i
  content : s.content i = body
  alone : ∀ e, s.entries e = some i → e = locate path

/-- More bytes have been written. -/
structure Written (s : DiskState ε) (i : Inode) (data : Bytes) (t : DiskState ε) : Prop where
  entries : t.entries = s.entries
  files : t.files = s.files
  content : t.content i = s.content i ++ data
  others : ∀ j, j ≠ i → t.content j = s.content j
  failed : Failed s t []

theorem Written.refl (s : DiskState ε) (i : Inode) : Written s i [] s where
  entries := rfl
  files := rfl
  content := (List.append_nil _).symm
  others _ _ := rfl
  failed := failed_refl s

/-- A successful call of `write`. -/
theorem Written.write {data more : Bytes} (h : Written s i data t) (e : Event)
    (he : e.uploadFailure = none) :
    Written s i (data ++ more) ((t.write i (t.content i ++ more)).record e) where
  entries := h.entries
  files := h.files
  content := by
    show Function.update t.content i _ i = _
    rw [Function.update_self, h.content, List.append_assoc]
  others j hj := by
    show Function.update t.content i _ j = _
    rw [Function.update_of_ne hj, h.others j hj]
  failed := by
    have hfailed := failed_record (t := t.write i (t.content i ++ more)) h.failed e
    rwa [he] at hfailed

theorem Holds.written {cpart : ContentPart} {fd : Fd} {path : Path} {i : Inode} {body data : Bytes}
    (h : Holds locate s cpart fd path i body) (hw : Written s i data t) :
    Holds locate t cpart fd path i (body ++ data) where
  fileDesc := h.fileDesc
  filePathName := h.filePathName
  opened := by rw [hw.files, h.opened]
  entry := by rw [hw.entries, h.entry]
  content := by rw [hw.content, h.content]
  alone := by
    rw [hw.entries]
    exact h.alone

/-- No file is left of what has been tried. -/
structure GivenUp (s : DiskState ε) (e : Errno) (t : DiskState ε) : Prop where
  entries : t.entries = s.entries
  files : t.files = s.files
  others : ∀ j, (∃ p, s.entries p = some j) → t.content j = s.content j
  failed : Failed s t [e]

/-- Nothing but calls. -/
theorem givenUp_record {e : Errno} (hentries : t.entries = s.entries) (hfiles : t.files = s.files)
    (hcontent : t.content = s.content) (hfailed : Failed s t [e]) : GivenUp s e t where
  entries := hentries
  files := hfiles
  others _ _ := by rw [hcontent]
  failed := hfailed

section Effects

variable [DecidableEq ε]

/-- A new file for a part. -/
structure Opened (locate : Path → ε) (s : DiskState ε) (fd : Fd) (path : Path) (i : Inode)
    (body : Bytes) (t : DiskState ε) : Prop where
  vacant : s.entries (locate path) = none
  unused : ∀ e, s.entries e ≠ some i
  unopened : ∀ fd, s.files fd ≠ some i
  closed : s.files fd = none
  entries : t.entries = Function.update s.entries (locate path) (some i)
  files : t.files = Function.update s.files fd (some i)
  content : t.content i = body
  others : ∀ j, j ≠ i → t.content j = s.content j
  failed : Failed s t []

/-- The file of a part has been removed because of an error. -/
structure Dropped (locate : Path → ε) (s : DiskState ε) (fd : Fd) (path : Path) (i : Inode)
    (e : Errno) (t : DiskState ε) : Prop where
  entries : t.entries = Function.update s.entries (locate path) none
  files : t.files = Function.update s.files fd none
  others : ∀ j, j ≠ i → t.content j = s.content j
  failed : Failed s t [e]

end Effects

section Writes

variable [DecidableEq ε] {cpart : ContentPart} {fd : Fd} {path : Path} {i : Inode} {body data : Bytes}

/-- The state of the loop, with the number of bytes that are left. -/
def Writing (s : DiskState ε) (cpart : ContentPart) (i : Inode) (data : Bytes) (left : Nat)
    (x : ContentPart × Nat) (t : DiskState ε) : Prop :=
  x.1 = cpart ∧ x.2 ≤ data.length ∧ left = data.length - x.2 ∧ Written s i (data.take x.2) t

/-- One call of `write`. -/
theorem writeFileRound_wp {offset : Nat} (h : Holds locate s cpart fd path i body)
    (hw : Written s i (data.take offset) t) (hle : offset ≤ data.length) :
    wp (diskWorld locate) diskDuty (writeFileRound data (cpart, offset))
      (AfterRound (fun x u => ∃ j < data.length - offset, Writing s cpart i data j x u)
        fun c u => (c = cpart ∧ Written s i data u) ∨
          ∃ e, c = { cpart with sysErrNo := some e, fileDesc := none } ∧
            Dropped locate s fd path i e u) t := by
  have hfd := h.fileDesc
  have hheld := h.written hw
  rw [writeFileRound]
  split
  · rename_i hnone
    rw [hfd] at hnone
    cases hnone
  · rename_i fd' hfd'
    obtain rfl : fd = fd' := Option.some.inj (hfd.symm.trans hfd')
    split
    · rename_i hlt
      simp only [perform_bind]
      apply wp_write hheld.opened
      · intro n hpos hn
        rw [List.length_drop] at hn
        refine ⟨data.length - (offset + n), by omega, rfl, by show offset + n ≤ _; omega, rfl, ?_⟩
        have htake : data.take (offset + n) = data.take offset ++ (data.drop offset).take n :=
          List.take_add
        show Written s i (data.take (offset + n)) _
        rw [htake]
        exact hw.write _ rfl
      · intro e
        apply wp_close (s := t.record _) hheld.opened
        rw [h.filePathName]
        apply wp_unlink_file (s := ((t.record _).setFile fd none).record _) hheld.entry
        refine .inr ⟨e, rfl, ?_⟩
        constructor
        · show Function.update t.entries _ _ = _
          rw [hw.entries]
        · show Function.update t.files _ _ = _
          rw [hw.files]
        · exact hw.others
        · have hfailed := failed_record (failed_record (failed_record hw.failed
            ⟨.write fd (data.drop offset), .fail e⟩) ⟨.close fd, ()⟩) ⟨.unlink path, none⟩
          exact hfailed
    · rename_i hge
      have hall : data.take offset = data := List.take_of_length_le (by omega)
      rw [hall] at hw
      exact .inl ⟨rfl, hw⟩

theorem storeBody_wp {fileName : Bytes} (hname : cpart.fileName = some fileName) {fuel : Nat}
    (hfuel : data.length < fuel) (h : Holds locate s cpart fd path i body) :
    wp (diskWorld locate) diskDuty (storeBody fuel cpart data)
      (fun c t => (c = cpart ∧ Written s i data t) ∨
        ∃ e, c = { cpart with sysErrNo := some e, fileDesc := none } ∧
          Dropped locate s fd path i e t) s := by
  have hstart : Writing s cpart i data data.length (cpart, 0) s :=
    ⟨rfl, Nat.zero_le _, rfl, Written.refl s i⟩
  rw [storeBody]
  split
  · apply wp_iterate_counted (I := Writing s cpart i data) ?_ fuel hstart hfuel
    rintro k ⟨c, next⟩ t ⟨hc, hle, hk, hw⟩
    obtain rfl : c = cpart := hc
    obtain rfl : k = data.length - next := hk
    exact writeFileRound_wp h hw hle
  · rename_i hnone _
    rw [hname] at hnone
    cases hnone
  · rename_i hnone _
    rw [hname] at hnone
    cases hnone

/-- What is sent to a part whose file is not open is lost. -/
theorem storeBody_closed {fileName : Bytes} (hname : cpart.fileName = some fileName) {fuel : Nat}
    (hfuel : 0 < fuel) (hclosed : cpart.fileDesc = none) {Q : ContentPart → DiskState ε → Prop}
    (hq : Q cpart s) : wp (diskWorld locate) diskDuty (storeBody fuel cpart data) Q s := by
  obtain ⟨n, rfl⟩ := Nat.exists_eq_succ_of_ne_zero (Nat.ne_of_gt hfuel)
  rw [storeBody, hname]
  show wp _ _ (writeFileRound data (cpart, 0) >>= _) _ _
  rw [writeFileRound]
  split
  · exact hq
  · rename_i hfd
    rw [hclosed] at hfd
    cases hfd

end Writes

section Opening

variable [DecidableEq ε] {cpart : ContentPart} {destDir fileName : Bytes}

/-- The directory with a slash behind it. -/
theorem dirWithSlash_fits (hclean : nul ∉ destDir) (hfits : destDir.length + 2 < uintSize) :
    ∃ dir, dirWithSlash destDir = .ok dir ∧ nul ∉ dir.data ∧
      dir.dataLen ≤ destDir.length + 1 ∧ ∀ name, dir.data ++ name = joinPath destDir name := by
  obtain ⟨dir, hdir, hdata, hnul⟩ : ∃ dir, mbEnsureEndsWithSlash ⟨destDir⟩ = .ok dir ∧ _ ∧ _ :=
    mbEnsureEndsWithSlash_fits hclean hfits
  refine ⟨dir, ?_, hnul, ?_, fun name => by rw [hdata]; rfl⟩
  · rw [dirWithSlash, mbNewWithStr_fits hclean (by omega)]
    exact hdir
  · show dir.data.length ≤ _
    rw [hdata]
    split
    · show destDir.length ≤ _
      omega
    · rw [List.length_append, List.length_singleton]

theorem mbAppendStr_fits {mb : MemBuf} {str : Bytes}
    (h : mb.dataLen + str.length + 1 < uintSize) : mbAppendStr mb str = .ok ⟨mb.data ++ cstr str⟩ := by
  have hle : (cstr str).length ≤ str.length := (List.takeWhile_prefix _).length_le
  rw [mbAppendStr, mbAppendData, if_pos (by omega)]

theorem opened_new {fd : Fd} {path : Path} (h : s.Creates (locate path) fd t) :
    ∃ i, Opened locate s fd path i [] t := by
  obtain ⟨hvacant, hclosed, i, hunused, hunopened, rfl⟩ := h
  refine ⟨i, hvacant, hunused, hunopened, hclosed, rfl, rfl, ?_, ?_, failed_refl s⟩
  · exact Function.update_self ..
  · intro j hj
    exact Function.update_of_ne hj ..

/-- A call that has not failed, before the creation. -/
theorem Opened.of_record {fd : Fd} {path : Path} {i : Inode} {body : Bytes} {e : Event}
    (h : Opened locate (s.record e) fd path i body t) (he : e.uploadFailure = none) :
    Opened locate s fd path i body t where
  vacant := h.vacant
  unused := h.unused
  unopened := h.unopened
  closed := h.closed
  entries := h.entries
  files := h.files
  content := h.content
  others := h.others
  failed := by
    have hbefore := failed_record (failed_refl s) e
    rw [he] at hbefore
    exact failed_trans hbefore h.failed

/-- A call that has not failed, after the creation. -/
theorem Opened.record {fd : Fd} {path : Path} {i : Inode} {body : Bytes} {e : Event}
    (h : Opened locate s fd path i body t) (he : e.uploadFailure = none) :
    Opened locate s fd path i body (t.record e) where
  vacant := h.vacant
  unused := h.unused
  unopened := h.unopened
  closed := h.closed
  entries := h.entries
  files := h.files
  content := h.content
  others := h.others
  failed := by
    have hafter := failed_record h.failed e
    rwa [he] at hafter

/-- The file that takes the body, or the error of the call that has failed. -/
theorem openUpload_wp {dir filePathName : MemBuf} (hdir : dirWithSlash destDir = .ok dir)
    (hpath : mbAppendStr dir fileName = .ok filePathName) :
    wp (diskWorld locate) diskDuty (openUpload cpart destDir fileName)
      (fun c t =>
        (∃ fd path i, c = { cpart with filePathName := some path, fileDesc := some fd } ∧
          Opened locate s fd path i [] t) ∨
        ∃ e path, c = { cpart with filePathName := some path, sysErrNo := some e } ∧
          GivenUp s e t) s := by
  rw [openUpload, hdir]
  show wp _ _ (liftM (mbAppendStr dir fileName) >>= _) _ _
  rw [hpath]
  show wp _ _ (perform _ >>= _) _ _
  simp only [perform_bind]
  apply wp_openExcl
  · intro fd t ht
    obtain ⟨i, hi⟩ := opened_new ht
    exact .inl ⟨fd, _, i, rfl, hi.record rfl⟩
  · intro e
    cases e with
    | exist =>
      apply wp_mkstemp
      · intro path fd t ht
        obtain ⟨i, hi⟩ := opened_new ht
        exact .inl ⟨fd, path, i, rfl, (hi.of_record rfl).record rfl⟩
      · intro e
        exact .inr ⟨e, _, rfl, givenUp_record rfl rfl rfl
          (failed_record (failed_record (failed_refl s) _) _)⟩
    | _ => exact .inr ⟨_, _, rfl, givenUp_record rfl rfl rfl (failed_record (failed_refl s) _)⟩

end Opening

section Parts

/-- The header of a part decides its name and its file name only. -/
theorem readDisposition_eq (cpart : ContentPart) :
    ∃ name fileName, readDisposition cpart = { cpart with name, fileName } := by
  have hfold : ∀ (params : List Param) (c : ContentPart), ∃ name fileName,
      params.foldl dispositionParam c = { c with name, fileName } := by
    intro params
    induction params with
    | nil => exact fun c => ⟨c.name, c.fileName, rfl⟩
    | cons p params ih =>
      intro c
      obtain ⟨name, fileName, h⟩ := ih (dispositionParam c p)
      rw [List.foldl_cons, h, dispositionParam]
      split_ifs
      · exact ⟨name, fileName, rfl⟩
      · exact ⟨name, fileName, rfl⟩
      · exact ⟨name, fileName, rfl⟩
  rw [readDisposition]
  split
  · exact ⟨cpart.name, cpart.fileName, rfl⟩
  · split
    · exact ⟨cpart.name, cpart.fileName, rfl⟩
    · exact hfold _ cpart

variable [DecidableEq ε] {cpart : ContentPart} {destDir fileName body data : Bytes} {fuel : Nat}

theorem Opened.holds {fd : Fd} {path : Path} {i : Inode}
    (h : Opened locate s fd path i body t) (hfd : cpart.fileDesc = some fd)
    (hpath : cpart.filePathName = some path) : Holds locate t cpart fd path i body where
  fileDesc := hfd
  filePathName := hpath
  opened := by rw [h.files, Function.update_self]
  entry := by rw [h.entries, Function.update_self]
  content := h.content
  alone e he := by
    by_contra hne
    rw [h.entries, Function.update_of_ne hne] at he
    exact h.unused e he

theorem Opened.written {fd : Fd} {path : Path} {i : Inode}
    (h : Opened locate s fd path i body t) (hw : Written t i data u) :
    Opened locate s fd path i (body ++ data) u where
  vacant := h.vacant
  unused := h.unused
  unopened := h.unopened
  closed := h.closed
  entries := hw.entries.trans h.entries
  files := hw.files.trans h.files
  content := by rw [hw.content, h.content]
  others j hj := (hw.others j hj).trans (h.others j hj)
  failed := failed_trans h.failed hw.failed

/-- A file that has been created and removed. -/
theorem Opened.dropped {fd : Fd} {path : Path} {i : Inode} {e : Errno}
    (h : Opened locate s fd path i body t) (hd : Dropped locate t fd path i e u) :
    GivenUp s e u where
  entries := by rw [hd.entries, h.entries, Function.update_idem, ← h.vacant, Function.update_eq_self]
  files := by rw [hd.files, h.files, Function.update_idem, ← h.closed, Function.update_eq_self]
  others j hj := by
    obtain ⟨p, hp⟩ := hj
    have hne : j ≠ i := fun he => h.unused p (he ▸ hp)
    rw [hd.others j hne, h.others j hne]
  failed := failed_trans h.failed hd.failed

/-- A part behind its header: its file has what has been received, or is given up. -/
structure Received (locate : Path → ε) (s : DiskState ε) (destDir fileName body : Bytes)
    (cpart : ContentPart) (t : DiskState ε) : Prop where
  fileName_eq : cpart.fileName = some fileName
  destDir_eq : cpart.destDir = some destDir
  file : (∃ fd path i, cpart.fileDesc = some fd ∧ cpart.filePathName = some path ∧
      Opened locate s fd path i body t) ∨
    ∃ e, cpart.fileDesc = none ∧ cpart.sysErrNo = some e ∧ GivenUp s e t

theorem storeBody_received (hfuel : data.length < fuel)
    (h : Received locate s destDir fileName body cpart t) :
    wp (diskWorld locate) diskDuty (storeBody fuel cpart data)
      (fun c u => Received locate s destDir fileName (body ++ data) c u) t := by
  rcases h.file with ⟨fd, path, i, hfd, hpath, hopened⟩ | ⟨e, hclosed, herror, hgiven⟩
  · refine wp_mono (storeBody_wp h.fileName_eq hfuel (hopened.holds hfd hpath)) fun c u hc => ?_
    rcases hc with ⟨rfl, hw⟩ | ⟨e, rfl, hd⟩
    · exact ⟨h.fileName_eq, h.destDir_eq, .inl ⟨fd, path, i, hfd, hpath, hopened.written hw⟩⟩
    · exact ⟨h.fileName_eq, h.destDir_eq, .inr ⟨e, rfl, rfl, hopened.dropped hd⟩⟩
  · apply storeBody_closed h.fileName_eq (by omega) hclosed
    exact ⟨h.fileName_eq, h.destDir_eq, .inr ⟨e, hclosed, herror, hgiven⟩⟩

/-- Bytes behind the header. -/
theorem cpartAppendData_received (hfuel : data.length < fuel)
    (h : Received locate s destDir fileName body cpart t) :
    wp (diskWorld locate) diskDuty (cpartAppendData fuel cpart data)
      (fun c u => Received locate s destDir fileName (body ++ data) c u) t := by
  rw [cpartAppendData, if_neg fun hnew => by rw [h.fileName_eq] at hnew; cases hnew.1]
  exact storeBody_received hfuel h

/-- Bytes with the end of the header. -/
theorem cpartAppendData_complete {header : DataHeader} {offset : Nat}
    (hfuel : data.length < fuel) (hnew : cpart.fileName = none ∧ cpart.body = none)
    (hclosed : cpart.fileDesc = none) (hdir : cpart.destDir = some destDir)
    (hheader : datahdrAppendData cpart.header data = .ok (header, some offset))
    (hname : (readDisposition { cpart with header }).fileName = some fileName)
    {dir filePathName : MemBuf} (hslash : dirWithSlash destDir = .ok dir)
    (hpath : mbAppendStr dir fileName = .ok filePathName) :
    wp (diskWorld locate) diskDuty (cpartAppendData fuel cpart data)
      (fun c u => Received locate s destDir fileName (data.drop offset) c u) s := by
  have hdrop : (data.drop offset).length < fuel := by
    rw [List.length_drop]
    omega
  obtain ⟨name, fileName', hread⟩ := readDisposition_eq { cpart with header }
  rw [cpartAppendData, if_pos hnew, hheader]
  show wp _ _ (headerComplete { cpart with header } >>= _) _ _
  rw [hread] at hname
  obtain rfl : fileName' = some fileName := hname
  have hcomplete : headerComplete { cpart with header } =
      openUpload { cpart with header, name, fileName := some fileName } destDir fileName := by
    rw [headerComplete, hread]
    dsimp only
    rw [hdir]
  rw [hcomplete]
  apply wp_seq (openUpload_wp hslash hpath)
  intro c t hc
  have hstart : Received locate s destDir fileName [] c t := by
    rcases hc with ⟨fd, path, i, rfl, hopened⟩ | ⟨e, path, rfl, hgiven⟩
    · exact ⟨rfl, hdir, .inl ⟨fd, path, i, rfl, rfl, hopened⟩⟩
    · exact ⟨rfl, hdir, .inr ⟨e, hclosed, rfl, hgiven⟩⟩
  exact storeBody_received hdrop hstart

end Parts

section Ends

variable [DecidableEq ε] {cpart : ContentPart} {destDir fileName body : Bytes}

/-- The path that an upload is stored under. -/
def uploadTarget (destDir fileName : Bytes) (targetName : Option Bytes) : Path :=
  let name := targetName.getD fileName
  if name.head? = some slash then name else joinPath destDir (cstr name)

theorem targetPath_eq {targetName : Option Bytes} (hname : cpart.fileName = some fileName)
    (hdir : cpart.destDir = some destDir) (hclean : nul ∉ destDir)
    (hfits : destDir.length + (targetName.getD fileName).length + 2 < uintSize) :
    targetPath cpart targetName = .ok (uploadTarget destDir fileName targetName) := by
  have hor : targetName.or cpart.fileName = some (targetName.getD fileName) := by
    rw [hname]
    cases targetName <;> rfl
  obtain ⟨dir, hdirSlash, -, hlen, hjoin⟩ := dirWithSlash_fits hclean (by omega)
  rw [targetPath, hor, hdir, uploadTarget]
  dsimp only
  split
  · rfl
  · rw [hdirSlash]
    show (mbAppendStr dir _ >>= _) = _
    rw [mbAppendStr_fits (by omega)]
    exact congrArg Except.ok (hjoin _)

/-- The part's file is under the target now, and only there. -/
structure StoredAt (locate : Path → ε) (s : DiskState ε) (path target : Path) (i : Inode)
    (replaceIfExists : Bool) (t : DiskState ε) : Prop where
  entries : t.entries =
    Function.update (Function.update s.entries (locate path) none) (locate target) (some i)
  files : t.files = s.files
  content : t.content = s.content
  vacant : replaceIfExists = false → locate target = locate path ∨ s.entries (locate target) = none
  failed : Failed s t []

/-- A call that has failed, and nothing else. -/
structure Refused (s : DiskState ε) (e : Errno) (t : DiskState ε) : Prop where
  entries : t.entries = s.entries
  files : t.files = s.files
  content : t.content = s.content
  failed : Failed s t [e]

theorem moveUpload_wp {fd : Fd} {path target : Path} {i : Inode} {replaceIfExists : Bool}
    (h : Holds locate s cpart fd path i body) :
    wp (diskWorld locate) diskDuty (moveUpload path target replaceIfExists)
      (fun r t => (r = none ∧ StoredAt locate s path target i replaceIfExists t) ∨
        ∃ e, r = some e ∧ Refused s e t) s := by
  have hsame : locate target = locate path → s.entries =
      Function.update (Function.update s.entries (locate path) none) (locate target) (some i) := by
    intro hplace
    rw [hplace, Function.update_idem, ← h.entry, Function.update_eq_self]
  rw [moveUpload]
  split
  · rename_i hpath
    exact .inl ⟨rfl, hsame (by rw [hpath]), rfl, rfl, fun _ => .inl (by rw [hpath]), failed_refl s⟩
  · cases replaceIfExists with
    | true =>
      show wp _ _ (Program.call _ _) _ _
      apply wp_rename
      · intro t ht
        obtain ⟨j, hj, rfl⟩ := ht
        obtain rfl : i = j := Option.some.inj (h.entry.symm.trans hj)
        refine .inl ⟨rfl, ?_, ?_, ?_, nofun, ?_⟩
        · split
          · rename_i hboth
            exact hsame (h.alone _ hboth)
          · rfl
        · split <;> rfl
        · split <;> rfl
        · have hhistory : Failed s (if s.entries (locate target) = some i then s else
              (s.setEntry (locate path) none).setEntry (locate target) (some i)) [] := by
            split <;> exact failed_refl s
          exact failed_record hhistory ⟨.rename path (some target), none⟩
      · intro e
        exact .inr ⟨e, rfl, rfl, rfl, rfl, failed_record (failed_refl s) _⟩
    | false =>
      show wp _ _ (Program.call _ _) _ _
      apply wp_link
      · intro t ht
        obtain ⟨j, hj, hvacant, rfl⟩ := ht
        obtain rfl : i = j := Option.some.inj (h.entry.symm.trans hj)
        have hne : locate path ≠ locate target := fun he => by
          rw [← he, h.entry] at hvacant
          cases hvacant
        have hfile : (s.setEntry (locate target) (some i)).entries (locate path) = some i := by
          show Function.update _ _ _ _ = _
          rw [Function.update_of_ne hne, h.entry]
        apply wp_unlink_file (s := (s.setEntry (locate target) (some i)).record _) hfile
        refine .inl ⟨rfl, ?_, rfl, rfl, fun _ => .inr hvacant, ?_⟩
        · show Function.update (Function.update _ _ _) _ _ = _
          rw [Function.update_comm hne.symm]
        · exact failed_record (failed_record (failed_refl s) ⟨.link path target, none⟩)
            ⟨.unlink path, none⟩
      · intro e
        exact .inr ⟨e, rfl, rfl, rfl, rfl, failed_record (failed_refl s) _⟩

/-- The end of an upload whose file is open. -/
theorem cpartFinishUpload_wp {fd : Fd} {path target : Path} {i : Inode} {replaceIfExists : Bool}
    {targetName : Option Bytes} (h : Holds locate s cpart fd path i body)
    (htarget : targetPath cpart targetName = .ok target) :
    wp (diskWorld locate) diskDuty (cpartFinishUpload cpart targetName replaceIfExists)
      (fun r t =>
        (r = ({ cpart with fileDesc := none }, true, none) ∧ ∃ u,
          StoredAt locate s path target i replaceIfExists u ∧
            t = (u.setFile fd none).record ⟨.close fd, ()⟩) ∨
        ∃ e, r = ({ cpart with sysErrNo := some e }, false, some e) ∧ Refused s e t) s := by
  rw [cpartFinishUpload]
  split
  · rename_i hfd
    rw [h.fileDesc] at hfd
    cases hfd
  · rename_i fd' hfd
    obtain rfl : fd = fd' := Option.some.inj (h.fileDesc.symm.trans hfd)
    rw [htarget]
    simp only [h.filePathName]
    show wp _ _ (moveUpload path target replaceIfExists >>= _) _ _
    apply wp_seq (moveUpload_wp h)
    rintro r t (⟨rfl, hstored⟩ | ⟨e, rfl, hrefused⟩)
    · apply wp_close (s := t) (by rw [hstored.files, h.opened])
      exact .inl ⟨rfl, t, hstored, rfl⟩
    · exact .inr ⟨e, rfl, hrefused⟩

/-- A part whose file is open takes it away. -/
theorem cpartFree_wp {fd : Fd} {path : Path} {i : Inode}
    (h : Holds locate s cpart fd path i body) :
    wp (diskWorld locate) diskDuty (cpartFree cpart)
      (fun _ t => t.entries = Function.update s.entries (locate path) none ∧
        t.files = Function.update s.files fd none ∧ t.content = s.content ∧ Failed s t []) s := by
  rw [cpartFree]
  split
  · rename_i hfd
    rw [h.fileDesc] at hfd
    cases hfd
  · rename_i fd' hfd
    obtain rfl : fd = fd' := Option.some.inj (h.fileDesc.symm.trans hfd)
    simp only [perform_bind]
    apply wp_close h.opened
    rw [h.filePathName]
    apply wp_unlink_file (s := (s.setFile fd none).record _) h.entry
    refine ⟨rfl, rfl, rfl, ?_⟩
    exact failed_record (failed_record (failed_refl s) ⟨.close fd, ()⟩) ⟨.unlink path, none⟩

/-- A part whose file is not open leaves the disk alone. -/
theorem cpartFree_closed (h : cpart.fileDesc = none) : cpartFree cpart = .done () := by
  rw [cpartFree, h]
  rfl

end Ends

end FilemanagerHttpd.Audit
