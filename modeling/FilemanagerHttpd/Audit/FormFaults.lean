import FilemanagerHttpd.Audit.Pages

/-!
# How the operations of the folder form can fail

An operation follows a part of the form that may be missing, and joins a name to the path of a
folder that may be none. Everything else that it needs has been set by the upload of the
part. `P` is a property of the faults that are taken into account.
-/

namespace FilemanagerHttpd.Audit

open Library Server

/-- The faults of a program, whatever it calls. -/
abbrev FailsIn {α : Type} (P : Fault → Prop) (p : Prog α) : Prop :=
  Within (S := sys) (fun _ => True) P Any p

/-- A part whose upload is open knows its file, its directory and its name. -/
def PartOk (cpart : ContentPart) : Prop :=
  cpart.fileDesc.isSome = true →
    cpart.filePathName.isSome = true ∧ cpart.destDir.isSome = true ∧ cpart.fileName.isSome = true

def PartsOk (mpdata : MultipartData) : Prop := ∀ cpart ∈ mpdata.parts, PartOk cpart

variable {P : Fault → Prop} {α : Type}

/-- What any operation may fail with: a size that wraps, or the bound of a loop. -/
structure BasicFaults (P : Fault → Prop) : Prop where
  wraps : P .heapOverflow
  fuel : P .outOfFuel

theorem BasicFaults.sound (hP : BasicFaults P) {Q : α → Prop} {e : Except Fault α}
    (he : Sound Wraps Q e) : Sound P Any e :=
  he.mono (fun f hf => by rw [show f = .heapOverflow from hf]; exact hP.wraps) fun _ _ => trivial

theorem failsIn_lift (hP : BasicFaults P) {Q : α → Prop} {e : Except Fault α}
    (he : Sound Wraps Q e) : FailsIn P (liftM e : Prog α) := .lift (hP.sound he)

theorem failsIn_plain (hP : ∀ f, pageFault f = true → P f) {Q : α → Prop} {p : Prog α}
    (hp : Plain Q p) : FailsIn P p :=
  hp.mono (fun _ _ => trivial) (fun _ hf => hP _ hf) fun _ _ => trivial

theorem fmtError_wraps (cfg : Config) (e : Option Errno) (strs : List Bytes) :
    Sound Wraps Any (fmtError cfg e strs) := by
  refine (mbAppendStrL_wraps _ _).bind fun mb _ => ?_
  cases e with
  | none => trivial
  | some e => exact (mbAppendStrL_wraps _ _).bind fun _ _ => trivial

section Uploads

theorem targetPath_sound (hP : BasicFaults P) {cpart : ContentPart}
    (hopen : cpart.fileDesc.isSome = true) (hpart : P (.nullPointer .filePathName) ∨ PartOk cpart)
    (targetName : Option Bytes) : Sound P Any (targetPath cpart targetName) := by
  unfold targetPath
  cases htarget : targetName.or cpart.fileName with
  | none =>
    rcases hpart with hnull | hok
    · exact hnull
    · obtain ⟨name, hname⟩ := Option.isSome_iff_exists.mp (hok hopen).2.2
      rw [hname] at htarget
      cases targetName <;> cases htarget
  | some target =>
    refine .ite trivial ?_
    cases hdir : cpart.destDir with
    | none =>
      rcases hpart with hnull | hok
      · exact hnull
      · rw [PartOk, hdir] at hok
        exact absurd (hok hopen).2.1 (by decide)
    | some dir =>
      refine (hP.sound (dirWithSlash_wraps dir)).bind fun mb _ => ?_
      exact (hP.sound (mbAppendStr_wraps mb target)).bind fun _ _ => trivial

theorem moveUpload_failsIn (path target : Path) (replaceIfExists : Bool) :
    FailsIn P (moveUpload path target replaceIfExists) := by
  refine .ite (.pure trivial)
    (.ite ⟨trivial, fun _ => trivial⟩ (within_perform trivial fun r => ?_))
  cases r with
  | none => exact within_perform trivial fun _ => .pure trivial
  | some e => exact .pure trivial

theorem cpartFinishUpload_failsIn (hP : BasicFaults P) {cpart : ContentPart}
    (hpart : P (.nullPointer .filePathName) ∨ PartOk cpart) (targetName : Option Bytes)
    (replaceIfExists : Bool) :
    Within (S := sys) (fun _ => True) P (fun r => PartOk cpart → PartOk r.1)
      (cpartFinishUpload cpart targetName replaceIfExists) := by
  unfold cpartFinishUpload
  cases hfd : cpart.fileDesc with
  | none => exact .pure id
  | some fd =>
    have hopen : cpart.fileDesc.isSome = true := by rw [hfd]; rfl
    refine (Within.lift (targetPath_sound hP hopen hpart targetName)).bind fun target _ => ?_
    cases hpath : cpart.filePathName with
    | none =>
      rcases hpart with hnull | hok
      · exact hnull
      · rw [PartOk, hpath] at hok
        exact absurd (hok hopen).1 (by decide)
    | some path =>
      refine (moveUpload_failsIn path target replaceIfExists).bind fun r _ => ?_
      cases r with
      | none => exact within_perform trivial fun _ => .pure fun _ => nofun
      | some e => exact .pure fun hok _ => ⟨rfl, (hok hopen).2⟩

theorem cpartFree_failsIn {cpart : ContentPart}
    (hpart : P (.nullPointer .filePathName) ∨ PartOk cpart) : FailsIn P (cpartFree cpart) := by
  unfold cpartFree
  cases hfd : cpart.fileDesc with
  | none => exact .pure trivial
  | some fd =>
    refine within_perform trivial fun _ => ?_
    cases hpath : cpart.filePathName with
    | none =>
      rcases hpart with hnull | hok
      · exact hnull
      · rw [PartOk, hpath, hfd] at hok
        exact absurd (hok rfl).1 (by decide)
    | some path => exact within_perform trivial fun _ => .pure trivial

theorem mpdataFree_failsIn {mpdata : MultipartData}
    (hparts : P (.nullPointer .filePathName) ∨ PartsOk mpdata) : FailsIn P (mpdataFree mpdata) := by
  have hall : ∀ parts : List ContentPart,
      (P (.nullPointer .filePathName) ∨ ∀ cpart ∈ parts, PartOk cpart) →
        FailsIn P (freeParts parts) := by
    intro parts
    induction parts with
    | nil => exact fun _ => .pure trivial
    | cons cpart parts ih =>
      intro hparts
      refine (cpartFree_failsIn (hparts.imp_right fun h => h cpart List.mem_cons_self)).bind
        fun _ _ => ih (hparts.imp_right fun h c hc => h c (.tail _ hc))
  exact hall mpdata.parts hparts

end Uploads

section Reading

theorem extendLine_wraps (line piece : Bytes) : Sound Wraps Any (extendLine line piece) :=
  .ite trivial (rfl : Wraps .heapOverflow)

theorem datahdrAddLine_wraps (hdr : DataHeader) (line : Bytes) :
    Sound Wraps Any (datahdrAddLine hdr line) := by
  unfold datahdrAddLine
  split
  · trivial
  · exact .ite trivial (rfl : Wraps .heapOverflow)

theorem datahdrAppendData_wraps (hdr : DataHeader) (data : Bytes) :
    Sound Wraps Any (datahdrAppendData hdr data) := by
  have hloop : ∀ n hdr bol, Sound Wraps Any (datahdrAppendLoop n hdr bol) := by
    intro n
    induction n with
    | zero => exact fun _ _ => trivial
    | succ n ih =>
      intro hdr bol
      unfold datahdrAppendLoop
      refine .ite trivial ?_
      split
      · exact (extendLine_wraps _ _).bind fun _ _ => trivial
      · refine (extendLine_wraps _ _).bind fun line _ => .ite trivial ?_
        exact (datahdrAddLine_wraps _ _).bind fun hdr _ => ih hdr _
  exact (hloop _ _ _).bind fun _ _ => trivial

variable (hP : BasicFaults P) (hpath : P (.nullPointer .filePathName))

/-- A part that takes its body: it has the name of a file, or a buffer. -/
def Stores (cpart : ContentPart) : Prop := cpart.fileName ≠ none ∨ cpart.body ≠ none

include hP in
theorem headerComplete_stores (cpart : ContentPart) :
    Within (S := sys) (fun _ => True) P Stores (headerComplete cpart) := by
  unfold headerComplete
  dsimp only
  split
  · exact .pure (.inr nofun)
  · rename_i hname _
    exact .pure (.inl (by rw [hname]; exact nofun))
  · rename_i fileName destDir hname _
    have hstores : ∀ {c : ContentPart}, c.fileName = (readDisposition cpart).fileName → Stores c :=
      fun hc => .inl (by rw [hc, hname]; exact nofun)
    refine (failsIn_lift hP (dirWithSlash_wraps destDir)).bind fun dir _ => ?_
    refine (failsIn_lift hP (mbAppendStr_wraps dir fileName)).bind fun filePathName _ => ?_
    refine within_perform trivial fun r => ?_
    split
    · exact .pure (hstores rfl)
    · refine within_perform trivial fun r => ?_
      split
      · exact .pure (hstores rfl)
      · exact .pure (hstores rfl)
    · exact .pure (hstores rfl)

include hP hpath in
theorem storeBody_failsIn (fuel : Nat) {cpart : ContentPart} (hs : Stores cpart) (data : Bytes) :
    FailsIn P (storeBody fuel cpart data) := by
  unfold storeBody
  split
  · refine .loop hP.fuel (fun x => ?_) fuel _
    obtain ⟨cpart, offset⟩ := x
    unfold writeFileRound
    dsimp only
    split
    · exact .pure trivial
    · refine .ite (within_perform trivial fun r => ?_) (.pure trivial)
      split
      · exact .pure trivial
      · refine within_perform trivial fun _ => ?_
        split
        · exact .fault hpath
        · exact within_perform trivial fun _ => .pure trivial
  · exact (failsIn_lift hP (mbAppendData_wraps _ _)).bind fun _ _ => .pure trivial
  · rename_i hname hbody
    exact hs.elim (absurd hname) (absurd hbody)

include hP hpath in
theorem cpartAppendData_failsIn (fuel : Nat) (cpart : ContentPart) (data : Bytes) :
    FailsIn P (cpartAppendData fuel cpart data) := by
  unfold cpartAppendData
  by_cases hnew : cpart.fileName = none ∧ cpart.body = none
  · rw [if_pos hnew]
    refine (failsIn_lift hP (datahdrAppendData_wraps _ _)).bind fun r _ => ?_
    split
    · exact .pure trivial
    · exact (headerComplete_stores hP _).bind fun c hc => storeBody_failsIn hP hpath fuel hc _
  · rw [if_neg hnew]
    exact storeBody_failsIn hP hpath fuel (not_and_or.mp hnew) data

include hP hpath in
theorem appendToLastPart_failsIn (fuel : Nat) (mpdata : MultipartData) (data : Bytes) :
    FailsIn P (appendToLastPart fuel mpdata data) := by
  unfold appendToLastPart
  split
  · exact .pure trivial
  · exact (cpartAppendData_failsIn hP hpath fuel _ _).bind fun _ _ => .pure trivial

include hP hpath in
theorem partBody_failsIn (fuel : Nat) (mpdata : MultipartData) (delim data : Bytes) :
    FailsIn P (partBody fuel mpdata delim data) :=
  (appendToLastPart_failsIn hP hpath fuel mpdata _).bind fun _ _ =>
    .ite (.pure trivial) (.pure trivial)

include hP hpath in
/-- Reading a form never misses the buffer of a part. -/
theorem mpdataAppendData_failsIn (fuel : Nat) (mpdata : MultipartData) (data : Bytes) :
    FailsIn P (mpdataAppendData fuel mpdata data) := by
  unfold mpdataAppendData
  split
  · exact .pure trivial
  · rename_i delim _
    have hcontinue : FailsIn P (continueDelimiter fuel mpdata delim data) :=
      .ite (.pure trivial) (.ite ((appendToLastPart_failsIn hP hpath fuel _ _).bind fun _ _ =>
        .pure trivial) (.ite (.pure trivial) (.pure trivial)))
    refine hcontinue.bind fun r _ => .loop hP.fuel (fun x => ?_) _ _
    obtain ⟨mpdata, data⟩ := x
    refine .ite (.pure trivial) ?_
    dsimp only
    split
    · exact (partBody_failsIn hP hpath fuel _ _ _).bind fun _ _ => .pure trivial
    · refine .ite (.pure trivial) ?_
      have hline : Sound Wraps Any (boundaryLine mpdata data) := by
        refine .ite (rfl : Wraps .heapOverflow) ?_
        dsimp only
        split <;> trivial
      refine (failsIn_lift hP hline).bind fun r _ => ?_
      split
      · exact .pure trivial
      · exact .pure trivial
      · exact (partBody_failsIn hP hpath fuel _ _ _).bind fun _ _ => .pure trivial

end Reading

section Operations

variable (cfg : Config)

theorem opError_failsIn (hP : BasicFaults P) (e : Option Errno)
    (strs : List Bytes) : FailsIn P (opError cfg e strs) :=
  (failsIn_lift hP (fmtError_wraps cfg e strs)).bind fun _ _ => .pure trivial

theorem opErrorIf_failsIn (hP : BasicFaults P) (failure : Option Errno)
    (strs : List Bytes) : FailsIn P (opErrorIf cfg failure strs) := by
  cases failure with
  | none => exact .pure trivial
  | some e => exact opError_failsIn cfg hP _ _

/-- What joining a name to the path of the folder can fail with. -/
structure JoinFaults (P : Fault → Prop) (sysPath : Option Path) : Prop where
  none : sysPath = none → P (.nullPointer .sysPath)
  empty : sysPath = some [] → P (.indexOutOfRange .rootDir)

theorem formatPath_sound {sysPath : Option Path} (hroot : JoinFaults P sysPath) (subdir : Bytes) :
    Sound P Any (formatPath sysPath subdir) := by
  unfold formatPath
  cases sysPath with
  | none => exact hroot.none rfl
  | some rootdir =>
    cases hlast : rootdir.getLast? with
    | none =>
      obtain rfl := List.getLast?_eq_none_iff.mp hlast
      exact hroot.empty rfl
    | some last =>
      dsimp only
      rw [hlast]
      trivial

theorem setPart_ok {mpdata : MultipartData} {cpart c : ContentPart} (i : Nat)
    (hmem : cpart ∈ mpdata.parts) (hc : PartOk cpart → PartOk c) (hok : PartsOk mpdata) :
    PartsOk (setPart mpdata i c) := by
  intro d hd
  rcases List.mem_or_eq_of_mem_set hd with hd | rfl
  · exact hok d hd
  · exact hc (hok cpart hmem)

theorem addNewFile_failsIn (hP : BasicFaults P) {mpdata : MultipartData}
    (hparts : P (.nullPointer .filePathName) ∨ PartsOk mpdata) {idx : Option Nat}
    (hderef : Sound P (fun r => r.2 ∈ mpdata.parts) (derefPart mpdata idx)) :
    Within (S := sys) (fun _ => True) P (fun r => PartsOk mpdata → PartsOk r.1)
      (addNewFile cfg mpdata idx) := by
  refine (Within.lift hderef).bind ?_
  rintro ⟨i, cpart⟩ hmem
  dsimp only at hmem ⊢
  cases cpartGetFileName cpart with
  | none => exact (opError_failsIn cfg hP _ _).bind fun _ _ => .pure id
  | some fname =>
    refine (cpartFinishUpload_failsIn hP (hparts.imp_right fun h => h cpart hmem) _ _).bind ?_
    rintro ⟨c, stored, e⟩ hc
    cases stored with
    | true => exact .pure (setPart_ok i hmem hc)
    | false => exact (opError_failsIn cfg hP _ _).bind fun _ _ => .pure (setPart_ok i hmem hc)

/-- A part with an open or failed upload replaces the file; the name is joined first. -/
theorem replaceFile_failsIn (hP : BasicFaults P) {sysPath : Option Path}
    {fname : Option Bytes} {mpdata : MultipartData}
    (hparts : P (.nullPointer .filePathName) ∨ PartsOk mpdata) {idx : Option Nat}
    (hderef : Sound P (fun r => r.2 ∈ mpdata.parts ∧
      (fname.isSome = true → r.2.filePathName.isSome = true → JoinFaults P sysPath))
      (derefPart mpdata idx)) :
    Within (S := sys) (fun _ => True) P (fun r => PartsOk mpdata → PartsOk r.1)
      (replaceFile cfg sysPath fname mpdata idx) := by
  refine (Within.lift hderef).bind ?_
  rintro ⟨i, cpart⟩ ⟨hmem, hjoin⟩
  dsimp only at hmem hjoin ⊢
  cases fname with
  | none => exact (opError_failsIn cfg hP _ _).bind fun _ _ => .pure id
  | some fname =>
    cases hpath : cpartGetFilePathName cpart with
    | none => exact (opError_failsIn cfg hP _ _).bind fun _ _ => .pure id
    | some tmpPath =>
      have hroot := hjoin rfl (by
        rw [show cpart.filePathName = some tmpPath from hpath]
        rfl)
      refine .bind (Q := Any) (.lift (formatPath_sound hroot _)) fun filePath _ => ?_
      refine (cpartFinishUpload_failsIn hP (hparts.imp_right fun h => h cpart hmem) _ _).bind ?_
      rintro ⟨c, stored, e⟩ hc
      cases stored with
      | true => exact .pure (setPart_ok i hmem hc)
      | false => exact (opError_failsIn cfg hP _ _).bind fun _ _ => .pure (setPart_ok i hmem hc)

/-- The fields of a rename that are refused without a look at the folder. -/
def renameRefused : Option Bytes → Option Bytes → Option Bytes → Bool
  | some oldName, some newDir, some newName =>
    oldName == [] || newDir.head? != some slash || newName == [] || newName.contains slash
  | _, _, _ => true

def newdirRefused : Option Bytes → Bool
  | none | some [] => true
  | some newDir => newDir.contains slash

def deleteRefused : Option Bytes → Bool
  | none | some [] => true
  | some _ => false

def permRefused : Option Bytes → Option Bytes → Option Bytes → Option Bytes → Bool
  | some _, some puser, some pgroup, some pothers => (modeOf [puser, pgroup, pothers]).isNone
  | _, _, _, _ => true

theorem renameFile_failsIn (hP : BasicFaults P) {sysPath : Option Path}
    {oldName newDir newName : Option Bytes}
    (hroot : renameRefused oldName newDir newName = false → JoinFaults P sysPath) :
    FailsIn P (renameFile cfg sysPath oldName newDir newName) := by
  unfold renameFile
  split
  · rename_i oldName newDir newName
    by_cases hbad : oldName = [] ∨ newDir.head? ≠ some slash ∨ newName = []
    · rw [if_pos hbad]
      exact opError_failsIn cfg hP _ _
    rw [if_neg hbad]
    by_cases hslash : slash ∈ newName
    · rw [if_pos hslash]
      exact opError_failsIn cfg hP _ _
    rw [if_neg hslash]
    push Not at hbad
    obtain ⟨hold, hdir, hnew⟩ := hbad
    have hjoin := hroot (by simp [renameRefused, hold, hdir, hnew, hslash])
    refine .bind (Q := Any) (.lift (formatPath_sound hjoin _)) fun oldpath _ => ?_
    have hdirJoin : JoinFaults P (some newDir) :=
      ⟨fun hnone => absurd hnone (Option.some_ne_none newDir),
        fun he => by rw [Option.some.inj he] at hdir; cases hdir⟩
    refine .bind (Q := Any) (.lift (formatPath_sound hdirJoin _)) fun newUrlPath _ => ?_
    exact within_perform trivial fun r => opErrorIf_failsIn cfg hP _ _
  · exact opError_failsIn cfg hP _ _

theorem createNewdir_failsIn (hP : BasicFaults P) {sysPath : Option Path}
    {newDir : Option Bytes} (hroot : newdirRefused newDir = false → JoinFaults P sysPath) :
    FailsIn P (createNewdir cfg sysPath newDir) := by
  unfold createNewdir
  split
  · exact opError_failsIn cfg hP _ _
  · exact opError_failsIn cfg hP _ _
  · rename_i newDir hne
    by_cases hslash : slash ∈ newDir
    · rw [if_pos hslash]
      exact opError_failsIn cfg hP _ _
    rw [if_neg hslash]
    have hjoin := hroot (by
      cases newDir with
      | nil => exact absurd rfl hne
      | cons b rest => simpa [newdirRefused] using hslash)
    refine .bind (Q := Any) (.lift (formatPath_sound hjoin _)) fun path _ => ?_
    exact within_perform trivial fun r => opErrorIf_failsIn cfg hP _ _

theorem delRecursive_failsIn (hP : BasicFaults P) (n : Nat) (path : Path) :
    FailsIn P (delRecursive n path) := by
  induction n generalizing path with
  | zero => exact hP.fuel
  | succ n ih =>
    refine within_perform trivial fun r => ?_
    split
    · exact .pure trivial
    · refine within_perform trivial fun r => ?_
      cases r with
      | error e => exact .pure trivial
      | ok d =>
        refine (failsIn_lift hP (dirWithSlash_wraps path)).bind fun mb _ => ?_
        refine (Within.loop hP.fuel (fun _ => ?_) n ()).bind fun res _ =>
          within_perform trivial fun _ => ?_
        · refine within_perform trivial fun r => ?_
          cases r with
          | none => exact .pure trivial
          | some name =>
            refine .ite (.pure trivial) ((ih _).bind fun r _ => ?_)
            cases r <;> exact .pure trivial
        · cases res with
          | error e => exact .pure trivial
          | ok u =>
            refine within_perform trivial fun r => ?_
            cases r <;> exact .pure trivial
    · exact .pure trivial
    · exact .pure trivial

theorem deleteFile_failsIn (hP : BasicFaults P) (fuel : Nat)
    {sysPath : Option Path} {fname : Option Bytes}
    (hroot : deleteRefused fname = false → JoinFaults P sysPath) (recursively : Bool) :
    FailsIn P (deleteFile fuel cfg sysPath fname recursively) := by
  unfold deleteFile
  split
  · exact opError_failsIn cfg hP _ _
  · exact opError_failsIn cfg hP _ _
  · rename_i fname hne
    have hjoin := hroot (by
      cases fname with
      | nil => exact absurd rfl hne
      | cons b rest => rfl)
    refine .bind (Q := Any) (.lift (formatPath_sound hjoin _)) fun path _ => .ite ?_ ?_
    · refine (delRecursive_failsIn hP fuel path).bind fun r _ => ?_
      cases r with
      | ok u => exact .pure trivial
      | error e => exact opError_failsIn cfg hP _ _
    · have hone : FailsIn P (deleteOne path) := by
        refine within_perform trivial fun r => ?_
        split
        · exact ⟨trivial, fun _ => trivial⟩
        · exact .pure trivial
      exact hone.bind fun r _ => opErrorIf_failsIn cfg hP _ _

theorem chmodFile_failsIn (hP : BasicFaults P) {sysPath : Option Path}
    {fname puser pgroup pothers : Option Bytes}
    (hroot : permRefused fname puser pgroup pothers = false → JoinFaults P sysPath) :
    FailsIn P (chmodFile cfg sysPath fname puser pgroup pothers) := by
  unfold chmodFile
  split
  · rename_i fname puser pgroup pothers
    cases hmode : modeOf [puser, pgroup, pothers] with
    | none => exact opError_failsIn cfg hP _ _
    | some mode =>
      have hjoin := hroot (by simp [permRefused, hmode])
      refine .bind (Q := Any) (.lift (formatPath_sound hjoin _)) fun path _ => ?_
      exact within_perform trivial fun r => opErrorIf_failsIn cfg hP _ _
  · exact opError_failsIn cfg hP _ _

theorem renameFile_joins {oldName newDir newName : Option Bytes}
    (h : renameRefused oldName newDir newName = false) :
    renameFile cfg none oldName newDir newName = .fault (.nullPointer .sysPath) := by
  unfold renameRefused at h
  split at h
  · rename_i oldName newDir newName
    simp only [Bool.or_eq_false_iff, beq_eq_false_iff_ne, bne_eq_false_iff_eq] at h
    obtain ⟨⟨⟨hold, hdir⟩, hnew⟩, hslash⟩ := h
    have hbad : ¬ (oldName = [] ∨ newDir.head? ≠ some slash ∨ newName = []) := by
      simp [hold, hdir, hnew]
    rw [renameFile, if_neg hbad, if_neg (by simpa using hslash)]
    rfl
  · cases h

theorem createNewdir_joins {newDir : Option Bytes} (h : newdirRefused newDir = false) :
    createNewdir cfg none newDir = .fault (.nullPointer .sysPath) := by
  unfold newdirRefused at h
  split at h
  · cases h
  · cases h
  · rename_i newDir hne
    unfold createNewdir
    split
    · rename_i heq; cases heq
    · rename_i heq; exact absurd (Option.some.inj heq) hne
    · rename_i heq
      obtain rfl := Option.some.inj heq
      rw [if_neg (by simpa using h)]
      rfl

theorem deleteFile_joins (fuel : Nat) {fname : Option Bytes} (recursively : Bool)
    (h : deleteRefused fname = false) :
    deleteFile fuel cfg none fname recursively = .fault (.nullPointer .sysPath) := by
  unfold deleteRefused at h
  split at h
  · cases h
  · cases h
  · rename_i fname hne
    unfold deleteFile
    split
    · rename_i heq; cases heq
    · rename_i heq; exact absurd (Option.some.inj heq) hne
    · rfl

theorem chmodFile_joins {fname puser pgroup pothers : Option Bytes}
    (h : permRefused fname puser pgroup pothers = false) :
    chmodFile cfg none fname puser pgroup pothers = .fault (.nullPointer .sysPath) := by
  unfold permRefused at h
  split at h
  · rename_i fname puser pgroup pothers
    obtain ⟨mode, hmode⟩ := Option.isSome_iff_exists.mp (by simpa using h)
    rw [chmodFile, hmode]
    rfl
  · cases h

end Operations

section Form

/-- The part that the button asks for is missing. -/
def missingPart (mpdata : MultipartData) : Bool :=
  let pressed (name : String) : Bool := mpdataContainsPartWithName mpdata (ascii name)
  if pressed "do_add" then ! pressed "file"
  else if pressed "do_rename" || pressed "do_newdir" then false
  else pressed "do_replace" && ! pressed "new_cont"

/-- The operation joins a name to the path of the folder. -/
def joinsName (mpdata : MultipartData) : Bool :=
  let pressed (name : String) : Bool := mpdataContainsPartWithName mpdata (ascii name)
  let file := fieldStr mpdata "file"
  if pressed "do_add" then false
  else if pressed "do_rename" then
    ! renameRefused file (fieldStr mpdata "new_dir") (fieldStr mpdata "new_name")
  else if pressed "do_newdir" then ! newdirRefused (fieldStr mpdata "new_dir")
  else if pressed "do_replace" then
    file.isSome && (mpdataGetPartByName mpdata (ascii "new_cont")).any (·.filePathName.isSome)
  else if pressed "do_delete" then ! deleteRefused file
  else pressed "do_perm" && ! permRefused file (fieldStr mpdata "puser")
    (fieldStr mpdata "pgroup") (fieldStr mpdata "pothers")

theorem derefPart_missing {mpdata : MultipartData} {name : Bytes}
    (h : mpdataContainsPartWithName mpdata name = false) :
    derefPart mpdata (mpdataFindPart mpdata name) = .error (.nullPointer .contentPart) := by
  rw [mpdataContainsPartWithName, mpdataGetPartByName, Option.isSome_eq_false_iff,
    Option.isNone_iff_eq_none, List.find?_eq_none] at h
  have hnone : mpdataFindPart mpdata name = none := by
    rw [mpdataFindPart, List.findIdx?_eq_none_iff]
    exact fun cpart hm => by simpa using h cpart hm
  rw [hnone]
  rfl

/-- A part that is found is one of the form. -/
theorem derefPart_present {mpdata : MultipartData} {name : Bytes}
    (h : mpdataContainsPartWithName mpdata name = true) :
    ∃ i cpart, derefPart mpdata (mpdataFindPart mpdata name) = .ok (i, cpart) ∧
      mpdataGetPartByName mpdata name = some cpart ∧ cpart ∈ mpdata.parts := by
  obtain ⟨cpart, hfind⟩ := Option.isSome_iff_exists.mp h
  have hget := hfind
  rw [mpdataGetPartByName, List.find?_eq_bind_findIdx?_getElem?] at hget
  obtain ⟨i, hidx, hi⟩ := Option.bind_eq_some_iff.mp hget
  refine ⟨i, cpart, ?_, hfind, List.mem_of_find?_eq_some hfind⟩
  rw [mpdataFindPart, hidx, derefPart, hi]

/-- What the form can fail with besides running out of memory. -/
structure FormFails (P : Fault → Prop) (sysPath : Option Path) (mpdata : MultipartData) :
    Prop where
  basic : BasicFaults P
  part : missingPart mpdata = true → P (.nullPointer .contentPart)
  join : joinsName mpdata = true → JoinFaults P sysPath
  upload : P (.nullPointer .filePathName) ∨ PartsOk mpdata

variable {cfg : Config} {sysPath : Option Path} {mpdata : MultipartData}

theorem dispatchForm_failsIn (h : FormFails P sysPath mpdata) (fuel : Nat) :
    Within (S := sys) (fun _ => True) P (fun r => PartsOk mpdata → PartsOk r.1)
      (dispatchForm fuel cfg sysPath mpdata) := by
  have hpart := h.part
  have hjoin := h.join
  unfold missingPart at hpart
  unfold joinsName at hjoin
  unfold dispatchForm
  dsimp only at hpart hjoin ⊢
  by_cases hadd : mpdataContainsPartWithName mpdata (ascii "do_add") = true
  · simp only [hadd, if_true, Bool.not_eq_true'] at hpart ⊢
    refine addNewFile_failsIn cfg h.basic h.upload ?_
    cases hfile : mpdataContainsPartWithName mpdata (ascii "file") with
    | false => rw [derefPart_missing hfile]; exact hpart hfile
    | true =>
      obtain ⟨i, cpart, hderef, -, hmem⟩ := derefPart_present hfile
      rw [hderef]; exact hmem
  rw [Bool.not_eq_true] at hadd
  simp only [hadd, Bool.false_eq_true, if_false] at hpart hjoin ⊢
  by_cases hrename : mpdataContainsPartWithName mpdata (ascii "do_rename") = true
  · simp only [hrename, if_true, Bool.not_eq_true'] at hjoin ⊢
    exact (renameFile_failsIn cfg h.basic hjoin).bind fun _ _ => .pure id
  rw [Bool.not_eq_true] at hrename
  simp only [hrename, Bool.false_eq_true, if_false, Bool.false_or] at hpart hjoin ⊢
  by_cases hnewdir : mpdataContainsPartWithName mpdata (ascii "do_newdir") = true
  · simp only [hnewdir, if_true, Bool.not_eq_true'] at hjoin ⊢
    exact (createNewdir_failsIn cfg h.basic hjoin).bind fun _ _ => .pure id
  rw [Bool.not_eq_true] at hnewdir
  simp only [hnewdir, Bool.false_eq_true, if_false] at hpart hjoin ⊢
  by_cases hreplace : mpdataContainsPartWithName mpdata (ascii "do_replace") = true
  · simp only [hreplace, if_true, Bool.true_and, Bool.not_eq_true'] at hpart hjoin ⊢
    refine replaceFile_failsIn cfg h.basic h.upload ?_
    cases hcont : mpdataContainsPartWithName mpdata (ascii "new_cont") with
    | false => rw [derefPart_missing hcont]; exact hpart hcont
    | true =>
      obtain ⟨i, cpart, hderef, hget, hmem⟩ := derefPart_present hcont
      rw [hderef]
      refine ⟨hmem, fun hname hpath => hjoin ?_⟩
      rw [hname, hget]
      exact hpath
  rw [Bool.not_eq_true] at hreplace
  simp only [hreplace, Bool.false_eq_true, if_false] at hjoin ⊢
  by_cases hdelete : mpdataContainsPartWithName mpdata (ascii "do_delete") = true
  · simp only [hdelete, if_true, Bool.not_eq_true'] at hjoin ⊢
    exact (deleteFile_failsIn cfg h.basic fuel hjoin _).bind fun _ _ => .pure id
  rw [Bool.not_eq_true] at hdelete
  simp only [hdelete, Bool.false_eq_true, if_false] at hjoin ⊢
  by_cases hperm : mpdataContainsPartWithName mpdata (ascii "do_perm") = true
  · simp only [hperm, if_true, Bool.true_and, Bool.not_eq_true'] at hjoin ⊢
    exact (chmodFile_failsIn cfg h.basic hjoin).bind fun _ _ => .pure id
  · rw [if_neg hperm]
    exact .pure id

/-- The operations of the form are available and allowed. -/
def formAllowed (cfg : Config) (rhdr : RequestHeader) (mpdata : MultipartData) : Bool :=
  ! mpdataContainsPartWithName mpdata (ascii "do_login") &&
    (configIsActionAvailable cfg .modify && reqhdrIsActionAllowed cfg rhdr .modify)

theorem handleForm_failsIn {rhdr : RequestHeader} (fuel : Nat)
    (hP : BasicFaults P)
    (hform : formAllowed cfg rhdr mpdata = true → FormFails P sysPath mpdata) :
    Within (S := sys) (fun _ => True) P (fun r => PartsOk mpdata → PartsOk r.1)
      (handleForm fuel cfg sysPath mpdata rhdr) := by
  unfold handleForm
  unfold formAllowed at hform
  by_cases hlogin : mpdataContainsPartWithName mpdata (ascii "do_login") = true
  · rw [if_pos hlogin]
    exact .pure id
  rw [if_neg hlogin]
  by_cases havail : configIsActionAvailable cfg .modify = true
  · by_cases hallowed : reqhdrIsActionAllowed cfg rhdr .modify = true
    · rw [if_neg (by simp [havail]), if_neg (by simp [hallowed])]
      exact (dispatchForm_failsIn (hform (by simp [hlogin, havail, hallowed])) fuel).bind
        fun r hr => .pure hr
    · rw [if_neg (by simp [havail]), if_pos (by simpa using hallowed)]
      exact .pure id
  · rw [if_pos (by simpa using havail)]
    exact (opError_failsIn cfg hP _ _).bind fun _ _ => .pure id

theorem filemgrProcessPost_failsIn {filemgr : FileManager} {rhdr : RequestHeader} (fuel : Nat)
    (hP : BasicFaults P)
    (hupload : ∀ mpdata, filemgr.body = some mpdata →
      P (.nullPointer .filePathName) ∨ PartsOk mpdata)
    (hform : ∀ mpdata, filemgr.body = some mpdata → formAllowed cfg rhdr mpdata = true →
      FormFails P filemgr.sysPath mpdata) :
    FailsIn P (filemgrProcessPost fuel cfg filemgr rhdr) := by
  unfold filemgrProcessPost
  cases hbody : filemgr.body with
  | none => exact .pure trivial
  | some mpdata =>
    refine (handleForm_failsIn fuel hP (hform mpdata hbody)).bind ?_
    rintro ⟨mpdata', opErr, requireAuth⟩ hparts
    exact (mpdataFree_failsIn ((hupload mpdata hbody).imp_right hparts)).bind fun _ _ =>
      .pure trivial

end Form

end FilemanagerHttpd.Audit
