import FilemanagerHttpd.Library.Conduct
import FilemanagerHttpd.Server.ReqHandler
import FilemanagerHttpd.Audit.BufferBytes

/-!
# Building a page touches nothing

The functions that put a response together ask for a host name at most, and leave the
file of the response as it is. They append to a body only when there is one, and what they can
fail with is their own: neither the handler of a connection nor its states nor the path of the
request are theirs.
-/

namespace FilemanagerHttpd.Audit

open Library Server

/-- A system call and what follows it. -/
theorem within_perform {β : Type} {A : Sys → Prop} {P : Fault → Prop} {Q : β → Prop} {c : Sys}
    {k : c.Answer → Prog β} (hc : A c) (hk : ∀ r, Within (S := sys) A P Q (k r)) :
    Within (S := sys) A P Q (perform c >>= k) := ⟨hc, hk⟩

/-- Calls without a path and without a descriptor. -/
def plainCall : Sys → Bool
  | .gethostname | .getpeername _ | .nextNonce | .sleep _ | .uninit _ => true
  | _ => false

/-- The faults of the functions below the connection. -/
def Ordinary (f : Fault) : Prop := f ≠ .nullPointer .handler ∧ f ≠ .fatal .internal

instance (f : Fault) : Decidable (Ordinary f) := inferInstanceAs (Decidable (_ ∧ _))

theorem ordinary_outOfFuel : Ordinary .outOfFuel := by decide

/-- The faults of the functions that put a page together. -/
def pageFault : Fault → Bool
  | .heapOverflow | .exited | .outOfFuel => true
  | .indexOutOfRange .formatArgs | .indexOutOfRange .sizeDigits => true
  | _ => false

theorem ordinary_of_pageFault {f : Fault} (h : pageFault f = true) : Ordinary f := by
  refine ⟨?_, ?_⟩ <;> rintro rfl <;> cases h

/-- The faults of a request that is served: those of a page, and a CGI that is not started. -/
def ServeFault (f : Fault) : Prop :=
  pageFault f = true ∨ f = .fatal .pipe ∨ f = .fatal .fork

instance (f : Fault) : Decidable (ServeFault f) := inferInstanceAs (Decidable (_ ∨ _))

theorem serveFault_outOfFuel : ServeFault .outOfFuel := by decide

theorem ordinary_of_serveFault {f : Fault} (h : ServeFault f) : Ordinary f := by
  rcases h with h | rfl | rfl
  · exact ordinary_of_pageFault h
  · decide
  · decide

/-- The faults of a page are ordinary ones. -/
theorem Sound.ordinary {α : Type} {Q : α → Prop} {e : Except Fault α}
    (h : Sound (pageFault · = true) Q e) : Sound Ordinary Q e :=
  h.mono (fun _ hf => ordinary_of_pageFault hf) fun _ hQ => hQ

theorem Sound.serve {α : Type} {Q : α → Prop} {e : Except Fault α}
    (h : Sound (pageFault · = true) Q e) : Sound ServeFault Q e :=
  h.mono (fun _ hf => .inl hf) fun _ hQ => hQ

abbrev Plain {α : Type} (Q : α → Prop) (p : Prog α) : Prop :=
  Within (S := sys) (plainCall · = true) (pageFault · = true) Q p

/-- The results are any. -/
abbrev Any {α : Type} : α → Prop := fun _ => True

theorem lift_bind {α β : Type} {Q : α → Prop} {R : β → Prop} {e : Except Fault α}
    {k : α → Prog β} (h : Sound (pageFault · = true) Q e) (hk : ∀ a, Q a → Plain R (k a)) :
    Plain R ((liftM e : Prog α) >>= k) := (Within.lift h).bind hk

section Buffers

variable (mb : MemBuf)

/-- A size that wraps is all that appending to a buffer can fail with. -/
def Wraps (f : Fault) : Prop := f = .heapOverflow

theorem Sound.page {α : Type} {Q : α → Prop} {e : Except Fault α} (h : Sound Wraps Q e) :
    Sound (pageFault · = true) Q e :=
  h.mono (fun _ hf => by rw [hf]; rfl) fun _ hQ => hQ

theorem mbAppendData_wraps (data : Bytes) : Sound Wraps Any (mbAppendData mb data) :=
  .ite trivial (rfl : Wraps .heapOverflow)

theorem mbAppendStr_wraps (str : Bytes) : Sound Wraps Any (mbAppendStr mb str) :=
  mbAppendData_wraps mb _

theorem mbNewWithStr_wraps (str : Bytes) : Sound Wraps Any (mbNewWithStr str) :=
  mbAppendStr_wraps _ str

theorem mbAppendStrL_wraps (strs : List Bytes) : Sound Wraps Any (mbAppendStrL mb strs) := by
  induction strs generalizing mb with
  | nil => trivial
  | cons str strs ih => exact (mbAppendStr_wraps mb str).bind fun mb _ => ih mb

theorem mbEnsureEndsWithSlash_wraps : Sound Wraps Any (mbEnsureEndsWithSlash mb) :=
  .ite trivial (mbAppendData_wraps mb _)

theorem dirWithSlash_wraps (dir : Path) : Sound Wraps Any (dirWithSlash dir) :=
  (mbNewWithStr_wraps dir).bind fun mb _ => mbEnsureEndsWithSlash_wraps mb

theorem mbAppendData_sound (data : Bytes) : Sound (pageFault · = true) Any (mbAppendData mb data) :=
  Sound.page (mbAppendData_wraps mb data)

theorem mbAppendStr_sound (str : Bytes) : Sound (pageFault · = true) Any (mbAppendStr mb str) :=
  Sound.page (mbAppendStr_wraps mb str)

theorem mbNewWithStr_sound (str : Bytes) : Sound (pageFault · = true) Any (mbNewWithStr str) :=
  Sound.page (mbNewWithStr_wraps str)

theorem mbAppendStrL_sound (strs : List Bytes) :
    Sound (pageFault · = true) Any (mbAppendStrL mb strs) :=
  Sound.page (mbAppendStrL_wraps mb strs)

theorem mbEnsureEndsWithSlash_sound :
    Sound (pageFault · = true) Any (mbEnsureEndsWithSlash mb) :=
  Sound.page (mbEnsureEndsWithSlash_wraps mb)

theorem mbSetData_sound (offset : Nat) (data : Bytes) :
    Sound (pageFault · = true) Any (mbSetData mb offset data) :=
  .ite (rfl : pageFault .exited = true) trivial

theorem configIsCGI_sound (cfg : Config) (urlPath : Bytes) :
    Sound (fun f => f = .indexOutOfRange .urlPath ∧ urlPath = []) Any
      (configIsCGI cfg urlPath) := by
  have hgo : ∀ patts, Sound (fun f => f = .indexOutOfRange .urlPath ∧ urlPath = []) Any
      (configIsCGI.go cfg urlPath patts) := by
    intro patts
    induction patts with
    | nil => trivial
    | cons patt patts ih =>
      unfold configIsCGI.go
      refine .ite (.ite trivial ih) ?_
      cases urlPath with
      | nil => exact ⟨rfl, rfl⟩
      | cons b sub => exact .ite trivial ih
  exact hgo cfg.cgiPatterns

theorem configIsCGI_ordinary (cfg : Config) (urlPath : Bytes) :
    Sound Ordinary Any (configIsCGI cfg urlPath) :=
  (configIsCGI_sound cfg urlPath).mono (fun f hf => by rw [hf.1]; decide) fun _ hQ => hQ

/-- A path that is not empty is read within its bounds. -/
theorem configIsCGI_inside (cfg : Config) {urlPath : Bytes} (h : urlPath ≠ []) :
    Sound (pageFault · = true) Any (configIsCGI cfg urlPath) :=
  (configIsCGI_sound cfg urlPath).mono (fun _ hf => absurd hf.2 h) fun _ hQ => hQ

end Buffers

/-- The file of a response, and whether it has a body. -/
abbrev Shape (fd : Option Fd) (hasBody : Bool) (resp : RespBuf) : Prop :=
  resp.fileDesc = fd ∧ resp.body.isSome = hasBody

section Response

variable {resp : RespBuf} {fd : Option Fd} {K : RespBuf → Prop}

theorem respNew_sound (status : Bytes) (onlyHead : Bool) :
    Sound (pageFault · = true) (Shape none (! onlyHead)) (respNew status onlyHead) :=
  (mbAppendStrL_sound _ _).bind fun _ _ => ⟨rfl, by cases onlyHead <;> rfl⟩

theorem respAppendHeader_sound {hasBody : Bool} (h : Shape fd hasBody resp) (name value : Bytes) :
    Sound (pageFault · = true) (Shape fd hasBody) (respAppendHeader resp name value) :=
  (mbAppendStrL_sound _ _).bind fun _ _ => h

/-- A property of a response that appending to its body keeps. -/
structure BodyKept (K : RespBuf → Prop) : Prop where
  hasBody {resp : RespBuf} : K resp → resp.body.isSome = true
  append {resp : RespBuf} {body body' : MemBuf} {data : Bytes} :
    K resp → resp.body = some body → body'.data = body.data ++ data →
    K { resp with body := some body' }

theorem bodyKept_shape (fd : Option Fd) : BodyKept (Shape fd true) where
  hasBody h := h.2
  append h _ _ := ⟨h.1, rfl⟩

theorem respAppendData_sound (hK : BodyKept K) (h : K resp) (data : Bytes) :
    Sound (pageFault · = true) K (respAppendData resp data) := by
  unfold respAppendData
  split
  · rename_i hbody
    have hsome := hK.hasBody h
    rw [hbody] at hsome
    cases hsome
  · rename_i body hbody
    refine ((mbAppendData_sound body data).also fun body' h' => mbAppendData_ok h').bind ?_
    intro body' hdata
    exact hK.append h hbody hdata

theorem respAppendStr_sound (hK : BodyKept K) (h : K resp) (str : Bytes) :
    Sound (pageFault · = true) K (respAppendStr resp str) :=
  respAppendData_sound hK h _

theorem flushRun_sound (hK : BodyKept K) (h : K resp) (run : Bytes) :
    Sound (pageFault · = true) K (flushRun resp run) :=
  .ite h (respAppendData_sound hK h _)

theorem appendDataEscapeHtml_sound (hK : BodyKept K) (h : K resp) (data : Bytes) :
    Sound (pageFault · = true) K (appendDataEscapeHtml resp data) := by
  have hloop : ∀ data run resp, K resp →
      Sound (pageFault · = true) K (escapeLoop resp run data) := by
    intro data
    induction data with
    | nil => intro run resp h; exact flushRun_sound hK h run
    | cons b rest ih =>
      intro run resp h
      unfold escapeLoop
      split
      · exact (flushRun_sound hK h run).bind fun _ h => (respAppendStr_sound hK h _).bind fun _ h =>
          ih _ _ h
      · exact ih _ _ h
  exact hloop data [] resp h

theorem respAppendFmt_plain (hK : BodyKept K) (h : K resp) (fmt : Bytes) (args : List FmtArg) :
    Plain K (respAppendFmt resp fmt args) := by
  have hloop : ∀ run, Plain K (fmtLoop resp run fmt args) := by
    intro run
    fun_induction fmtLoop resp run fmt args with
    | case1 _ _ _ _ _ ih =>
      exact lift_bind (flushRun_sound hK h _) fun _ h =>
        lift_bind (appendDataEscapeHtml_sound hK h _) fun _ h => ih _ h
    | case2 _ _ _ _ _ ih =>
      exact lift_bind (flushRun_sound hK h _) fun _ h =>
        lift_bind (appendDataEscapeHtml_sound hK h _) fun _ h => ih _ h
    | case3 _ _ _ _ _ ih =>
      exact lift_bind (flushRun_sound hK h _) fun _ h =>
        lift_bind (appendDataEscapeHtml_sound hK h _) fun _ h => ih _ h
    | case4 _ _ _ _ _ ih =>
      exact lift_bind (flushRun_sound hK h _) fun _ h =>
        lift_bind (respAppendData_sound hK h _) fun _ h => ih _ h
    | case5 _ _ _ _ ih =>
      exact lift_bind (flushRun_sound hK h _) fun _ h => within_perform rfl fun _ =>
        lift_bind (appendDataEscapeHtml_sound hK h _) fun _ h => ih _ h
    | case6 _ _ _ _ ih =>
      exact lift_bind (flushRun_sound hK h _) fun _ h =>
        lift_bind (respAppendData_sound hK h _) fun _ h => ih _ h
    | case7 => exact rfl
    | case8 _ _ _ _ _ _ _ _ _ _ _ ih =>
      exact lift_bind (flushRun_sound hK h _) fun _ h =>
        lift_bind (respAppendData_sound hK h _) fun _ h => ih _ h
    | case9 _ _ _ _ _ _ _ _ _ _ _ _ ih => exact ih h
    | case10 => exact .lift (flushRun_sound hK h _)
  exact hloop []

/-- What the header lines of a response are given, and what they leave. -/
abbrev AddsHeader (K₀ K : RespBuf → Prop) (name value : Bytes) : Prop :=
  ∀ resp, K₀ resp → Sound (pageFault · = true) K (respAppendHeader resp name value)

theorem printMovedAddSlash_within {K₀ K₁ : RespBuf → Prop} {urlPath : Bytes} {onlyHead : Bool}
    (hK : onlyHead = false → BodyKept K)
    (hnew : Sound (pageFault · = true) K₀ (respNew (ascii "301 Moved Permanently") onlyHead))
    (hlocation : AddsHeader K₀ K₁ (ascii "Location") (urlPath ++ [slash]))
    (htype : AddsHeader K₁ K (ascii "Content-Type") htmlType) :
    Plain K (printMovedAddSlash urlPath onlyHead) := by
  refine lift_bind hnew fun _ h => lift_bind (hlocation _ h) fun _ h =>
    lift_bind (htype _ h) fun _ h => ?_
  cases onlyHead with
  | true => exact .pure h
  | false => exact respAppendFmt_plain (hK rfl) h _ _

theorem printMovedAddSlash_plain (urlPath : Bytes) (onlyHead : Bool) :
    Plain (Shape none (! onlyHead)) (printMovedAddSlash urlPath onlyHead) :=
  printMovedAddSlash_within (fun h => h ▸ bodyKept_shape none) (respNew_sound _ _)
    (fun _ h => respAppendHeader_sound h _ _) fun _ h => respAppendHeader_sound h _ _

set_option maxRecDepth 4096 in
theorem printMesgPage_within {K₀ : RespBuf → Prop} {status : Bytes} {onlyHead : Bool}
    (hK : onlyHead = false → BodyKept K)
    (hnew : Sound (pageFault · = true) K₀ (respNew status onlyHead))
    (htype : AddsHeader K₀ K (ascii "Content-Type") htmlType) (mesg : Option Bytes) (path : Bytes)
    (showLoginButton : Bool) :
    Plain K (printMesgPage status mesg path onlyHead showLoginButton) := by
  refine lift_bind hnew fun _ h => lift_bind (htype _ h) fun _ h => ?_
  cases onlyHead with
  | true => exact .pure h
  | false =>
  have hK := hK rfl
  refine (respAppendFmt_plain hK h _ _).bind fun _ h => ?_
  refine .bind (.ite (respAppendFmt_plain hK h _ _) (.pure h)) fun _ h => ?_
  refine (respAppendFmt_plain hK h _ _).bind fun _ h => ?_
  refine .bind ?_ fun _ h => .lift (respAppendStr_sound hK h _)
  cases mesg with
  | none => exact .pure h
  | some mesg => exact respAppendFmt_plain hK h _ _

theorem printMesgPage_plain (status : Bytes) (mesg : Option Bytes) (path : Bytes)
    (onlyHead showLoginButton : Bool) :
    Plain (Shape none (! onlyHead)) (printMesgPage status mesg path onlyHead showLoginButton) :=
  printMesgPage_within (fun h => h ▸ bodyKept_shape none) (respNew_sound _ _)
    (fun _ h => respAppendHeader_sound h _ _) _ _ _

theorem printErrorPage_plain (cfg : Config) (sysErrno : Option Errno) (path : Bytes)
    (onlyHead showLoginButton : Bool) :
    Plain (Shape none (! onlyHead)) (printErrorPage cfg sysErrno path onlyHead showLoginButton) :=
  printMesgPage_plain _ _ _ _ _

theorem printUnauthorized_plain (urlPath : Bytes) (onlyHead : Bool) :
    Plain (Shape none (! onlyHead)) (printUnauthorized urlPath onlyHead) := by
  have hauth : Plain Any authGetAuthResponseHeader :=
    within_perform rfl fun _ => lift_bind (mbAppendStrL_sound _ _) fun _ _ => trivial
  exact (printMesgPage_plain _ _ _ _ _).bind fun _ h => hauth.bind fun _ _ =>
    lift_bind (respAppendHeader_sound h _ _) fun _ h => .lift (respAppendHeader_sound h _ _)

end Response

section FolderPage

variable {K : RespBuf → Prop}

theorem forEach_plain {α : Type} {add : RespBuf → α → Prog RespBuf}
    (hadd : ∀ resp x, K resp → Plain K (add resp x)) (xs : List α)
    {resp : RespBuf} (h : K resp) : Plain K (forEach xs add resp) := by
  induction xs generalizing resp with
  | nil => exact .pure h
  | cons x xs ih => exact (hadd resp x h).bind fun resp h => ih h

theorem addIf_sound (hK : BodyKept K) (cond : Bool) {resp : RespBuf} (h : K resp) (text : Bytes) :
    Sound (pageFault · = true) K (addIf cond resp text) :=
  .ite (respAppendStr_sound hK h _) h

theorem spreadDigits_sound (n : Nat) (buf : Bytes) (len dest : Nat) :
    Sound (pageFault · = true) Any (spreadDigits n buf len dest) := by
  induction n generalizing buf len dest with
  | zero => exact (rfl : pageFault .outOfFuel = true)
  | succ n ih =>
    unfold spreadDigits
    exact .ite trivial (.ite rfl (ih _ _ _))

theorem formatSize_sound (size : Nat) : Sound (pageFault · = true) Any (formatSize size) :=
  (spreadDigits_sound _ _ _ _).bind fun _ _ => trivial

variable {resp : RespBuf} (urlPath : DataChunk) (folder : Folder)

theorem folderPageTop_plain (hK : BodyKept K) (h : K resp) (showLoginButton : Bool)
    (opErrorMsg : Option Bytes) :
    Plain K (folderPageTop resp urlPath folder showLoginButton opErrorMsg) := by
  refine (respAppendFmt_plain hK h _ _).bind fun _ h =>
    (respAppendFmt_plain hK h _ _).bind fun _ h => ?_
  refine (forEach_plain (fun _ _ h => respAppendFmt_plain hK h _ _) _ h).bind fun _ h => ?_
  refine lift_bind (respAppendStr_sound hK h _) fun _ h =>
    lift_bind (addIf_sound hK _ h _) fun _ h => ?_
  refine .bind (.ite (respAppendFmt_plain hK h _ _) (.pure h)) fun _ h => ?_
  refine lift_bind (respAppendStr_sound hK h _) fun _ h => ?_
  cases opErrorMsg with
  | none => exact .pure h
  | some mesg => exact respAppendFmt_plain hK h _ _

theorem parentRow_plain (hK : BodyKept K) (h : K resp) (isModifiable : Bool) :
    Plain K (parentRow resp urlPath isModifiable) :=
  .ite (.pure h) (respAppendFmt_plain hK h _ _)

theorem entryRow_plain (hK : BodyKept K) (h : K resp) (ent : FolderEntry)
    (isModifiable isCGI : Bool) :
    Plain K (entryRow resp urlPath ent isModifiable isCGI) := by
  refine lift_bind (respAppendStr_sound hK h _) fun _ h => ?_
  refine (respAppendFmt_plain hK h _ _).bind fun _ h =>
    (respAppendFmt_plain hK h _ _).bind fun _ h => ?_
  refine .bind (.ite (.lift (respAppendStr_sound hK h _)) ?_) fun _ h =>
    .lift (respAppendStr_sound hK h _)
  exact lift_bind (formatSize_sound _) fun _ _ => respAppendFmt_plain hK h _ _

theorem newDirOptions_plain (hK : BodyKept K) (h : K resp) (idx : Nat) :
    Plain K (newDirOptions resp urlPath folder idx) := by
  refine (forEach_plain (fun _ _ h => respAppendFmt_plain hK h _ _) _ h).bind fun _ h => ?_
  refine (respAppendFmt_plain hK h _ _).bind fun _ h => forEach_plain ?_ _ h
  rintro resp ⟨ent, i⟩ h
  exact .ite (respAppendFmt_plain hK h _ _) (.pure h)

theorem permSelect_plain (hK : BodyKept K) (h : K resp) (mode : Nat) (perm : FilePerm) :
    Plain K (permSelect resp mode perm) :=
  (respAppendFmt_plain hK h _ _).bind fun _ h =>
    (forEach_plain (fun _ _ h => respAppendFmt_plain hK h _ _) _ h).bind fun _ h =>
      .lift (respAppendStr_sound hK h _)

set_option maxRecDepth 4096 in
theorem entryMenu_plain (hK : BodyKept K) (h : K resp) (ent : FolderEntry) (idx : Nat) :
    Plain K (entryMenu resp urlPath folder ent idx) := by
  refine (respAppendFmt_plain hK h _ _).bind fun _ h => ?_
  refine lift_bind (respAppendStr_sound hK h _) fun _ h => ?_
  refine (newDirOptions_plain _ _ hK h _).bind fun _ h =>
    (respAppendFmt_plain hK h _ _).bind fun _ h => ?_
  refine lift_bind (respAppendStr_sound hK h _) fun _ h => ?_
  refine (forEach_plain (fun _ _ h => permSelect_plain hK h _ _) _ h).bind fun _ h => ?_
  refine lift_bind (respAppendStr_sound hK h _) fun _ h =>
    lift_bind (addIf_sound hK _ h _) fun _ h => ?_
  refine lift_bind (respAppendStr_sound hK h _) fun _ h =>
    lift_bind (addIf_sound hK _ h _) fun _ h => ?_
  exact .lift (respAppendStr_sound hK h _)

/-- The path of an entry is not empty. -/
theorem entryPath_ne_nil {mb : MemBuf} (hmb : nul ∉ mb.data ∧ mb.data ≠ []) (name : Bytes) :
    cstr (mbSetStrEnd mb mb.dataLen name).data ≠ [] := by
  obtain ⟨b, rest, hcons⟩ := List.exists_cons_of_ne_nil hmb.2
  have hb : b ≠ nul := fun he => hmb.1 (by rw [hcons, he]; exact List.mem_cons_self)
  rw [mbSetStrEnd, MemBuf.dataLen, List.take_length, hcons, cstr, List.cons_append,
    List.cons_append, List.takeWhile_cons_of_pos (by simpa using hb)]
  exact List.cons_ne_nil _ _

theorem entUrlPath_new (urlPath : Bytes) :
    Sound (pageFault · = true) (fun mb => nul ∉ mb.data) (mbNewWithStr urlPath) := by
  refine (mbNewWithStr_sound _).also ?_
  intro mb hmb
  rw [mbNewWithStr, mbAppendStr] at hmb
  rw [mbAppendData_ok hmb]
  exact nul_not_mem_cstr urlPath

theorem entUrlPath_slash {mb : MemBuf} (hnul : nul ∉ mb.data) :
    Sound (pageFault · = true) (fun mb => nul ∉ mb.data ∧ mb.data ≠ [])
      (mbEnsureEndsWithSlash mb) := by
  refine (mbEnsureEndsWithSlash_sound _).also ?_
  intro mb' hmb
  rw [mbEnsureEndsWithSlash_ok hmb]
  split
  · rename_i hlast
    exact ⟨hnul, fun hnil => by rw [hnil] at hlast; cases hlast⟩
  · refine ⟨fun hm => ?_, List.append_ne_nil_of_right_ne_nil _ (List.cons_ne_nil _ _)⟩
    rcases List.mem_append.mp hm with hm | hm
    · exact hnul hm
    · exact absurd hm (by decide)

theorem entryIsCGI_plain (cfg : Config) {mb : MemBuf} (hmb : nul ∉ mb.data ∧ mb.data ≠ [])
    (ent : FolderEntry) :
    Plain Any (if ent.isDir then pure false
      else liftM (configIsCGI cfg (cstr (mbSetStrEnd mb mb.dataLen ent.fileName).data))) :=
  .ite (.pure trivial) (.lift (configIsCGI_inside cfg (entryPath_ne_nil hmb _)))

set_option maxRecDepth 4096 in
theorem printFolderContents_within {K₀ : RespBuf → Prop} {onlyHead : Bool}
    (hK : onlyHead = false → BodyKept K)
    (hnew : Sound (pageFault · = true) K₀ (respNew (respCmnStatus .ok200) onlyHead))
    (htype : AddsHeader K₀ K (ascii "Content-Type") htmlType) (cfg : Config) (urlPath : Bytes)
    (folder : Folder) (isModifiable showLoginButton : Bool) (opErrorMsg : Option Bytes) :
    Plain K (printFolderContents cfg urlPath folder isModifiable showLoginButton opErrorMsg
      onlyHead) := by
  refine lift_bind hnew fun _ h => lift_bind (htype _ h) fun _ h => ?_
  cases onlyHead with
  | true => exact .pure h
  | false =>
  have hK := hK rfl
  refine (folderPageTop_plain _ _ hK h _ _).bind fun _ h => ?_
  refine lift_bind (respAppendStr_sound hK h _) fun _ h =>
    (parentRow_plain _ hK h _).bind fun _ h => ?_
  refine lift_bind (entUrlPath_new urlPath) fun _ hnul =>
    lift_bind (entUrlPath_slash hnul) fun _ hmb => ?_
  refine (forEach_plain ?_ _ h).bind fun _ h => respAppendFmt_plain hK h _ _
  rintro resp ⟨ent, idx⟩ h
  refine (entryIsCGI_plain cfg hmb ent).bind fun _ _ => ?_
  exact (entryRow_plain _ hK h _ _ _).bind fun _ h =>
    .ite (entryMenu_plain _ _ hK h _ _) (.pure h)

theorem printFolderContents_plain (cfg : Config) (urlPath : Bytes) (folder : Folder)
    (isModifiable showLoginButton : Bool) (opErrorMsg : Option Bytes) (onlyHead : Bool) :
    Plain (Shape none (! onlyHead)) (printFolderContents cfg urlPath folder isModifiable
      showLoginButton opErrorMsg onlyHead) :=
  printFolderContents_within (fun h => h ▸ bodyKept_shape none) (respNew_sound _ _)
    (fun _ h => respAppendHeader_sound h _ _) _ _ _ _ _ _

end FolderPage

end FilemanagerHttpd.Audit
