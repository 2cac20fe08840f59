import FilemanagerHttpd.Audit.UploadSteps

/-!
# An upload is all or nothing

One part with a file name, from its first piece to its removal. Whatever fails, either the whole
body is under the target name, or each entry has what it had before.
-/

namespace FilemanagerHttpd.Audit

open Library Server

/-- The complete header and the bytes behind it, when the header ends in one of the pieces. -/
def bodyOf : DataHeader → List Bytes → Option (DataHeader × Bytes)
  | _, [] => none
  | hdr, piece :: rest =>
    match datahdrAppendData hdr piece with
    | .ok (hdr, none) => bodyOf hdr rest
    | .ok (hdr, some offset) => some (hdr, piece.drop offset ++ rest.flatten)
    | .error _ => none

def appendPieces (fuel : Nat) : ContentPart → List Bytes → Prog ContentPart
  | cpart, [] => return cpart
  | cpart, piece :: rest => do appendPieces fuel (← cpartAppendData fuel cpart piece) rest

/-- A part with a file name and a directory, as it arrives, and the arguments of
`cpart_finishUpload` if there is such a call. -/
structure UploadInput where
  destDir : Bytes
  pieces : List Bytes
  header : DataHeader
  body : Bytes
  fileName : Bytes
  finish : Option (Option Bytes × Bool)
  complete : bodyOf datahdrNew pieces = some (header, body)
  named : (readDisposition { cpartNew (some destDir) with header }).fileName = some fileName
  clean : nul ∉ destDir
  fits : destDir.length + fileName.length + 2 < uintSize
  targetFits : ∀ targetName replaceIfExists, finish = some (targetName, replaceIfExists) →
    destDir.length + (targetName.getD fileName).length + 2 < uintSize

/-- The part from its creation to its removal; the result is that of `cpart_finishUpload`. -/
def UploadInput.run (x : UploadInput) (fuel : Nat) : Prog (Option (Bool × Option Errno)) := do
  let cpart ← appendPieces fuel (cpartNew (some x.destDir)) x.pieces
  match x.finish with
  | none =>
    cpartFree cpart
    return none
  | some (targetName, replaceIfExists) =>
    let (cpart, stored, sysErrNo) ← cpartFinishUpload cpart targetName replaceIfExists
    cpartFree cpart
    return some (stored, sysErrNo)

/-- The header may be cut anywhere. -/
example : (bodyOf datahdrNew [ascii "Content-Disposition: form-data; name=a; filen",
    ascii "ame=b\r\n\r\nxy", ascii "z"]).map (·.2) = some (ascii "xyz") := by decide +kernel

variable {ε : Type} [DecidableEq ε] {locate : Path → ε} {s t u : DiskState ε}

/-- How an upload ends: the body is under the target name and nothing else has changed, or nothing
has changed and the error is that of the only call that has failed. -/
def UploadEnds (locate : Path → ε) (x : UploadInput) (s : DiskState ε) :
    Option (Bool × Option Errno) → DiskState ε → Prop
  | some (true, _), t => ∃ targetName replaceIfExists,
    x.finish = some (targetName, replaceIfExists) ∧ ∀ place, t.contentAt place =
      if place = locate (uploadTarget x.destDir x.fileName targetName) then some x.body
      else s.contentAt place
  | some (false, sysErrNo), t => (∀ place, t.contentAt place = s.contentAt place) ∧
    ∃ e, sysErrNo = some e ∧ Failed s t [e]
  | none, t => ∀ place, t.contentAt place = s.contentAt place

theorem appendPieces_received {destDir fileName body : Bytes} {cpart : ContentPart} {fuel : Nat}
    {pieces : List Bytes} (hfuel : pieces.flatten.length < fuel)
    (h : Received locate s destDir fileName body cpart t) :
    wp (diskWorld locate) diskDuty (appendPieces fuel cpart pieces)
      (fun c u => Received locate s destDir fileName (body ++ pieces.flatten) c u) t := by
  induction pieces generalizing cpart body t with
  | nil =>
    rw [List.flatten_nil, List.append_nil]
    exact h
  | cons piece rest ih =>
    rw [List.flatten_cons, List.length_append] at hfuel
    apply wp_seq (cpartAppendData_received (by omega) h)
    intro c u hc
    rw [List.flatten_cons, ← List.append_assoc]
    exact ih (by omega) hc

/-- A part whose header is not complete. -/
structure Heading (destDir : Bytes) (hdr : DataHeader) (cpart : ContentPart) : Prop where
  header : cpart.header = hdr
  fresh : cpart.fileName = none ∧ cpart.body = none
  closed : cpart.fileDesc = none
  destDir_eq : cpart.destDir = some destDir
  unnamed : ∀ header, readDisposition { cpart with header } =
    readDisposition { cpartNew (some destDir) with header }

theorem appendPieces_complete {destDir fileName body : Bytes} {cpart : ContentPart} {fuel : Nat}
    {pieces : List Bytes} {hdr header : DataHeader} (hfuel : pieces.flatten.length < fuel)
    (h : Heading destDir hdr cpart) (hbody : bodyOf hdr pieces = some (header, body))
    (hname : (readDisposition { cpartNew (some destDir) with header }).fileName = some fileName)
    {dir filePathName : MemBuf} (hslash : dirWithSlash destDir = .ok dir)
    (hpath : mbAppendStr dir fileName = .ok filePathName) :
    wp (diskWorld locate) diskDuty (appendPieces fuel cpart pieces)
      (fun c u => Received locate s destDir fileName body c u) s := by
  induction pieces generalizing cpart hdr with
  | nil => cases hbody
  | cons piece rest ih =>
    rw [List.flatten_cons, List.length_append] at hfuel
    rw [bodyOf] at hbody
    split at hbody
    · rename_i hdr' hpiece
      have hround : cpartAppendData fuel cpart piece = .done { cpart with header := hdr' } := by
        rw [cpartAppendData, if_pos h.fresh, h.header, hpiece]
        rfl
      show wp _ _ (cpartAppendData fuel cpart piece >>= _) _ _
      rw [hround]
      exact ih (by omega) ⟨rfl, h.fresh, h.closed, h.destDir_eq, h.unnamed⟩ hbody
    · rename_i hdr' offset hpiece
      obtain ⟨rfl, rfl⟩ := Prod.mk.inj (Option.some.inj hbody)
      rw [← h.header] at hpiece
      apply wp_seq (cpartAppendData_complete (by omega) h.fresh h.closed h.destDir_eq hpiece
        (by rw [h.unnamed, hname]) hslash hpath)
      intro c u hc
      exact appendPieces_received (by omega) hc
    · cases hbody

section Contents

variable {fd : Fd} {path : Path} {i : Inode} {body : Bytes} {e : Errno}

omit [DecidableEq ε] in
theorem contentAt_givenUp (h : GivenUp s e t) (place : ε) :
    t.contentAt place = s.contentAt place := by
  rw [DiskState.contentAt, DiskState.contentAt, h.entries]
  cases hfile : s.entries place with
  | none => rfl
  | some j => rw [Option.map_some, Option.map_some, h.others j ⟨place, hfile⟩]

/-- The new file, and what the other entries had. -/
theorem contentAt_opened (h : Opened locate s fd path i body t) {place : ε}
    (hne : place ≠ locate path) : t.contentAt place = s.contentAt place := by
  rw [DiskState.contentAt, DiskState.contentAt, h.entries, Function.update_of_ne hne]
  cases hfile : s.entries place with
  | none => rfl
  | some j =>
    rw [Option.map_some, Option.map_some, h.others j fun hj => h.unused place (hj ▸ hfile)]

theorem contentAt_removed (h : Opened locate s fd path i body t)
    (hentries : u.entries = Function.update t.entries (locate path) none)
    (hcontent : u.content = t.content) (place : ε) : u.contentAt place = s.contentAt place := by
  by_cases hplace : place = locate path
  · rw [DiskState.contentAt, DiskState.contentAt, hentries, hplace, Function.update_self, h.vacant]
    rfl
  · rw [← contentAt_opened h hplace, DiskState.contentAt, DiskState.contentAt, hentries,
      Function.update_of_ne hplace, hcontent]

theorem contentAt_stored {target : Path} {replaceIfExists : Bool}
    (h : Opened locate s fd path i body t) (hs : StoredAt locate t path target i replaceIfExists u)
    (place : ε) :
    u.contentAt place = if place = locate target then some body else s.contentAt place := by
  rw [DiskState.contentAt, hs.entries, hs.content]
  split
  · rename_i hplace
    rw [hplace, Function.update_self, Option.map_some, h.content]
  · rename_i hplace
    rw [Function.update_of_ne hplace]
    by_cases hpath : place = locate path
    · rw [hpath, Function.update_self, DiskState.contentAt, h.vacant]
      rfl
    · rw [Function.update_of_ne hpath]
      exact contentAt_opened h hpath

end Contents

/-- A part whose file has not been stored takes it away, also when a call has failed before. -/
theorem cpartFree_received {fd : Fd} {path : Path} {i : Inode} {body : Bytes} {cpart : ContentPart}
    (h : Opened locate s fd path i body t) (hfd : cpart.fileDesc = some fd)
    (hpath : cpart.filePathName = some path) (hentries : u.entries = t.entries)
    (hfiles : u.files = t.files) (hcontent : u.content = t.content) :
    wp (diskWorld locate) diskDuty (cpartFree cpart)
      (fun _ v => (∀ place, v.contentAt place = s.contentAt place) ∧ Failed u v []) u := by
  have hholds := h.holds hfd hpath
  have hholds' : Holds locate u cpart fd path i body := by
    constructor
    · exact hfd
    · exact hpath
    · rw [hfiles, hholds.opened]
    · rw [hentries, hholds.entry]
    · rw [hcontent, hholds.content]
    · rw [hentries]
      exact hholds.alone
  refine wp_mono (cpartFree_wp hholds') fun _ v hv => ?_
  obtain ⟨hremoved, -, hkept, hfailed⟩ := hv
  exact ⟨contentAt_removed h (by rw [hremoved, hentries]) (hkept.trans hcontent), hfailed⟩

/-- What becomes of a part that has received its body. -/
theorem upload_ends {x : UploadInput} {cpart : ContentPart}
    (h : Received locate s x.destDir x.fileName x.body cpart t) :
    wp (diskWorld locate) diskDuty
      (match x.finish with
        | none => cpartFree cpart >>= fun _ => pure none
        | some (targetName, replaceIfExists) =>
          cpartFinishUpload cpart targetName replaceIfExists >>= fun r =>
            cpartFree r.1 >>= fun _ => pure (some r.2))
      (UploadEnds locate x s) t := by
  cases hfinish : x.finish with
  | none =>
    rcases h.file with ⟨fd, path, i, hfd, hpath, hopened⟩ | ⟨e, hclosed, -, hgiven⟩
    · apply wp_seq (cpartFree_received hopened hfd hpath rfl rfl rfl)
      intro _ v hv
      exact hv.1
    · show wp _ _ (cpartFree cpart >>= _) _ _
      rw [cpartFree_closed hclosed]
      exact contentAt_givenUp hgiven
  | some arguments =>
    obtain ⟨targetName, replaceIfExists⟩ := arguments
    rcases h.file with ⟨fd, path, i, hfd, hpath, hopened⟩ | ⟨e, hclosed, herror, hgiven⟩
    · have htarget := targetPath_eq h.fileName_eq h.destDir_eq x.clean (x.targetFits _ _ hfinish)
      apply wp_seq (cpartFinishUpload_wp (hopened.holds hfd hpath) htarget)
      rintro r u (⟨rfl, v, hstored, rfl⟩ | ⟨e, rfl, hrefused⟩)
      · rw [cpartFree_closed rfl]
        have hcontent := contentAt_stored hopened hstored
        exact ⟨targetName, replaceIfExists, hfinish, hcontent⟩
      · apply wp_seq (cpartFree_received hopened hfd hpath hrefused.entries hrefused.files
          hrefused.content)
        intro _ v hv
        exact ⟨hv.1, e, rfl,
          failed_trans hopened.failed (failed_trans hrefused.failed hv.2)⟩
    · have hdone : cpartFinishUpload cpart targetName replaceIfExists =
          .done (cpart, false, cpart.sysErrNo) := by
        rw [cpartFinishUpload, hclosed]
        rfl
      show wp _ _ (cpartFinishUpload cpart targetName replaceIfExists >>= _) _ _
      rw [hdone]
      show wp _ _ (cpartFree cpart >>= _) _ _
      rw [cpartFree_closed hclosed]
      exact ⟨contentAt_givenUp hgiven, e, herror, hgiven.failed⟩

end FilemanagerHttpd.Audit
