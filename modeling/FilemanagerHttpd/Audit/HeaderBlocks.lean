import FilemanagerHttpd.Audit.ResponseText
import FilemanagerHttpd.Audit.UrlPaths
import FilemanagerHttpd.Audit.SenderRun
import FilemanagerHttpd.Server.Environment

/-!
# Header blocks read line by line

A header block is read back line by line up to the first empty line. What is read is the
status line and the lines that were appended, as long as no value has a line feed in it, and
the values that come from the path of a request are two: the address of a redirection, and
the name of a file that is sent.
-/

namespace FilemanagerHttpd.Audit

open Library Server

/-- The lines of a block up to the first empty one. -/
def headerLines (block : Bytes) : List Bytes :=
  ((block.splitOn lf).map stripCr).takeWhile (! ·.isEmpty)

def statusLine (status : Bytes) : Bytes := ascii "HTTP/1.1 " ++ status

def fieldText (field : Bytes × Bytes) : Bytes := field.1 ++ ascii ": " ++ field.2

section Lines

theorem stripCr_cr (line : Bytes) : stripCr (line ++ [cr]) = line := by
  rw [stripCr, List.getLast?_concat, if_pos rfl, List.dropLast_concat]

theorem splitOn_line {l : Bytes} (hl : lf ∉ l) (tail : Bytes) :
    (l ++ (crlf ++ tail)).splitOn lf = (l ++ [cr]) :: tail.splitOn lf := by
  have hline : lf ∉ l ++ [cr] := by
    intro hm
    rcases List.mem_append.mp hm with hm | hm
    · exact hl hm
    · exact absurd hm (by decide)
  rw [← List.splitOn_append_cons_self_of_not_mem hline, crlf]
  simp only [List.append_assoc, List.cons_append, List.nil_append]

theorem headerLines_cons {l : Bytes} (hl : lf ∉ l) (hne : l ≠ []) (tail : Bytes) :
    headerLines (l ++ (crlf ++ tail)) = l :: headerLines tail := by
  rw [headerLines, splitOn_line hl, List.map_cons, stripCr_cr,
    List.takeWhile_cons_of_pos (by simpa using hne), headerLines]

theorem headerLines_end (rest : Bytes) : headerLines (crlf ++ rest) = [] := by
  have hempty := splitOn_line (l := []) List.not_mem_nil rest
  rw [List.nil_append] at hempty
  rw [headerLines, hempty, List.map_cons, stripCr_cr]
  rfl

/-- Lines without a line feed are read back. -/
theorem headerLines_flatMap {lines : List Bytes} (h : ∀ l ∈ lines, lf ∉ l ∧ l ≠ [])
    (rest : Bytes) : headerLines (lines.flatMap (· ++ crlf) ++ (crlf ++ rest)) = lines := by
  induction lines with
  | nil => exact headerLines_end rest
  | cons l lines ih =>
    obtain ⟨hl, hne⟩ := h l List.mem_cons_self
    rw [List.flatMap_cons, List.append_assoc, List.append_assoc, headerLines_cons hl hne,
      ih fun l hl => h l (List.mem_cons_of_mem _ hl)]

theorem not_mem_of_mem_splitOn {c : Byte} {text l : Bytes} (h : l ∈ text.splitOn c) : c ∉ l := by
  induction text generalizing l with
  | nil =>
    rw [List.splitOn_nil, List.mem_singleton] at h
    rw [h]
    exact List.not_mem_nil
  | cons b rest ih =>
    rw [List.splitOn_cons_eq_if_modifyHead] at h
    obtain ⟨l₀, ls, hls⟩ := List.exists_cons_of_ne_nil (List.splitOn_ne_nil c rest)
    rw [hls] at h ih
    split at h
    · rcases List.mem_cons.mp h with rfl | h
      · exact List.not_mem_nil
      · exact ih h
    · rename_i hb
      rcases List.mem_cons.mp h with rfl | h
      · intro hm
        rcases List.mem_cons.mp hm with rfl | hm
        · exact hb (beq_self_eq_true _)
        · exact ih List.mem_cons_self hm
      · exact ih (List.mem_cons_of_mem _ h)

theorem mem_of_mem_stripCr {b : Byte} {line : Bytes} (h : b ∈ stripCr line) : b ∈ line := by
  unfold stripCr at h
  split at h
  · exact List.mem_of_mem_dropLast h
  · exact h

/-- No line that is read has a line feed in it. -/
theorem lf_not_mem_headerLines {block l : Bytes} (h : l ∈ headerLines block) : lf ∉ l := by
  have hl := (List.takeWhile_sublist _).subset h
  obtain ⟨line, hline, rfl⟩ := List.mem_map.mp hl
  exact fun hm => not_mem_of_mem_splitOn hline (mem_of_mem_stripCr hm)

theorem headText_eq (status : Bytes) (fields : List (Bytes × Bytes)) :
    headText status fields = (statusLine status :: fields.map fieldText).flatMap (· ++ crlf) := by
  rw [headText, List.flatMap_cons, List.flatMap_map]
  rfl

/-- A header whose texts have no line feed is read back as it was put together. -/
theorem headerLines_headText {status : Bytes} {fields : List (Bytes × Bytes)}
    (hstatus : lf ∉ status) (hfields : ∀ f ∈ fields, lf ∉ f.1 ∧ lf ∉ f.2) (rest : Bytes) :
    headerLines (headText status fields ++ (crlf ++ rest)) =
      statusLine status :: fields.map fieldText := by
  rw [headText_eq]
  apply headerLines_flatMap
  intro l hl
  rcases List.mem_cons.mp hl with rfl | hl
  · refine ⟨fun hm => ?_, by simp [statusLine, ascii]⟩
    rcases List.mem_append.mp hm with hm | hm
    · exact absurd hm (by decide)
    · exact hstatus hm
  · obtain ⟨f, hf, rfl⟩ := List.mem_map.mp hl
    obtain ⟨hname, hvalue⟩ := hfields f hf
    refine ⟨fun hm => ?_, by simp [fieldText, ascii]⟩
    rcases List.mem_append.mp hm with hm | hm
    · rcases List.mem_append.mp hm with hm | hm
      · exact hname hm
      · exact absurd hm (by decide)
    · exact hvalue hm

end Lines

section Framing

/-- The header line that announces how long the body is. -/
def lengthField (bodyLen : Nat) (nbytes : Int) : Bytes × Bytes :=
  if 0 ≤ nbytes then (ascii "Content-Length", decimal (bodyLen + nbytes.toNat))
  else (ascii "Transfer-Encoding", ascii "chunked")

theorem fieldLine_lengthField (bodyLen : Nat) (nbytes : Int) :
    lengthLine bodyLen nbytes = fieldLine (lengthField bodyLen nbytes) := by
  unfold lengthLine lengthField
  split
  · rw [fieldLine, show ascii "Content-Length: " = ascii "Content-Length" ++ ascii ": " by decide]
  · decide

/-- What a new sender adds to the header lines. -/
def framing (r : ResponseSender) : List (Bytes × Bytes) :=
  match r.body with
  | none => []
  | some _ => [lengthField r.dataSize r.nbytes]

theorem appendStr_yields {mb : MemBuf} {str : Bytes} (hstr : nul ∉ str) :
    Yields (S := sys) (fun mb' => mb'.data = mb.data ++ str)
      (liftM (mbAppendStr mb str) : Prog MemBuf) :=
  .lift ((Sound.always _).also fun _ h => mbAppendStr_ok hstr h)

/-- A new sender has the header it was given, the line with the length of the body, the empty
line, and behind that at most the size of the first chunk. -/
theorem rsndrNew_text (header : MemBuf) (body : Option MemBuf) (fd : Option Fd) :
    Yields (S := sys) (fun r => r.body.isSome = body.isSome ∧ ∃ more, r.header =
        some ⟨header.data ++ (framing r).flatMap fieldLine ++ (crlf ++ more)⟩)
      (rsndrNew header body fd) := by
  have hcrlf : nul ∉ crlf := by decide
  refine Yields.seq fun nbytes => ?_
  cases body with
  | none =>
    refine Yields.bind (Q := fun mb => mb = header) (.pure rfl) ?_
    rintro _ rfl
    refine Yields.seq fun fd => (appendStr_yields hcrlf).bind fun mb hmb => .pure ⟨rfl, [], ?_⟩
    rw [framing, List.flatMap_nil, List.append_nil, List.append_nil, ← hmb]
  | some body =>
    refine (appendStr_yields (nul_not_mem_lengthLine body.dataLen nbytes)).bind fun mb₁ h₁ => ?_
    refine Yields.seq fun fd => (appendStr_yields hcrlf).bind fun mb₂ h₂ => ?_
    rw [h₁, fieldLine_lengthField] at h₂
    refine .ite (fun hchunk => ?_) fun _ => .pure ⟨rfl, [], ?_⟩
    · have hsize := nul_not_mem_chunkSizeLine body.dataLen
      have hchunked : ∀ n, lengthField n nbytes =
          (ascii "Transfer-Encoding", ascii "chunked") := fun n => if_neg (by omega)
      refine (appendStr_yields hsize).bind fun mb₃ h₃ => Yields.seq fun body' => ?_
      refine .pure ⟨rfl, chunkSizeLine body.dataLen, ?_⟩
      rw [framing, List.flatMap_singleton, hchunked, ← hchunked body.dataLen, ← List.append_assoc,
        ← h₂, ← h₃]
    · rw [framing, List.flatMap_singleton, List.append_nil, ← h₂]

end Framing

section Builders

/-- The value of the header line with the name of a file. -/
def disposition (name : Bytes) : Bytes := ascii "inline; filename=\"" ++ name ++ ascii "\""

/-- The header lines of the responses that the server makes itself, for the path of a
request. -/
inductive BuiltFor (q : Bytes) : Bytes → List (Bytes × Bytes) → Prop
  | moved : BuiltFor q (ascii "301 Moved Permanently")
      [(ascii "Location", q ++ [slash]), pageType]
  | page (status : HttpStatus) : BuiltFor q (respCmnStatus status) [pageType]
  | unauthorized (nonce : Nat) : BuiltFor q (ascii "401 Unauthorized")
      [pageType, (ascii "WWW-Authenticate", challenge nonce), pageType]
  | fileHead (sysPath : Path) : BuiltFor q (respCmnStatus .ok200)
      [(ascii "Content-Type", cttypeGetContentTypeByFileExt sysPath)]
  | file (sysPath : Path) {before name : Bytes} :
    splitAtLastByte slash q = some (before, name) → BuiltFor q (respCmnStatus .ok200)
      [(ascii "Content-Type", cttypeGetContentTypeByFileExt sysPath),
        (ascii "Content-Disposition", disposition name)]
  | notAllowed : BuiltFor q (ascii "405 Method Not Allowed")
      [(ascii "Allow", ascii "GET, HEAD, POST")]

/-- A response that was built for a path, without a line feed in its header lines where
`safe` holds. -/
def Built (q : Bytes) (safe : Prop) (resp : RespBuf) : Prop :=
  ∃ status fields fd hasBody, BuiltFor q status fields ∧ Page status fields fd hasBody resp ∧
    (safe → ∀ f ∈ fields, lf ∉ f.2)

variable {q : Bytes} {safe : Prop}

theorem lf_not_mem_pageType : lf ∉ pageType.2 := by decide

theorem built_page {status : HttpStatus} {fd : Option Fd} {hasBody : Bool} {resp : RespBuf}
    (h : Page (respCmnStatus status) [pageType] fd hasBody resp) : Built q safe resp := by
  refine ⟨_, _, _, _, .page status, h, fun _ f hf => ?_⟩
  rw [List.mem_singleton.mp hf]
  exact lf_not_mem_pageType

theorem yields_of_plain {α : Type} {Q : α → Prop} {p : Prog α} (h : Plain Q p) :
    Yields (S := sys) Q p :=
  h.mono (fun _ _ => trivial) (fun _ _ => trivial) fun _ hQ => hQ

theorem yields_lift {α β : Type} {Q : α → Prop} {R : β → Prop} {e : Except Fault α}
    {k : α → Prog β} (h : Sound (pageFault · = true) Q e)
    (hk : ∀ a, Q a → Yields (S := sys) R (k a)) : Yields (S := sys) R (liftM e >>= k) :=
  (yields_of_plain (.lift h)).bind hk

theorem printErrorPage_built (cfg : Config) (sysErrno : Option Errno) (path : Bytes)
    (onlyHead showLoginButton : Bool) :
    Yields (S := sys) (Built q safe) (printErrorPage cfg sysErrno path onlyHead showLoginButton) :=
  (yields_of_plain (printErrorPage_page _ _ _ _ _)).mono fun _ h => built_page h

theorem printMesgPage_built (status : HttpStatus) (mesg : Option Bytes) (path : Bytes)
    (onlyHead showLoginButton : Bool) :
    Yields (S := sys) (Built q safe)
      (printMesgPage (respCmnStatus status) mesg path onlyHead showLoginButton) :=
  (yields_of_plain (printMesgPage_page (nul_not_mem_respCmnStatus _) _ _ _ _)).mono
    fun _ h => built_page h

theorem lf_not_mem_digits {base : Nat} (hb : 1 < base) (hb' : base ≤ 16) (n : Nat) :
    lf ∉ digits base n :=
  not_mem_digits hb hb' (by
    have h : digitVal lf = 36 := by decide
    rw [isDigit, h]; exact decide_eq_false (by omega))

theorem lf_not_mem_challenge (nonce : Nat) : lf ∉ challenge nonce := by
  have hrealm : lf ∉ ascii "Digest realm=\"" ++ fmRealm ++ ascii "\", nonce=\"" := by decide
  have hqop : lf ∉ ascii "\", qop=\"auth\"" := by decide
  intro hm
  rcases List.mem_append.mp hm with hm | hm
  · rcases List.mem_append.mp hm with hm | hm
    · exact hrealm hm
    · exact lf_not_mem_digits (by decide) (le_refl 16) nonce hm
  · exact hqop hm

theorem printUnauthorized_built (urlPath : Bytes) (onlyHead : Bool) :
    Yields (S := sys) (Built q safe) (printUnauthorized urlPath onlyHead) := by
  refine (yields_of_plain (printUnauthorized_page urlPath onlyHead)).mono ?_
  rintro resp ⟨nonce, h⟩
  refine ⟨_, _, _, _, .unauthorized nonce, h, fun _ f hf => ?_⟩
  simp only [List.mem_cons, List.not_mem_nil, or_false] at hf
  rcases hf with rfl | rfl | rfl
  · exact lf_not_mem_pageType
  · exact lf_not_mem_challenge nonce
  · exact lf_not_mem_pageType

/-- A redirection is safe only where the path has no line feed. -/
theorem printMovedAddSlash_built (hq : nul ∉ q) (hsafe : safe → lf ∉ q) (onlyHead : Bool) :
    Yields (S := sys) (Built q safe) (printMovedAddSlash q onlyHead) := by
  refine (yields_of_plain (printMovedAddSlash_page hq onlyHead)).mono fun resp h => ?_
  refine ⟨_, _, _, _, .moved, h, fun hs f hf => ?_⟩
  simp only [List.mem_cons, List.not_mem_nil, or_false] at hf
  rcases hf with rfl | rfl
  · intro hm
    rcases List.mem_append.mp hm with hm | hm
    · exact hsafe hs hm
    · exact absurd hm (by decide)
  · exact lf_not_mem_pageType

/-- The types of files are plain texts. -/
theorem contentType_clean (fname : Path) :
    ∀ b ∈ [nul, lf], b ∉ cttypeGetContentTypeByFileExt fname := by
  have htable : ∀ p ∈ mimeTypes, ∀ b ∈ [nul, lf], b ∉ ascii p.2 := by decide +kernel
  unfold cttypeGetContentTypeByFileExt
  dsimp only
  split
  · rename_i p hp
    exact htable p (List.mem_of_find?_eq_some hp)
  · decide +kernel

theorem mem_of_mem_lastName {b : Byte} {before name : Bytes}
    (h : splitAtLastByte slash q = some (before, name)) (hb : b ∈ name) : b ∈ q := by
  unfold splitAtLastByte at h
  obtain ⟨⟨tail, rest⟩, hsplit, heq⟩ := Option.map_eq_some_iff.mp h
  injection heq with _ hname
  subst hname
  obtain ⟨-, hq⟩ := splitAtByte_eq hsplit
  rw [← List.mem_reverse, hq]
  exact List.mem_append_left _ (List.mem_reverse.mp hb)

/-- A path that ends with a slash names no file. -/
theorem lastName_nil (hq : q.getLast? = some slash) {before name : Bytes}
    (h : splitAtLastByte slash q = some (before, name)) : name = [] := by
  obtain ⟨dir, rfl⟩ : ∃ dir, q = dir ++ [slash] := List.getLast?_eq_some_iff.mp hq
  have hsplit : splitAtLastByte slash (dir ++ [slash]) = some (dir, []) := by
    rw [splitAtLastByte, List.reverse_concat, splitAtByte, if_pos rfl, Option.map_some,
      List.reverse_reverse]
    rfl
  rw [hsplit] at h
  injection h with h
  injection h with _ h
  exact h.symm

theorem not_mem_disposition {b : Byte} (hb : b = nul ∨ b = lf) {name : Bytes} (h : b ∉ name) :
    b ∉ disposition name := by
  have hbefore : nul ∉ ascii "inline; filename=\"" ∧ lf ∉ ascii "inline; filename=\"" := by decide
  have hbehind : nul ∉ ascii "\"" ∧ lf ∉ ascii "\"" := by decide
  intro hm
  rcases List.mem_append.mp hm with hm | hm
  · rcases List.mem_append.mp hm with hm | hm
    · rcases hb with rfl | rfl
      · exact hbefore.1 hm
      · exact hbefore.2 hm
    · exact h hm
  · rcases hb with rfl | rfl
    · exact hbehind.1 hm
    · exact hbehind.2 hm

theorem disposition_ok {name : Bytes} (hname : nul ∉ name) {mb : MemBuf}
    (h : mbAppendStrL mbNew [ascii "inline; filename=\"", name, ascii "\""] = .ok mb) :
    mb.data = disposition name := by
  have hbefore : cstr (ascii "inline; filename=\"") = ascii "inline; filename=\"" := by decide
  have hbehind : cstr (ascii "\"") = ascii "\"" := by decide
  have htext := mbAppendStrL_ok h
  simp only [List.map_cons, List.map_nil, List.flatten_cons, List.flatten_nil, List.append_nil,
    hbefore, hbehind, cstr_eq_self hname, mbNew, List.nil_append] at htext
  rw [htext, disposition, List.append_assoc]

theorem processFileReq_built (cfg : Config) (hq : nul ∉ q)
    (hsafe : safe → lf ∉ q ∨ q.getLast? = some slash) (sysPath : Path) (onlyHead : Bool) :
    Yields (S := sys) (Built q safe) (processFileReq cfg q sysPath onlyHead) := by
  have hct : nul ∉ ascii "Content-Type" := by decide
  have htype := contentType_clean sysPath
  have hvalue := cstr_eq_self (htype nul (by decide))
  refine Yields.seq fun r => ?_
  cases r with
  | error e => exact printErrorPage_built _ _ _ _ _
  | ok fd =>
  refine yields_lift (respNew_page (nul_not_mem_respCmnStatus .ok200) onlyHead) fun resp h => ?_
  refine yields_lift (respAppendHeader_page h hct _) fun resp h => ?_
  rw [hvalue] at h
  refine .ite (fun _ => Yields.seq fun _ => .pure ?_) fun _ => ?_
  · refine ⟨_, _, _, _, .fileHead sysPath, h, fun _ f hf => ?_⟩
    rw [List.mem_singleton.mp hf]
    exact htype lf (by decide)
  · split
    · exact .fault
    · rename_i before name hname
      have hnul : nul ∉ name := fun hm => hq (mem_of_mem_lastName hname hm)
      have hlf : safe → lf ∉ name := by
        intro hs hm
        rcases hsafe hs with hlf | hslash
        · exact hlf (mem_of_mem_lastName hname hm)
        · rw [lastName_nil hslash hname] at hm
          cases hm
      refine yields_lift ((mbAppendStrL_sound _ _).also fun mb h => disposition_ok hnul h)
        fun mb hmb => ?_
      refine yields_lift (respAppendHeader_page h (by decide) _) fun resp h => ?_
      rw [hmb, cstr_eq_self (not_mem_disposition (.inl rfl) hnul)] at h
      refine Yields.seq fun _ => .pure ?_
      refine ⟨_, _, some fd, _, .file sysPath hname, ⟨h.head, rfl, h.body⟩, fun hs f hf => ?_⟩
      simp only [List.mem_cons, List.not_mem_nil, or_false] at hf
      rcases hf with rfl | rfl
      · exact htype lf (by decide)
      · exact not_mem_disposition (.inr rfl) (hlf hs)

end Builders

section Choosing

/-- Where no line feed of a path comes to a header line: there is none, or the path ends with a
slash, or it is refused, or no share has it. -/
def LineSafe (cfg : Config) (q : Bytes) : Prop :=
  lf ∉ q ∨ q.getLast? = some slash ∨ hasDotDot q = true ∨ configGetSysPathForUrlPath cfg q = none

/-- A configuration without a line feed in its shares, and a path that is safe in it. -/
def SafeFor (cfg : Config) (q : Bytes) : Prop :=
  (∀ s ∈ cfg.shares, lf ∉ s.urlpath) ∧ LineSafe cfg q

variable {cfg : Config} {q : Bytes} {safe : Prop}

/-- A folder of shares is for a path that their URL paths start with. -/
theorem configGetSubSharesForPath_lf (hshares : ∀ s ∈ cfg.shares, lf ∉ s.urlpath) :
    Yields (S := sys) (fun folder => folder.isSome = true → lf ∉ q)
      (configGetSubSharesForPath cfg q) := by
  have htrim : lf ∉ dchTrimTrailing q slash → lf ∉ q := by
    intro h hm
    exact h (mem_dchTrimTrailing (by decide) hm)
  have hstep : ∀ (s : Share) (folder : Option Folder), lf ∉ s.urlpath →
      (folder.isSome = true → lf ∉ q) → Yields (S := sys) (fun folder => folder.isSome = true →
        lf ∉ q) (subShare (dchTrimTrailing q slash) folder s) := by
    intro s folder hs hfolder
    unfold subShare
    refine .ite (fun _ => .pure hfolder) fun hcovers => ?_
    have hbegin : dchTrimTrailing q slash <+: s.urlpath := by
      rw [← List.isPrefixOf_iff_prefix]
      simp only [Bool.or_eq_true, not_or, Bool.not_eq_true', Bool.not_eq_false] at hcovers
      exact hcovers.1
    have hq : lf ∉ q := htrim fun hm => hs (hbegin.subset hm)
    exact (Yields.any _).mono fun _ _ _ => hq
  have hloop : ∀ (shares : List Share) (folder : Option Folder),
      (∀ s ∈ shares, lf ∉ s.urlpath) → (folder.isSome = true → lf ∉ q) →
      Yields (S := sys) (fun folder => folder.isSome = true → lf ∉ q)
        (shares.foldlM (subShare (dchTrimTrailing q slash)) folder) := by
    intro shares
    induction shares with
    | nil => exact fun folder _ hfolder => .pure hfolder
    | cons s shares ih =>
      intro folder hs hfolder
      refine (hstep s folder (hs s List.mem_cons_self) hfolder).bind fun folder hfolder => ?_
      exact ih folder (fun s hm => hs s (List.mem_cons_of_mem _ hm)) hfolder
  refine .ite (fun _ => .pure nofun) fun _ => ?_
  refine (hloop cfg.shares none hshares nofun).bind fun folder hfolder => .pure ?_
  rw [Option.isSome_map]
  exact hfolder

/-- A path that no share has is no directory and no file. -/
theorem lookupTarget_lf (hsafe : safe → SafeFor cfg q) :
    Yields (S := sys) (fun t => safe → configGetSysPathForUrlPath cfg q = none →
        t.sysPath = none ∧ (t.isFolder = true → lf ∉ q)) (lookupTarget cfg q) := by
  by_cases hs : safe
  swap
  · exact (Yields.any _).mono fun _ _ h => absurd h hs
  suffices h : Yields (S := sys) (fun t => configGetSysPathForUrlPath cfg q = none →
      t.sysPath = none ∧ (t.isFolder = true → lf ∉ q)) (lookupTarget cfg q) from
    h.mono fun _ ht _ => ht
  obtain ⟨hshares, -⟩ := hsafe hs
  unfold lookupTarget
  split
  · refine (configGetSubSharesForPath_lf hshares).bind fun folder hfolder => ?_
    cases folder with
    | none => exact .pure fun _ => ⟨rfl, fun hf => by cases hf⟩
    | some folder => exact .pure fun _ => ⟨rfl, fun _ => hfolder rfl⟩
  · rename_i sysPath hpath
    refine (Yields.any _).mono fun _ _ hnone => ?_
    rw [hpath] at hnone
    cases hnone

theorem chooseIndexFile_sysPath (fuel : Nat) (t : Target) :
    Yields (S := sys) (fun t' => t.sysPath = none → t'.sysPath = none)
      (chooseIndexFile fuel cfg t) := by
  unfold chooseIndexFile
  split
  · rename_i hpath
    refine (Yields.any _).mono fun _ _ hnone => ?_
    rw [hpath] at hnone
    cases hnone
  · exact .pure fun h => h

/-- What a request comes to: a response that was built for its path, or none yet. -/
def Answered (q : Bytes) (safe : Prop) (r : RequestHandler × Option RespBuf) : Prop :=
  r.1.response = none ∧ ∀ resp, r.2 = some resp → Built q safe resp

theorem serveTarget_built (fuel : Nat) {hdlr : RequestHandler} (hnone : hdlr.response = none)
    (rhdr : RequestHeader) {t : Target} (hq : nul ∉ q) (isHeadReq : Bool)
    (hsafe : t.sysPath ≠ none → safe → lf ∉ q ∨ q.getLast? = some slash) :
    Yields (S := sys) (Answered q safe) (serveTarget fuel cfg hdlr rhdr t q isHeadReq) := by
  have hready : ∀ resp, Built q safe resp → Answered q safe (hdlr, some resp) :=
    fun resp h => ⟨hnone, fun _ he => Option.some.inj he ▸ h⟩
  unfold serveTarget
  split
  · exact (printErrorPage_built _ _ _ _ _).bind fun resp h => .pure (hready resp h)
  · refine .ite (fun _ => Yields.seq fun _ => .pure ⟨hnone, nofun⟩) fun _ => ?_
    split
    · exact .fault
    · rename_i sysPath hpath
      refine .ite (fun _ => Yields.seq fun _ => .pure ⟨hnone, nofun⟩) fun _ => ?_
      have hfile := hsafe (by rw [hpath]; exact nofun)
      exact (processFileReq_built cfg hq hfile sysPath isHeadReq).bind fun resp h =>
        .pure (hready resp h)

theorem lacksSlash_folder (t : Target) (q : Bytes) :
    Sound (fun _ => True) (fun lacks => lacks = true → t.isFolder = true ∧
      q.getLast? ≠ some slash) (lacksSlash t q) := by
  unfold lacksSlash
  split
  · rename_i hfolder
    cases q.getLast? with
    | none => trivial
    | some b =>
      intro hne
      refine ⟨hfolder.2, fun he => ?_⟩
      rw [Option.some.inj he] at hne
      exact absurd hne (by decide)
  · exact nofun

theorem doProcessRequest_built (hsafe : safe → SafeFor cfg q) (fuel : Nat)
    {hdlr : RequestHandler} (hnone : hdlr.response = none) {rhdr : RequestHeader}
    (hpath : reqhdrGetPath rhdr = q) (hq : nul ∉ q) :
    Yields (S := sys) (Answered q safe) (doProcessRequest fuel cfg hdlr rhdr) := by
  have hpage : ∀ {p : Prog RespBuf}, Yields (S := sys) (Built q safe) p →
      Yields (S := sys) (Answered q safe) (p >>= fun resp => pure (hdlr, some resp)) :=
    fun hp => hp.bind fun resp h => .pure ⟨hnone, fun _ he => Option.some.inj he ▸ h⟩
  unfold doProcessRequest
  dsimp only
  rw [hpath]
  refine .ite (fun _ => Yields.seq fun _ => hpage (printUnauthorized_built _ _)) fun _ => ?_
  refine .ite (fun _ => hpage (printUnauthorized_built _ _)) fun _ => ?_
  refine .ite (fun _ => hpage (printMesgPage_built _ _ _ _ _)) fun hdots => ?_
  refine (lookupTarget_lf hsafe).bind fun t ht => ?_
  refine .bind (Q := fun lacks => lacks = true → t.isFolder = true ∧ q.getLast? ≠ some slash)
    (.lift (lacksSlash_folder t q)) fun lacks hlacks => .ite (fun hmoved => hpage ?_) fun _ => ?_
  · obtain ⟨hfolder, hlast⟩ := hlacks hmoved
    refine printMovedAddSlash_built hq (fun hs => ?_) _
    rcases (hsafe hs).2 with hlf | hslash | hdot | hnone
    · exact hlf
    · exact absurd hslash hlast
    · exact absurd hdot hdots
    · exact (ht hs hnone).2 hfolder
  · refine (chooseIndexFile_sysPath fuel t).bind fun t' ht' => ?_
    refine serveTarget_built fuel hnone rhdr hq _ fun hsys hs => ?_
    rcases (hsafe hs).2 with hlf | hslash | hdot | hnone
    · exact .inl hlf
    · exact .inr hslash
    · exact absurd hdot hdots
    · exact absurd (ht' (ht hs hnone).1) hsys

end Choosing

section Sending

def serverField : Bytes × Bytes := (ascii "Server", ascii "filemanager-httpd")

/-- A new sender whose header block is what was appended for the path of a request, and is
read back so. -/
def WholeBlock (q : Bytes) (r : ResponseSender) : Prop :=
  ∃ status fields more, BuiltFor q status fields ∧
    r.header = some ⟨headText status (fields ++ serverField :: framing r) ++ (crlf ++ more)⟩ ∧
    headerLines (headText status (fields ++ serverField :: framing r) ++ (crlf ++ more)) =
      statusLine status :: (fields ++ serverField :: framing r).map fieldText

/-- The names of the header lines that the server makes itself. -/
def ownNames : List Bytes :=
  ["Location", "Content-Type", "WWW-Authenticate", "Content-Disposition", "Allow", "Server"].map
    ascii

theorem builtFor_ownNames {q status : Bytes} {fields : List (Bytes × Bytes)}
    (h : BuiltFor q status fields) : ∀ name ∈ fields.map Prod.fst, name ∈ ownNames := by
  have hpage : ∀ name ∈ [ascii "Content-Type"], name ∈ ownNames := by decide
  cases h with
  | moved =>
    exact (by decide : ∀ name ∈ [ascii "Location", ascii "Content-Type"], name ∈ ownNames)
  | page status => exact hpage
  | unauthorized nonce =>
    exact (by decide : ∀ name ∈ [ascii "Content-Type", ascii "WWW-Authenticate",
      ascii "Content-Type"], name ∈ ownNames)
  | fileHead sysPath => exact hpage
  | file sysPath hname =>
    exact (by decide : ∀ name ∈ [ascii "Content-Type", ascii "Content-Disposition"],
      name ∈ ownNames)
  | notAllowed => exact (by decide : ∀ name ∈ [ascii "Allow"], name ∈ ownNames)

theorem builtFor_names {q status : Bytes} {fields : List (Bytes × Bytes)}
    (h : BuiltFor q status fields) : lf ∉ status ∧ ∀ f ∈ fields, lf ∉ f.1 := by
  have hnames : ∀ name ∈ ownNames, lf ∉ name := by decide
  have hstatus : ∀ s, lf ∉ respCmnStatus s := by intro s; cases s <;> decide
  refine ⟨?_, fun f hf => hnames _ (builtFor_ownNames h _ (List.mem_map_of_mem hf))⟩
  cases h with
  | page status => exact hstatus status
  | fileHead sysPath => exact hstatus .ok200
  | file sysPath hname => exact hstatus .ok200
  | _ => decide

theorem framing_clean (r : ResponseSender) : ∀ f ∈ framing r, lf ∉ f.1 ∧ lf ∉ f.2 := by
  have hname : lf ∉ ascii "Content-Length" := by decide
  intro f hf
  unfold framing at hf
  split at hf
  · cases hf
  · rw [List.mem_singleton.mp hf, lengthField]
    split
    · exact ⟨hname, lf_not_mem_digits (by decide) (by decide) _⟩
    · exact ⟨by decide, by decide⟩

theorem respFinish_text {status : Bytes} {fields : List (Bytes × Bytes)} {fd : Option Fd}
    {hasBody : Bool} {resp : RespBuf} (h : Page status fields fd hasBody resp) :
    Yields (S := sys) (fun r => r.body.isSome = hasBody ∧ ∃ more, r.header =
        some ⟨headText status (fields ++ serverField :: framing r) ++ (crlf ++ more)⟩)
      (respFinish resp) := by
  have hserver : nul ∉ ascii "Server" := by decide
  refine yields_lift (respAppendHeader_page h hserver _) fun resp h => ?_
  have hvalue : cstr (ascii "filemanager-httpd") = ascii "filemanager-httpd" := by decide +kernel
  rw [hvalue] at h
  refine (rsndrNew_text _ _ _).mono ?_
  rintro r ⟨hbody, more, hheader⟩
  refine ⟨hbody.trans h.body, more, ?_⟩
  rw [hheader, h.head, ← headText_append, List.append_assoc]
  rfl

/-- A response without a line feed in its header lines is sent with a whole block. -/
theorem respFinish_whole {q : Bytes} {safe : Prop} (hsafe : safe) {resp : RespBuf}
    (h : Built q safe resp) : Yields (S := sys) (WholeBlock q) (respFinish resp) := by
  obtain ⟨status, fields, fd, hasBody, hbuilt, hpage, hclean⟩ := h
  refine (respFinish_text hpage).mono ?_
  rintro r ⟨-, more, hheader⟩
  refine ⟨status, fields, more, hbuilt, hheader, ?_⟩
  obtain ⟨hstatus, hnames⟩ := builtFor_names hbuilt
  apply headerLines_headText hstatus
  intro f hf
  rcases List.mem_append.mp hf with hf | hf
  · exact ⟨hnames f hf, hclean hsafe f hf⟩
  · rcases List.mem_cons.mp hf with rfl | hf
    · exact ⟨by decide, by decide⟩
    · exact framing_clean r f hf

variable {cfg : Config} {q : Bytes} {safe : Prop} {P : ResponseSender → Prop} {rhdr : RequestHeader}

/-- The response that is made when the header of a request is complete. -/
theorem reqhdlrNew_finishes (hsafe : safe → SafeFor cfg q)
    (hfinish : ∀ resp, Built q safe resp → Yields (S := sys) P (respFinish resp))
    (hpath : reqhdrGetPath rhdr = q) (hq : nul ∉ q) (fuel : Nat) (peerAddr : Option Bytes) :
    Yields (S := sys) (fun hdlr => ∀ r, hdlr.response = some r → P r)
      (reqhdlrNew fuel cfg rhdr peerAddr) := by
  have hready : ∀ {hdlr : RequestHandler} {resp : Option RespBuf},
      Answered q safe (hdlr, resp) → Yields (S := sys) (fun hdlr => ∀ r, hdlr.response = some r →
        P r) (finishIfReady resp >>= fun response => pure { hdlr with response }) := by
    intro hdlr resp h
    refine Yields.bind (Q := fun response => ∀ r, response = some r → P r) ?_
      fun response h => .pure h
    cases resp with
    | none => exact .pure nofun
    | some resp =>
      refine (hfinish resp (h.2 resp rfl)).bind fun r hr => .pure fun r' he => ?_
      rw [← Option.some.inj he]
      exact hr
  have hstatus : nul ∉ ascii "405 Method Not Allowed" := by decide
  have hallow : nul ∉ ascii "Allow" := by decide
  unfold reqhdlrNew
  refine .ite (fun _ => ?_) fun _ => ?_
  · refine yields_lift (respNew_page hstatus _) fun resp h => ?_
    refine yields_lift (respAppendHeader_page h hallow _) fun resp h => hready ⟨rfl, ?_⟩
    intro resp' he
    rw [← Option.some.inj he]
    have hvalue : cstr (ascii "GET, HEAD, POST") = ascii "GET, HEAD, POST" := by decide +kernel
    rw [hvalue] at h
    refine ⟨_, _, _, _, .notAllowed, h, fun _ f hf => ?_⟩
    rw [List.mem_singleton.mp hf]
    decide
  · exact (doProcessRequest_built hsafe fuel rfl hpath hq).bind fun r h => hready h

theorem processFolderReq_built (fuel : Nat) (filemgr : FileManager) (safe : Prop) :
    Yields (S := sys) (fun r => Built q safe r.2) (processFolderReq fuel cfg rhdr filemgr) := by
  have hpage : ∀ {p : Prog RespBuf} {filemgr : FileManager}, Yields (S := sys) (Built q safe) p →
      Yields (S := sys) (fun r => Built q safe r.2) (p >>= fun resp => pure (filemgr, resp)) :=
    fun hp => hp.bind fun _ h => .pure h
  unfold processFolderReq
  refine Yields.seq fun posted => ?_
  refine .ite (fun _ => hpage (printUnauthorized_built _ _)) fun _ => ?_
  refine .ite (fun _ => ?_) fun _ => hpage (printErrorPage_built _ _ _ _ _)
  refine .bind (Q := fun r => ∀ resp, r = .ok resp → Built q safe resp) ?_ fun r hr => ?_
  · refine Yields.seq fun _ => Yields.seq fun isModifiable => Yields.seq fun folder => ?_
    cases folder with
    | error e => exact .pure nofun
    | ok folder =>
      refine (yields_of_plain (printFolderContents_page _ _ _ _ _ _ _)).bind fun resp h =>
        .pure fun resp' he => ?_
      rw [← Except.ok.inj he]
      exact built_page h
  · cases r with
    | ok resp => exact .pure (hr resp rfl)
    | error e => exact hpage (printErrorPage_built _ _ _ _ _)

/-- The response that is made when the whole request has been read. -/
theorem reqhdlrRequestReadCompleted_finishes
    (hfinish : ∀ resp, Built q safe resp → Yields (S := sys) P (respFinish resp)) (fuel : Nat)
    {hdlr : RequestHandler} (hnone : hdlr.response = none) :
    Yields (S := sys) (fun hdlr => ∀ r, hdlr.response = some r → P r)
      (reqhdlrRequestReadCompleted fuel cfg hdlr rhdr) := by
  unfold reqhdlrRequestReadCompleted
  split
  · refine Yields.seq fun _ => .pure fun r he => ?_
    rw [show hdlr.response = some r from he] at hnone
    cases hnone
  · rename_i hresp
    rw [hresp] at hnone
    cases hnone
  · have hlate : Yields (S := sys) (fun r => Built q safe r.2)
        (lateResponse fuel cfg hdlr.filemgr rhdr) := by
      unfold lateResponse
      split
      · exact (processFolderReq_built fuel _ safe).bind fun r hr => .pure hr
      · exact (printMesgPage_built .internal500 _ _ _ _).bind fun _ hr => .pure hr
    refine hlate.bind fun r hr => (hfinish _ hr).bind fun rsndr hrs => .pure ?_
    intro r' he
    rw [← Option.some.inj he]
    exact hrs

end Sending

section Splitting

/-- The sender of a redirection to a HEAD request. -/
def movedSender (q : Bytes) : ResponseSender :=
  ⟨some ⟨headText (ascii "301 Moved Permanently")
    [(ascii "Location", q ++ [slash]), pageType, serverField] ++ crlf⟩, none, none, 0, 0, 0⟩

/-- The response that it sends. -/
def movedResp (q : Bytes) : RespBuf :=
  ⟨⟨headText (ascii "301 Moved Permanently") [(ascii "Location", q ++ [slash]), pageType]⟩,
    none, none⟩

theorem respAppendHeader_small {status : Bytes} {fields : List (Bytes × Bytes)} {name value : Bytes}
    (hname : nul ∉ name) (hvalue : nul ∉ value)
    (hlen : (headText status fields).length + (fieldLine (name, value)).length + 1 < uintSize) :
    respAppendHeader ⟨⟨headText status fields⟩, none, none⟩ name value =
      .ok ⟨⟨headText status (fields ++ [(name, value)])⟩, none, none⟩ := by
  have hcolon : cstr (ascii ": ") = ascii ": " := by decide
  have hcrlf : cstr crlf = crlf := by decide
  have htext : ([name, ascii ": ", value, crlf].map cstr).flatten = fieldLine (name, value) := by
    simp only [List.map_cons, List.map_nil, List.flatten_cons, List.flatten_nil, List.append_nil,
      hcolon, hcrlf, cstr_eq_self hname, cstr_eq_self hvalue, fieldLine, List.append_assoc]
  have happend : mbAppendStrL ⟨headText status fields⟩ [name, ascii ": ", value, crlf] =
      .ok ⟨headText status fields ++ fieldLine (name, value)⟩ := by
    rw [← htext] at hlen ⊢
    exact mbAppendStrL_small hlen
  rw [respAppendHeader, happend, headText_append, List.flatMap_singleton]
  rfl

theorem lift_ok_bind {α β : Type} {e : Except Fault α} {a : α} (h : e = .ok a) (k : α → Prog β) :
    ((liftM e : Prog α) >>= k) = k a := by
  rw [h]
  rfl

section Sizes

variable {q : Bytes}

theorem length_headText_append (fields : List (Bytes × Bytes)) (field : Bytes × Bytes) :
    (headText (ascii "301 Moved Permanently") (fields ++ [field])).length =
      (headText (ascii "301 Moved Permanently") fields).length + (fieldLine field).length := by
  rw [headText_append, List.flatMap_singleton, List.length_append]

theorem length_location :
    (headText (ascii "301 Moved Permanently") [(ascii "Location", q ++ [slash])]).length =
      q.length + 45 := by
  have hstart : (headText (ascii "301 Moved Permanently") []).length = 32 := by decide +kernel
  have hname : (ascii "Location" ++ ascii ": ").length = 10 := by decide
  have hone := length_headText_append [] (ascii "Location", q ++ [slash])
  rw [List.nil_append, hstart, fieldLine, List.length_append, List.length_append, hname,
    List.length_append] at hone
  simp only [crlf, List.length_cons, List.length_nil] at hone
  omega

theorem length_movedResp : (movedResp q).header.data.length = q.length + 85 := by
  have htype : (fieldLine pageType).length = 40 := by decide +kernel
  have hone := length_headText_append [(ascii "Location", q ++ [slash])] pageType
  rw [length_location, htype] at hone
  exact hone

theorem printMovedAddSlash_small (hq : nul ∉ q) (hlen : q.length < 2 ^ 31) :
    printMovedAddSlash q true = .done (movedResp q) := by
  have hslash : nul ∉ q ++ [slash] := by
    intro hm
    rcases List.mem_append.mp hm with hm | hm
    · exact hq hm
    · exact absurd hm (by decide)
  have hnew : respNew (ascii "301 Moved Permanently") true =
      .ok ⟨⟨headText (ascii "301 Moved Permanently") []⟩, none, none⟩ := by decide +kernel
  have h₁ : respAppendHeader ⟨⟨headText (ascii "301 Moved Permanently") []⟩, none, none⟩
      (ascii "Location") (q ++ [slash]) = .ok ⟨⟨headText (ascii "301 Moved Permanently")
        [(ascii "Location", q ++ [slash])]⟩, none, none⟩ := by
    refine respAppendHeader_small (by decide) hslash ?_
    rw [← length_headText_append, List.nil_append, length_location]
    unfold uintSize
    omega
  have h₂ : respAppendHeader ⟨⟨headText (ascii "301 Moved Permanently")
      [(ascii "Location", q ++ [slash])]⟩, none, none⟩ (ascii "Content-Type") htmlType =
        .ok (movedResp q) := by
    refine respAppendHeader_small (by decide) (by decide) ?_
    have hall : (headText (ascii "301 Moved Permanently")
        ([(ascii "Location", q ++ [slash])] ++ [pageType])).length = q.length + 85 :=
      length_movedResp
    rw [← length_headText_append, show (ascii "Content-Type", htmlType) = pageType from rfl, hall]
    unfold uintSize
    omega
  unfold printMovedAddSlash
  rw [lift_ok_bind hnew, lift_ok_bind h₁, lift_ok_bind h₂]
  rfl

theorem respFinish_small (hlen : q.length < 2 ^ 31) :
    respFinish (movedResp q) = .done (movedSender q) := by
  have hsize : (headText (ascii "301 Moved Permanently")
      [(ascii "Location", q ++ [slash]), pageType, serverField]).length = q.length + 112 := by
    have hserver : (fieldLine serverField).length = 27 := by decide +kernel
    have hone := length_headText_append [(ascii "Location", q ++ [slash]), pageType] serverField
    rw [hserver, show (headText _ [(ascii "Location", q ++ [slash]), pageType]).length = _ from
      length_movedResp] at hone
    exact hone
  have h₃ : respAppendHeader (movedResp q) (ascii "Server") (ascii "filemanager-httpd") =
      .ok ⟨⟨headText (ascii "301 Moved Permanently")
        [(ascii "Location", q ++ [slash]), pageType, serverField]⟩, none, none⟩ := by
    refine respAppendHeader_small (by decide) (by decide +kernel) ?_
    rw [← length_headText_append]
    show (headText _ [(ascii "Location", q ++ [slash]), pageType, serverField]).length + 1 < _
    rw [hsize]
    unfold uintSize
    omega
  have hend : mbAppendStr ⟨headText (ascii "301 Moved Permanently")
      [(ascii "Location", q ++ [slash]), pageType, serverField]⟩ crlf =
        .ok ⟨headText (ascii "301 Moved Permanently")
          [(ascii "Location", q ++ [slash]), pageType, serverField] ++ crlf⟩ := by
    refine if_pos ?_
    have hcrlf : (cstr crlf).length = 2 := by decide
    show (headText _ _).length + (cstr crlf).length + 1 < uintSize
    rw [hcrlf, hsize]
    unfold uintSize
    omega
  unfold respFinish rsndrNew
  rw [lift_ok_bind h₃]
  show ((liftM (mbAppendStr _ crlf) : Prog MemBuf) >>= _) = _
  rw [lift_ok_bind hend]
  rfl

end Sizes

/-- A user that is logged in asks for the header of a path. -/
def headRequest (q : Bytes) : RequestHeader :=
  { reqhdrNew with request := ascii "HEAD", path := some q, loginState := .loggedIn }

/-- The answer of `stat` for a directory. -/
def aDirectory : FileStat := ⟨true, false, 0o755, 0⟩

theorem length_of_sysPath {cfg : Config} {q sysPath : Bytes}
    (hsys : configGetSysPathForUrlPath cfg q = some sysPath) : q.length < 2 ^ 31 := by
  by_contra hlong
  have hroot : q ≠ [slash] := by
    rintro rfl
    exact hlong (by decide)
  unfold configGetSysPathForUrlPath at hsys
  rw [if_neg hroot] at hsys
  dsimp only at hsys
  rw [if_pos (by omega)] at hsys
  cases hsys

variable {cfg : Config} {q sysPath : Bytes}

theorem lacksSlash_dir (hne : q ≠ []) (hlast : q.getLast? ≠ some slash) :
    lacksSlash ⟨some sysPath, true, false, false, none, none, none⟩ q = .ok true := by
  obtain ⟨b, hb⟩ : ∃ b, q.getLast? = some b := by
    cases h : q.getLast? with
    | none => exact absurd (List.getLast?_eq_none_iff.mp h) hne
    | some b => exact ⟨b, rfl⟩
  have hslash : b ≠ slash := fun he => hlast (by rw [hb, he])
  rw [lacksSlash, if_pos ⟨rfl, rfl⟩, hb]
  simpa using hslash

/-- A directory that is asked for without a slash behind it. -/
theorem doProcessRequest_moved (fuel : Nat) (hq : nul ∉ q) (hne : q ≠ [])
    (hlast : q.getLast? ≠ some slash) (hdots : ¬ hasDotDot q = true)
    (hsys : configGetSysPathForUrlPath cfg q = some sysPath) (hdlr : RequestHandler) :
    Runs posix (doProcessRequest fuel cfg hdlr (headRequest q)) []
      (.done (hdlr, some (movedResp q)))
      [⟨.stat sysPath, (.ok aDirectory : Except Errno FileStat)⟩] := by
  have hlookup : Runs posix (lookupTarget cfg q) []
      (.done ⟨some sysPath, true, false, false, none, none, none⟩)
      [⟨.stat sysPath, (.ok aDirectory : Except Errno FileStat)⟩] := by
    unfold lookupTarget
    rw [hsys]
    exact .step (r := (Except.ok aDirectory : Except Errno FileStat)) ⟨trivial, rfl⟩ (.refl _ _)
  have hallowed : reqhdrIsActionAllowed cfg (headRequest q) .servePage = true := by
    unfold reqhdrIsActionAllowed configIsActionAllowed
    rfl
  have hmoved := printMovedAddSlash_small hq (length_of_sysPath hsys)
  have hlogin : ¬ reqhdrGetLoginState (headRequest q) = .loginFail := by
    show ¬ LoginState.loggedIn = .loginFail
    decide
  have hhead : (reqhdrGetMethod (headRequest q) == ascii "HEAD") = true := by
    show (ascii "HEAD" == ascii "HEAD") = true
    decide
  unfold doProcessRequest
  dsimp only
  rw [hhead, show reqhdrGetPath (headRequest q) = q from rfl, if_neg hlogin, hallowed,
    if_neg (by decide), if_neg hdots]
  refine (hlookup.bind _).trans ?_
  rw [Program.done_bind, lift_ok_bind (lacksSlash_dir hne hlast), if_pos rfl, hmoved]
  exact .refl _ _

/-- So the redirection is what is sent. -/
theorem reqhdlrNew_moved (fuel : Nat) (hq : nul ∉ q)
    (hne : q ≠ []) (hlast : q.getLast? ≠ some slash) (hdots : ¬ hasDotDot q = true)
    (hsys : configGetSysPathForUrlPath cfg q = some sysPath) :
    Runs posix (reqhdlrNew fuel cfg (headRequest q) none) []
      (.done ⟨none, none, none, some (movedSender q)⟩)
      [⟨.stat sysPath, (.ok aDirectory : Except Errno FileStat)⟩] := by
  have hmethod : ¬ (ascii "HEAD" ≠ ascii "GET" ∧ ascii "HEAD" ≠ ascii "POST" ∧
      (! (ascii "HEAD" == ascii "HEAD")) = true) := by decide
  unfold reqhdlrNew
  dsimp only
  rw [show reqhdrGetMethod (headRequest q) = ascii "HEAD" from rfl, if_neg hmethod]
  refine ((doProcessRequest_moved fuel hq hne hlast hdots hsys _).bind _).trans ?_
  rw [Program.done_bind]
  dsimp only [finishIfReady]
  rw [respFinish_small (length_of_sysPath hsys)]
  exact .refl _ _

/-- A line feed in the address adds a line to the block. -/
theorem movedSender_split (hlf : lf ∈ q) : ¬ WholeBlock q (movedSender q) := by
  rintro ⟨status, fields, more, hbuilt, hheader, hlines⟩
  have hblock : headText status (fields ++ serverField :: framing (movedSender q)) ++
      (crlf ++ more) = headText (ascii "301 Moved Permanently")
        [(ascii "Location", q ++ [slash]), pageType, serverField] ++ crlf := by
    injection hheader with hheader
    injection hheader with hheader
    exact hheader.symm
  -- the first line that is read is the status line, and so tells which response this is
  have hstatus : status = ascii "301 Moved Permanently" := by
    have hfirst := hlines
    rw [hblock, headText_eq, List.flatMap_cons, List.append_assoc, List.append_assoc,
      headerLines_cons (by decide) (by decide)] at hfirst
    exact (List.append_cancel_left (List.cons.inj hfirst).1).symm
  have hlocation : (ascii "Location", q ++ [slash]) ∈ fields := by
    cases hbuilt with
    | moved => exact List.mem_cons_self
    | page s => exact absurd hstatus (by cases s <;> decide)
    | unauthorized nonce => exact absurd hstatus (by decide)
    | fileHead sysPath => exact absurd hstatus (by decide)
    | file sysPath hname => exact absurd hstatus (by decide)
    | notAllowed => exact absurd hstatus (by decide)
  have hread : fieldText (ascii "Location", q ++ [slash]) ∈ headerLines (headText status
      (fields ++ serverField :: framing (movedSender q)) ++ (crlf ++ more)) := by
    rw [hlines]
    exact List.mem_cons_of_mem _ (List.mem_map_of_mem (List.mem_append_left _ hlocation))
  apply lf_not_mem_headerLines hread
  exact List.mem_append_right _ (List.mem_append_left _ hlf)

end Splitting

section ConfigLines

/-- A line of a file, with its line feed or without. -/
def ReadLine (line : Bytes) : Prop := lf ∉ line.dropLast

theorem lf_not_mem_trimmed {line : Bytes} (h : ReadLine line) : lf ∉ dchTrimWS (cstr line) := by
  have htrim : ∀ s : Bytes, lf ∉ s.dropLast → lf ∉ trimTrailingWS s := by
    intro s hs hm
    rcases List.eq_nil_or_concat s with rfl | ⟨t, b, rfl⟩
    · cases hm
    · rw [List.concat_eq_append, List.dropLast_concat] at hs
      rw [trimTrailingWS, List.concat_eq_append, List.reverse_append, List.mem_reverse,
        List.reverse_singleton, List.singleton_append, List.dropWhile_cons] at hm
      split at hm
      · exact hs (List.mem_reverse.mp ((List.dropWhile_sublist _).mem hm))
      · rename_i hb
        rcases List.mem_cons.mp hm with rfl | hm
        · exact hb (by decide)
        · exact hs (List.mem_reverse.mp hm)
  have hbegin : ∀ {s t : Bytes}, s <+: t → lf ∉ t.dropLast → lf ∉ s.dropLast := by
    rintro s t ⟨u, rfl⟩ ht hm
    cases u with
    | nil => exact ht (by rwa [List.append_nil])
    | cons b u =>
      rw [List.dropLast_append_of_ne_nil (List.cons_ne_nil b u)] at ht
      exact ht (List.mem_append_left _ (List.mem_of_mem_dropLast hm))
  have hsuffix : ∀ {s t : Bytes}, s <:+ t → lf ∉ t.dropLast → lf ∉ s.dropLast := by
    rintro s t ⟨u, rfl⟩ ht hm
    have hne : s ≠ [] := by
      rintro rfl
      cases hm
    rw [List.dropLast_append_of_ne_nil hne] at ht
    exact ht (List.mem_append_right _ hm)
  exact htrim _ (hsuffix (List.dropWhile_suffix _) (hbegin (List.takeWhile_prefix _) h))

theorem mem_trimmed_of_mem_urlpath {line : Bytes} {s : Share} (h : shareOfLine line = some s)
    {b : Byte} (hb : b ∈ s.urlpath) : b ∈ dchTrimWS (cstr line) := by
  unfold shareOfLine at h
  simp only at h
  split at h
  · cases h
  split at h
  · cases h
  rename_i name value hcut
  split at h
  · obtain rfl := Option.some.inj h
    have hname := mem_of_mem_dchTrimTrailing hb
    unfold dchExtractTillChrStripWS dchExtractTillChr at hcut
    cases hs : splitAtByte equalsSign (dchTrimWS (cstr line)) with
    | none => rw [hs] at hcut; cases hcut
    | some p =>
      obtain ⟨before, rest⟩ := p
      rw [hs] at hcut
      obtain ⟨-, rfl, -⟩ : True ∧ trimTrailingWS before = name ∧ skipLeadingWS rest = value := by
        simpa using hcut
      rw [(splitAtByte_eq hs).2]
      refine List.mem_append_left _ ?_
      rw [trimTrailingWS, List.mem_reverse] at hname
      exact List.mem_reverse.mp ((List.dropWhile_sublist _).mem hname)
  · cases h

theorem configParseShares_lf (htmlDir : Bytes) {lines : List Bytes}
    (hlines : ∀ line ∈ lines, ReadLine line) :
    ∀ s ∈ configParseShares htmlDir lines, lf ∉ s.urlpath := by
  intro s hs
  unfold configParseShares at hs
  split at hs
  · rw [List.mem_singleton.mp hs]
    exact List.not_mem_nil
  · obtain ⟨line, hline, hshare⟩ := List.mem_filterMap.mp hs
    exact fun hm => lf_not_mem_trimmed (hlines line hline) (mem_trimmed_of_mem_urlpath hshare hm)

end ConfigLines

/-- Every response that is made for a path has a whole header block: at once, or when the request
has been read. -/
structure HeadersWhole (cfg : Config) (q : Bytes) : Prop where
  at_once : ∀ rhdr fuel peerAddr h hdlr h' r, reqhdrGetPath rhdr = q →
    Runs posix (reqhdlrNew fuel cfg rhdr peerAddr) h (.done hdlr) h' →
    hdlr.response = some r → WholeBlock q r
  later : ∀ rhdr fuel hdlr h hdlr' h' r, reqhdrGetPath rhdr = q → hdlr.response = none →
    Runs posix (reqhdlrRequestReadCompleted fuel cfg hdlr rhdr) h (.done hdlr') h' →
    hdlr'.response = some r → WholeBlock q r

theorem headersWhole_of_safe {cfg : Config} {q : Bytes}
    (hshares : ∀ s ∈ cfg.shares, lf ∉ s.urlpath) (hq : nul ∉ q) (hsafe : LineSafe cfg q) :
    HeadersWhole cfg q where
  at_once _ fuel peerAddr _ _ _ r hpath hrun hr :=
    (reqhdlrNew_finishes (fun _ => ⟨hshares, hsafe⟩) (fun _ => respFinish_whole hsafe) hpath hq
      fuel peerAddr).returns hrun r hr
  later _ fuel _ _ _ _ r _ hnone hrun hr :=
    (reqhdlrRequestReadCompleted_finishes (fun _ => respFinish_whole trivial) fuel
      hnone).returns hrun r hr

theorem safe_of_headersWhole {cfg : Config} {q : Bytes} (hq : nul ∉ q)
    (h : HeadersWhole cfg q) : LineSafe cfg q := by
  unfold LineSafe
  by_contra hnot
  simp only [not_or, not_not] at hnot
  obtain ⟨hlf, hlast, hdots, hsys⟩ := hnot
  obtain ⟨sysPath, hsys⟩ := Option.ne_none_iff_exists'.mp hsys
  have hne : q ≠ [] := List.ne_nil_of_mem hlf
  have hrun := reqhdlrNew_moved 0 hq hne hlast hdots hsys
  exact movedSender_split hlf (h.at_once _ _ _ _ _ _ _ rfl hrun rfl)

/-- The header blocks for a path are whole exactly when no line feed of it comes to a header
line. -/
theorem headers_whole_iff {cfg : Config} {htmlDir : Bytes} {lines : List Bytes}
    (hcfg : cfg.shares = configParseShares htmlDir lines)
    (hlines : ∀ line ∈ lines, ReadLine line) {q : Bytes} (hq : nul ∉ q) :
    HeadersWhole cfg q ↔ LineSafe cfg q := by
  have hshares : ∀ s ∈ cfg.shares, lf ∉ s.urlpath := by
    rw [hcfg]
    exact configParseShares_lf htmlDir hlines
  exact ⟨safe_of_headersWhole hq, headersWhole_of_safe hshares hq⟩

/-- A server with one share. -/
def shareConfig : Config := { bareConfig with shares := [⟨[], ascii "/srv"⟩] }

theorem headers_whole_iff_share :
    HeadersWhole shareConfig (ascii "/a b") ↔ LineSafe shareConfig (ascii "/a b") := by
  have hcfg : shareConfig.shares = configParseShares [] [ascii "/ = /srv\n"] := by decide +kernel
  have hlines : ∀ line ∈ [ascii "/ = /srv\n"], ReadLine line := by
    intro line hline
    rw [List.mem_singleton.mp hline]
    exact (by decide : lf ∉ (ascii "/ = /srv\n").dropLast)
  exact headers_whole_iff hcfg hlines (by decide)

/-- A directory whose name goes on behind a line feed: the redirection to it has a header line
of the name's choice. -/
theorem headers_whole_injected : ∃ hdlr h r,
    Runs posix (reqhdlrNew 0 shareConfig (headRequest (ascii "/a\nX-B: c")) none) []
      (.done hdlr) h ∧ hdlr.response = some r ∧ r.header.map (headerLines ·.data) =
        some ([ "HTTP/1.1 301 Moved Permanently", "Location: /a", "X-B: c/",
          "Content-Type: text/html; charset=utf-8", "Server: filemanager-httpd"].map ascii) ∧
      ¬ WholeBlock (ascii "/a\nX-B: c") r := by
  have hsys : configGetSysPathForUrlPath shareConfig (ascii "/a\nX-B: c") =
      some (ascii "/srv/a\nX-B: c") := by decide +kernel
  have hrun := reqhdlrNew_moved 0 (by decide) (by decide) (by decide) (by decide) hsys
  exact ⟨_, _, _, hrun, rfl, by decide +kernel, movedSender_split (by decide)⟩

end FilemanagerHttpd.Audit
