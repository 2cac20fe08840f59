import FilemanagerHttpd.Audit.Pages

/-!
# The text of a response

What a page is put together from stands in its body in that order: the literal bytes of a
format, an argument of `%S`, `%C` or `%D` with the entities of HTML in it, and one of `%R` as
it is. Unescaping such text gives back what was escaped. The header is the status line
and the lines that were appended.
-/

namespace FilemanagerHttpd.Audit

open Library Server

/-- Text with the entities of HTML in it. -/
def escapeHtml (data : Bytes) : Bytes := data.flatMap fun b => (htmlEntity b).getD [b]

/-- The five entities that the server writes. -/
def entities : List Bytes :=
  [ascii "&quot;", ascii "&apos;", ascii "&amp;", ascii "&lt;", ascii "&gt;"]

/-- Text with the five entities that the server writes taken for what they name. -/
def htmlUnescape : Bytes → Bytes
  | 38 :: 113 :: 117 :: 111 :: 116 :: 59 :: rest => 34 :: htmlUnescape rest  -- &quot;
  | 38 :: 97 :: 112 :: 111 :: 115 :: 59 :: rest => 39 :: htmlUnescape rest  -- &apos;
  | 38 :: 97 :: 109 :: 112 :: 59 :: rest => 38 :: htmlUnescape rest  -- &amp;
  | 38 :: 108 :: 116 :: 59 :: rest => 60 :: htmlUnescape rest  -- &lt;
  | 38 :: 103 :: 116 :: 59 :: rest => 62 :: htmlUnescape rest  -- &gt;
  | b :: rest => b :: htmlUnescape rest
  | [] => []

theorem htmlUnescape_cons {b : Byte} (h : b ≠ 38) (rest : Bytes) :
    htmlUnescape (b :: rest) = b :: htmlUnescape rest := by
  conv_lhs => unfold htmlUnescape
  split
  case h_6 heq => injection heq with hb hrest; rw [hb, hrest]
  case h_7 heq => cases heq
  all_goals exact absurd (List.cons.inj ‹_›).1 h

theorem escapeHtml_cons (b : Byte) (rest : Bytes) :
    escapeHtml (b :: rest) = (htmlEntity b).getD [b] ++ escapeHtml rest := List.flatMap_cons

theorem escapeHtml_append (s t : Bytes) : escapeHtml (s ++ t) = escapeHtml s ++ escapeHtml t :=
  List.flatMap_append

theorem htmlEntity_mem {b : Byte} {repl : Bytes} (h : htmlEntity b = some repl) :
    repl ∈ entities := by
  unfold htmlEntity at h
  repeat' split at h
  all_goals cases h <;> decide +kernel

theorem cstr_htmlEntity {b : Byte} {repl : Bytes} (h : htmlEntity b = some repl) :
    cstr repl = repl := by
  have hclean : ∀ e ∈ entities, cstr e = e := by decide +kernel
  exact hclean repl (htmlEntity_mem h)

/-- Escaping is undone exactly. -/
theorem htmlUnescape_escapeHtml (data : Bytes) : htmlUnescape (escapeHtml data) = data := by
  induction data with
  | nil => rfl
  | cons b rest ih =>
    rw [escapeHtml_cons]
    by_cases hquot : b = 34
    · subst hquot
      show 34 :: htmlUnescape (escapeHtml rest) = _
      rw [ih]
    by_cases hapos : b = 39
    · subst hapos
      show 39 :: htmlUnescape (escapeHtml rest) = _
      rw [ih]
    by_cases hamp : b = 38
    · subst hamp
      show 38 :: htmlUnescape (escapeHtml rest) = _
      rw [ih]
    by_cases hlt : b = 60
    · subst hlt
      show 60 :: htmlUnescape (escapeHtml rest) = _
      rw [ih]
    by_cases hgt : b = 62
    · subst hgt
      show 62 :: htmlUnescape (escapeHtml rest) = _
      rw [ih]
    · have hself : htmlEntity b = none := by simp [htmlEntity, hquot, hapos, hamp, hlt, hgt]
      rw [hself]
      show htmlUnescape (b :: escapeHtml rest) = _
      rw [htmlUnescape_cons hamp, ih]

/-- The bytes that may not stand for themselves do not stand in escaped text; the ampersand
does, where an entity begins. -/
theorem special_not_mem_escapeHtml (data : Bytes) :
    ∀ b ∈ [60, 62, quote, 39], b ∉ escapeHtml data := by
  have hself : ∀ b ∈ [60, 62, quote, 39], htmlEntity b ≠ none := by decide +kernel
  have hentity : ∀ repl ∈ entities, ∀ b ∈ [60, 62, quote, 39], b ∉ repl := by decide +kernel
  intro b hb hm
  obtain ⟨c, -, hc⟩ := List.mem_flatMap.mp hm
  cases hrepl : htmlEntity c with
  | none =>
    rw [hrepl] at hc
    rw [← List.mem_singleton.mp hc] at hrepl
    exact hself b hb hrepl
  | some repl =>
    rw [hrepl, Option.getD_some] at hc
    exact hentity repl (htmlEntity_mem hrepl) b hb hc

section Body

variable {resp : RespBuf} {b : Bytes}

/-- The body so far. -/
def HasBody (b : Bytes) (resp : RespBuf) : Prop := resp.body = some ⟨b⟩

theorem respAppendData_text (h : HasBody b resp) (data : Bytes) :
    Sound (pageFault · = true) (HasBody (b ++ data)) (respAppendData resp data) := by
  unfold respAppendData
  rw [show resp.body = some ⟨b⟩ from h]
  refine ((mbAppendData_sound _ data).also fun body' h' => mbAppendData_ok h').bind ?_
  intro body' hdata
  exact congrArg (fun d => some (MemBuf.mk d)) hdata

theorem respAppendStr_text (h : HasBody b resp) (str : Bytes) :
    Sound (pageFault · = true) (HasBody (b ++ cstr str)) (respAppendStr resp str) :=
  respAppendData_text h _

theorem flushRun_text (h : HasBody b resp) (run : Bytes) :
    Sound (pageFault · = true) (HasBody (b ++ run)) (flushRun resp run) := by
  unfold flushRun
  split
  · rename_i hrun
    rw [hrun, List.append_nil]
    exact h
  · exact respAppendData_text h run

theorem appendDataEscapeHtml_text (h : HasBody b resp) (data : Bytes) :
    Sound (pageFault · = true) (HasBody (b ++ escapeHtml data))
      (appendDataEscapeHtml resp data) := by
  have hloop : ∀ data b run resp, HasBody b resp →
      Sound (pageFault · = true) (HasBody (b ++ (run ++ escapeHtml data)))
        (escapeLoop resp run data) := by
    intro data
    induction data with
    | nil =>
      intro b run resp h
      rw [show escapeHtml [] = [] from rfl, List.append_nil]
      exact flushRun_text h run
    | cons c rest ih =>
      intro b run resp h
      unfold escapeLoop
      rw [escapeHtml_cons]
      split
      · rename_i repl hrepl
        refine (flushRun_text h run).bind fun _ h => (respAppendStr_text h _).bind fun _ h => ?_
        rw [hrepl, Option.getD_some]
        have hrest := ih _ [] _ h
        rw [cstr_htmlEntity hrepl, List.nil_append, List.append_assoc, List.append_assoc] at hrest
        exact hrest
      · rename_i hself
        rw [hself, Option.getD_none, ← List.append_assoc run]
        exact ih b (run ++ [c]) resp h
  exact hloop data b [] resp h

/-- The text of a format that has an argument for every directive and no host name. -/
def fmtText : Bytes → List FmtArg → Option Bytes
  | 37 :: 67 :: fmt, .dch dch :: args => (fmtText fmt args).map (escapeHtml dch ++ ·)
  | 37 :: 68 :: fmt, .data bytes :: args => (fmtText fmt args).map (escapeHtml bytes ++ ·)
  | 37 :: 83 :: fmt, .str s :: args => (fmtText fmt args).map (escapeHtml (cstr s) ++ ·)
  | 37 :: 82 :: fmt, .str s :: args => (fmtText fmt args).map (cstr s ++ ·)
  | 37 :: _, _ => none
  | c :: fmt, args => (fmtText fmt args).map (c :: ·)
  | [], _ => some []

theorem fmtText_cons {c : Byte} (hc : c ≠ 37) (fmt : Bytes) (args : List FmtArg) :
    fmtText (c :: fmt) args = (fmtText fmt args).map (c :: ·) := by
  rw [fmtText]
  all_goals intros; exact absurd ‹_› hc

theorem fmtLoop_text (resp : RespBuf) (run fmt : Bytes) (args : List FmtArg) :
    ∀ text b, HasBody b resp → fmtText fmt args = some text →
      Plain (HasBody (b ++ (run ++ text))) (fmtLoop resp run fmt args) := by
  fun_induction fmtLoop resp run fmt args with
  | case1 resp run fmt dch args ih =>
    intro text b h htext
    obtain ⟨rest, hrest, rfl⟩ := Option.map_eq_some_iff.mp htext
    refine lift_bind (flushRun_text h _) fun _ h =>
      lift_bind (appendDataEscapeHtml_text h _) fun _ h => ?_
    simpa only [List.append_assoc, List.nil_append] using ih _ rest _ h hrest
  | case2 resp run fmt bytes args ih =>
    intro text b h htext
    obtain ⟨rest, hrest, rfl⟩ := Option.map_eq_some_iff.mp htext
    refine lift_bind (flushRun_text h _) fun _ h =>
      lift_bind (appendDataEscapeHtml_text h _) fun _ h => ?_
    simpa only [List.append_assoc, List.nil_append] using ih _ rest _ h hrest
  | case3 resp run fmt s args ih =>
    intro text b h htext
    obtain ⟨rest, hrest, rfl⟩ := Option.map_eq_some_iff.mp htext
    refine lift_bind (flushRun_text h _) fun _ h =>
      lift_bind (appendDataEscapeHtml_text h _) fun _ h => ?_
    simpa only [List.append_assoc, List.nil_append] using ih _ rest _ h hrest
  | case4 resp run fmt s args ih =>
    intro text b h htext
    obtain ⟨rest, hrest, rfl⟩ := Option.map_eq_some_iff.mp htext
    refine lift_bind (flushRun_text h _) fun _ h =>
      lift_bind (respAppendData_text h _) fun _ h => ?_
    simpa only [List.append_assoc, List.nil_append] using ih _ rest _ h hrest
  | case5 => intro text b h htext; cases htext
  | case6 => intro text b h htext; cases htext
  | case7 => exact fun _ _ _ _ => rfl
  | case8 => intro text b h htext; simp_all [fmtText]
  | case9 resp run c fmt args _ _ _ _ _ _ hc ih =>
    intro text b h htext
    rw [fmtText_cons hc] at htext
    obtain ⟨rest, hrest, rfl⟩ := Option.map_eq_some_iff.mp htext
    simpa only [List.append_assoc, List.singleton_append] using ih rest b h hrest
  | case10 resp run args =>
    intro text b h htext
    cases htext
    rw [List.append_nil]
    exact .lift (flushRun_text h run)

theorem respAppendFmt_text (h : HasBody b resp) {fmt : Bytes} {args : List FmtArg} {text : Bytes}
    (htext : fmtText fmt args = some text) :
    Plain (HasBody (b ++ text)) (respAppendFmt resp fmt args) :=
  fmtLoop_text resp [] fmt args text b h htext

/-- A body that starts so. -/
def BodyFrom (b : Bytes) (resp : RespBuf) : Prop := ∃ more, HasBody (b ++ more) resp

theorem HasBody.bodyFrom (h : HasBody b resp) : BodyFrom b resp :=
  ⟨[], by rw [List.append_nil]; exact h⟩

theorem bodyKept_bodyFrom (b : Bytes) : BodyKept (BodyFrom b) where
  hasBody := by
    rintro resp ⟨more, h⟩
    rw [show resp.body = some ⟨b ++ more⟩ from h]
    rfl
  append := by
    rintro resp body body' data ⟨more, h⟩ hbody hdata
    obtain rfl : body = ⟨b ++ more⟩ := Option.some.inj (hbody.symm.trans h)
    refine ⟨more ++ data, ?_⟩
    rw [← List.append_assoc]
    exact congrArg (fun d => some (MemBuf.mk d)) hdata

/-- Repeated additions, each of which appends a text of its own. -/
theorem forEach_text {α : Type} {R : α → Bytes → Prop} {add : RespBuf → α → Prog RespBuf}
    (xs : List α) (hadd : ∀ x ∈ xs, ∀ b resp, HasBody b resp →
      Plain (fun resp => ∃ row, R x row ∧ HasBody (b ++ row) resp) (add resp x))
    (h : HasBody b resp) :
    Plain (fun resp => ∃ rows, List.Forall₂ R xs rows ∧ HasBody (b ++ rows.flatten) resp)
      (forEach xs add resp) := by
  induction xs generalizing b resp with
  | nil => exact ⟨[], .nil, by rw [List.flatten_nil, List.append_nil]; exact h⟩
  | cons x xs ih =>
    refine (hadd x List.mem_cons_self b resp h).bind ?_
    rintro resp ⟨row, hrow, h⟩
    refine (ih (fun y hy => hadd y (List.mem_cons_of_mem x hy)) h).mono (fun _ h => h)
      (fun _ h => h) ?_
    rintro resp ⟨rows, hrows, h⟩
    refine ⟨row :: rows, .cons hrow hrows, ?_⟩
    rw [List.flatten_cons, ← List.append_assoc]
    exact h

end Body

section Header

/-- A header line as it is appended. -/
def fieldLine (field : Bytes × Bytes) : Bytes := field.1 ++ ascii ": " ++ field.2 ++ crlf

/-- The status line and the header lines. -/
def headText (status : Bytes) (fields : List (Bytes × Bytes)) : Bytes :=
  ascii "HTTP/1.1 " ++ status ++ crlf ++ fields.flatMap fieldLine

theorem headText_append (status : Bytes) (fields more : List (Bytes × Bytes)) :
    headText status (fields ++ more) = headText status fields ++ more.flatMap fieldLine := by
  rw [headText, headText, List.flatMap_append, List.append_assoc (ascii "HTTP/1.1 " ++ _ ++ _)]

/-- A response with these header lines, this file and a body or none. -/
structure Page (status : Bytes) (fields : List (Bytes × Bytes)) (fd : Option Fd) (hasBody : Bool)
    (resp : RespBuf) : Prop where
  head : resp.header.data = headText status fields
  file : resp.fileDesc = fd
  body : resp.body.isSome = hasBody

variable {resp : RespBuf} {status : Bytes} {fields : List (Bytes × Bytes)} {fd : Option Fd}
  {hasBody : Bool}

theorem bodyKept_page : BodyKept (Page status fields fd true) where
  hasBody h := h.body
  append h _ _ := ⟨h.head, h.file, rfl⟩

theorem mbAppendStrL_ok {strs : List Bytes} {mb mb' : MemBuf}
    (h : mbAppendStrL mb strs = .ok mb') : mb'.data = mb.data ++ (strs.map cstr).flatten := by
  induction strs generalizing mb with
  | nil => rw [← Except.ok.inj h]; simp
  | cons str strs ih =>
    obtain ⟨mb₁, hstr, hrest⟩ := bind_ok h
    rw [ih hrest, mbAppendData_ok hstr]
    simp

/-- Texts that are short enough are appended. -/
theorem mbAppendStrL_small {strs : List Bytes} {mb : MemBuf}
    (h : mb.dataLen + (strs.map cstr).flatten.length + 1 < uintSize) :
    mbAppendStrL mb strs = .ok ⟨mb.data ++ (strs.map cstr).flatten⟩ := by
  induction strs generalizing mb with
  | nil => simp [mbAppendStrL]
  | cons str strs ih =>
    simp only [List.map_cons, List.flatten_cons, List.length_append] at h
    have hstr : mbAppendStr mb str = .ok ⟨mb.data ++ cstr str⟩ := if_pos (by omega)
    rw [mbAppendStrL, hstr]
    rw [List.map_cons, List.flatten_cons, ← List.append_assoc]
    have hrest : (MemBuf.mk (mb.data ++ cstr str)).dataLen + (strs.map cstr).flatten.length + 1 <
        uintSize := by
      simp only [MemBuf.dataLen, List.length_append] at h ⊢
      omega
    exact ih hrest

theorem respNew_page (hstatus : nul ∉ status) (onlyHead : Bool) :
    Sound (pageFault · = true) (Page status [] none (! onlyHead)) (respNew status onlyHead) := by
  refine (respNew_sound status onlyHead).also fun resp h => ?_
  obtain ⟨header, hheader, h⟩ := bind_ok h
  rw [← Except.ok.inj h]
  refine ⟨?_, rfl, by cases onlyHead <;> rfl⟩
  have htext := mbAppendStrL_ok hheader
  have hhttp : cstr (ascii "HTTP/1.1 ") = ascii "HTTP/1.1 " := by decide
  have hcrlf : cstr crlf = crlf := by decide
  simp only [List.map_cons, List.map_nil, List.flatten_cons, List.flatten_nil, List.append_nil,
    hhttp, hcrlf, cstr_eq_self hstatus] at htext
  rw [htext, headText, List.flatMap_nil, List.append_nil, mbNew, List.nil_append,
    List.append_assoc]

/-- The text of a header line, behind the lines before it. -/
theorem appendHeader_ok {name value : Bytes} {mb mb' : MemBuf} (hname : nul ∉ name)
    (h : mbAppendStrL mb [name, ascii ": ", value, crlf] = .ok mb') :
    mb'.data = mb.data ++ fieldLine (name, cstr value) := by
  have htext := mbAppendStrL_ok h
  have hcolon : cstr (ascii ": ") = ascii ": " := by decide
  have hcrlf : cstr crlf = crlf := by decide
  simp only [List.map_cons, List.map_nil, List.flatten_cons, List.flatten_nil, List.append_nil,
    hcolon, hcrlf, cstr_eq_self hname] at htext
  rw [htext, fieldLine]
  simp only [List.append_assoc]

theorem respAppendHeader_page (h : Page status fields fd hasBody resp) {name : Bytes}
    (hname : nul ∉ name) (value : Bytes) :
    Sound (pageFault · = true) (Page status (fields ++ [(name, cstr value)]) fd hasBody)
      (respAppendHeader resp name value) := by
  refine (respAppendHeader_sound ⟨rfl, rfl⟩ name value).also fun resp' h' => ?_
  obtain ⟨header, hheader, h'⟩ := bind_ok h'
  rw [← Except.ok.inj h']
  refine ⟨?_, h.file, h.body⟩
  rw [show header.data = _ from appendHeader_ok hname hheader, headText_append,
    List.flatMap_singleton, h.head]

theorem respNew_body (status : Bytes) :
    Sound (pageFault · = true) (HasBody []) (respNew status false) :=
  (mbAppendStrL_sound _ _).bind fun _ _ => rfl

theorem respAppendHeader_body {b : Bytes} (h : HasBody b resp) (name value : Bytes) :
    Sound (pageFault · = true) (HasBody b) (respAppendHeader resp name value) :=
  (mbAppendStrL_sound _ _).bind fun _ _ => h

end Header

section Builders

variable {status : Bytes}

/-- The header line of a page. -/
def pageType : Bytes × Bytes := (ascii "Content-Type", htmlType)

theorem cstr_htmlType : cstr htmlType = htmlType := by decide

theorem respAppendType_page {fields : List (Bytes × Bytes)} {fd : Option Fd} {hasBody : Bool}
    (resp : RespBuf) (h : Page status fields fd hasBody resp) :
    Sound (pageFault · = true) (Page status (fields ++ [pageType]) fd hasBody)
      (respAppendHeader resp (ascii "Content-Type") htmlType) := by
  have hpage := respAppendHeader_page h (by decide : nul ∉ ascii "Content-Type") htmlType
  rw [cstr_htmlType] at hpage
  exact hpage

/-- The texts of a message page are in its body only. -/
theorem printMesgPage_page (hstatus : nul ∉ status) (mesg : Option Bytes) (path : Bytes)
    (onlyHead showLoginButton : Bool) :
    Plain (Page status [pageType] none (! onlyHead))
      (printMesgPage status mesg path onlyHead showLoginButton) := by
  refine printMesgPage_within ?_ (respNew_page hstatus _) respAppendType_page _ _ _
  rintro rfl
  exact bodyKept_page

theorem nul_not_mem_respCmnStatus (status : HttpStatus) : nul ∉ respCmnStatus status := by
  cases status <;> decide

theorem printErrorPage_page (cfg : Config) (sysErrno : Option Errno) (path : Bytes)
    (onlyHead showLoginButton : Bool) :
    Plain (Page (respCmnStatus (errorStatus cfg sysErrno).1) [pageType] none (! onlyHead))
      (printErrorPage cfg sysErrno path onlyHead showLoginButton) :=
  printMesgPage_page (nul_not_mem_respCmnStatus _) _ _ _ _

/-- The value of the header line that asks for a login. -/
def challenge (nonce : Nat) : Bytes :=
  ascii "Digest realm=\"" ++ fmRealm ++ ascii "\", nonce=\"" ++ hexadecimal nonce ++
    ascii "\", qop=\"auth\""

theorem nul_not_mem_challenge (nonce : Nat) : nul ∉ challenge nonce := by
  have hrealm : nul ∉ ascii "Digest realm=\"" ++ fmRealm ++ ascii "\", nonce=\"" := by decide
  have hqop : nul ∉ ascii "\", qop=\"auth\"" := by decide
  intro hm
  rcases List.mem_append.mp hm with hm | hm
  · rcases List.mem_append.mp hm with hm | hm
    · exact hrealm hm
    · exact nul_not_mem_digits (by decide) (le_refl 16) nonce hm
  · exact hqop hm

theorem authGetAuthResponseHeader_text :
    Plain (fun authHeader => ∃ nonce, authHeader = challenge nonce) authGetAuthResponseHeader := by
  refine within_perform rfl fun nonce => ?_
  refine lift_bind (Q := fun mb => mb.data = challenge nonce)
    ((mbAppendStrL_sound _ _).also fun mb h => ?_) fun mb hmb => .pure ⟨nonce, hmb⟩
  have hdigits := nul_not_mem_digits (by decide : 1 < 16) (le_refl 16) nonce
  have h₁ : cstr (ascii "Digest realm=\"") = ascii "Digest realm=\"" := by decide
  have h₂ : cstr fmRealm = fmRealm := by decide
  have h₃ : cstr (ascii "\", nonce=\"") = ascii "\", nonce=\"" := by decide
  have h₄ : cstr (ascii "\", qop=\"auth\"") = ascii "\", qop=\"auth\"" := by decide
  rw [mbAppendStrL_ok h]
  simp only [List.map_cons, List.map_nil, List.flatten_cons, List.flatten_nil, List.append_nil,
    h₁, h₂, h₃, h₄, hexadecimal, cstr_eq_self hdigits, mbNew, List.nil_append, List.append_assoc,
    challenge]

theorem printUnauthorized_page (urlPath : Bytes) (onlyHead : Bool) :
    Plain (fun resp => ∃ nonce, Page (ascii "401 Unauthorized")
        [pageType, (ascii "WWW-Authenticate", challenge nonce), pageType] none (! onlyHead) resp)
      (printUnauthorized urlPath onlyHead) := by
  have hstatus : nul ∉ ascii "401 Unauthorized" := by decide
  refine (printMesgPage_page hstatus none urlPath onlyHead false).bind fun _ h => ?_
  refine authGetAuthResponseHeader_text.bind ?_
  rintro _ ⟨nonce, rfl⟩
  refine lift_bind (respAppendHeader_page h (by decide) _) fun _ h => .lift ?_
  refine (respAppendHeader_page h (by decide) _).mono (fun _ h => h) fun _ h => ⟨nonce, ?_⟩
  rw [cstr_htmlType, cstr_eq_self (nul_not_mem_challenge nonce)] at h
  exact h

theorem printFolderContents_page (cfg : Config) (urlPath : Bytes) (folder : Folder)
    (isModifiable showLoginButton : Bool) (opErrorMsg : Option Bytes) (onlyHead : Bool) :
    Plain (Page (respCmnStatus .ok200) [pageType] none (! onlyHead)) (printFolderContents cfg
      urlPath folder isModifiable showLoginButton opErrorMsg onlyHead) := by
  refine printFolderContents_within ?_ (respNew_page (nul_not_mem_respCmnStatus _) _)
    respAppendType_page _ _ _ _ _ _
  rintro rfl
  exact bodyKept_page

/-- The redirection to a path with a slash behind it. -/
theorem printMovedAddSlash_page {urlPath : Bytes} (hurl : nul ∉ urlPath) (onlyHead : Bool) :
    Plain (Page (ascii "301 Moved Permanently")
        [(ascii "Location", urlPath ++ [slash]), pageType] none (! onlyHead))
      (printMovedAddSlash urlPath onlyHead) := by
  have hvalue : cstr (urlPath ++ [slash]) = urlPath ++ [slash] := by
    apply cstr_eq_self
    intro hm
    rcases List.mem_append.mp hm with hm | hm
    · exact hurl hm
    · exact absurd hm (by decide)
  have hlocation : AddsHeader (Page (ascii "301 Moved Permanently") [] none (! onlyHead))
      (Page (ascii "301 Moved Permanently") [(ascii "Location", urlPath ++ [slash])] none
        (! onlyHead)) (ascii "Location") (urlPath ++ [slash]) := by
    intro resp h
    have hpage := respAppendHeader_page h (by decide : nul ∉ ascii "Location") (urlPath ++ [slash])
    rw [hvalue] at hpage
    exact hpage
  refine printMovedAddSlash_within ?_ (respNew_page (by decide) _) hlocation respAppendType_page
  rintro rfl
  exact bodyKept_page

end Builders

end FilemanagerHttpd.Audit
