import FilemanagerHttpd.Audit.HeaderBlocks
import FilemanagerHttpd.Audit.HeadAnswers
import FilemanagerHttpd.Audit.HeaderLines

/-!
# One announcement of the length

A response with a body has one header line that says where it ends, the one that the sender
adds. The header block before it must have none, and must not end earlier: that fails where a
CGI program prints such a line, and where a line feed in a path starts one.
-/

namespace FilemanagerHttpd.Audit

open Library Server

/-- A name of a header line that says where the body ends. -/
def isFramingName (name : Bytes) : Bool :=
  eqIgnoreCase name (ascii "Content-Length") || eqIgnoreCase name (ascii "Transfer-Encoding")

/-- The name of a header line, which ends at the colon. -/
def lineName (line : Bytes) : Bytes := line.takeWhile (· != colon)

/-- The header lines of a block that say where the body ends. -/
def framingLines (block : Bytes) : List Bytes :=
  (headerLines block).tail.filter fun line => isFramingName (lineName line)

/-- The lines of a text, whether there is an empty one among them or not. -/
def textLines (text : Bytes) : List Bytes := (text.splitOn lf).map stripCr

/-- The lines that a value begins behind its own. -/
def injectedLines (value : Bytes) : List Bytes := (textLines (value ++ [cr])).tail

/-- A line that neither ends a header nor says where the body ends. -/
def Inert (line : Bytes) : Prop := line ≠ [] ∧ isFramingName (lineName line) = false

section Text

theorem headerLines_eq (block : Bytes) :
    headerLines block = (textLines block).takeWhile (! ·.isEmpty) := rfl

theorem textLines_append (text tail : Bytes) :
    textLines (text ++ lf :: tail) = textLines text ++ textLines tail := by
  rw [textLines, List.splitOn_append_cons_self, List.map_append]
  rfl

/-- A text in front of the first line feed belongs to the first line. -/
theorem splitOn_append_left {pre : Bytes} (hpre : lf ∉ pre) (text : Bytes) :
    (pre ++ text).splitOn lf = (text.splitOn lf).modifyHead (pre ++ ·) := by
  induction pre with
  | nil =>
    rw [List.nil_append]
    cases text.splitOn lf <;> rfl
  | cons b pre ih =>
    have hb : ¬ (b == lf) = true := by
      intro he
      exact hpre (by rw [eq_of_beq he]; exact List.mem_cons_self)
    rw [List.cons_append, List.splitOn_cons_eq_if_modifyHead, if_neg hb,
      ih fun hm => hpre (List.mem_cons_of_mem b hm)]
    cases text.splitOn lf <;> rfl

theorem stripCr_append {pre : Bytes} (hlast : pre.getLast? ≠ some cr) (text : Bytes) :
    stripCr (pre ++ text) = pre ++ stripCr text := by
  rcases List.eq_nil_or_concat text with rfl | ⟨t, b, rfl⟩
  · rw [List.append_nil, stripCr, if_neg hlast, show stripCr [] = [] from rfl, List.append_nil]
  · rw [List.concat_eq_append, ← List.append_assoc, stripCr, stripCr, List.getLast?_concat,
      List.getLast?_concat]
    split
    · rw [List.dropLast_concat, List.dropLast_concat]
    · rw [List.append_assoc]

/-- The lines of a header line: its own, and those that its value begins. -/
theorem textLines_fieldText {field : Bytes × Bytes} (hname : lf ∉ field.1) :
    ∃ first, textLines (fieldText field ++ [cr]) =
      (field.1 ++ ascii ": " ++ first) :: injectedLines field.2 := by
  have hpre : lf ∉ field.1 ++ ascii ": " := by
    intro hm
    rcases List.mem_append.mp hm with hm | hm
    · exact hname hm
    · exact absurd hm (by decide)
  have hlast : (field.1 ++ ascii ": ").getLast? ≠ some cr := by
    rw [List.getLast?_append, show (ascii ": ").getLast? = some space by decide,
      Option.some_or]
    decide
  obtain ⟨piece, pieces, hpieces⟩ :=
    List.exists_cons_of_ne_nil (List.splitOn_ne_nil lf (field.2 ++ [cr]))
  refine ⟨stripCr piece, ?_⟩
  rw [injectedLines, textLines, textLines, fieldText, List.append_assoc, splitOn_append_left hpre,
    hpieces, List.modifyHead_cons, List.map_cons, List.map_cons, stripCr_append hlast]
  rfl

theorem lineName_field {name : Bytes} (hname : colon ∉ name) (first : Bytes) :
    lineName (name ++ ascii ": " ++ first) = name := by
  have hcolon : ascii ": " = colon :: [space] := by decide
  rw [lineName, hcolon, List.append_assoc, List.takeWhile_append_of_pos]
  · rw [List.cons_append, List.takeWhile_cons_of_neg (by decide), List.append_nil]
  · intro b hb
    simpa using fun he : b = colon => hname (he ▸ hb)

/-- A header line is harmless when its name is, and the lines that its value begins are. -/
def FieldInert (field : Bytes × Bytes) : Prop :=
  isFramingName field.1 = false ∧ ∀ line ∈ injectedLines field.2, Inert line

/-- The lines of a header line are inert exactly when it is harmless. -/
theorem inert_field_iff {field : Bytes × Bytes} (hlf : lf ∉ field.1) (hcolon : colon ∉ field.1) :
    (∀ line ∈ textLines (fieldText field ++ [cr]), Inert line) ↔ FieldInert field := by
  obtain ⟨first, hlines⟩ := textLines_fieldText hlf
  rw [hlines, List.forall_mem_cons, FieldInert, Inert, lineName_field hcolon]
  have hne : field.1 ++ ascii ": " ++ first ≠ [] := by simp [ascii]
  exact and_congr_left fun _ => and_iff_right hne

/-- All lines of some header lines. -/
def fieldLines (fields : List (Bytes × Bytes)) : List Bytes :=
  fields.flatMap fun field => textLines (fieldText field ++ [cr])

theorem textLines_fields (fields : List (Bytes × Bytes)) (tail : Bytes) :
    textLines (fields.flatMap fieldLine ++ tail) = fieldLines fields ++ textLines tail := by
  induction fields with
  | nil => rfl
  | cons field fields ih =>
    have hline : fieldLine field ++ (fields.flatMap fieldLine ++ tail) =
        (fieldText field ++ [cr]) ++ lf :: (fields.flatMap fieldLine ++ tail) := by
      rw [fieldLine, fieldText, crlf]
      simp only [List.append_assoc, List.cons_append, List.nil_append]
    rw [List.flatMap_cons, List.append_assoc, hline, textLines_append, ih, fieldLines, fieldLines,
      List.flatMap_cons, List.append_assoc]

theorem headerLines_block {status : Bytes} (hstatus : lf ∉ status)
    (fields : List (Bytes × Bytes)) (tail : Bytes) :
    headerLines (headText status fields ++ tail) =
      statusLine status :: (fieldLines fields ++ textLines tail).takeWhile (! ·.isEmpty) := by
  have hline : lf ∉ statusLine status := by
    intro hm
    rcases List.mem_append.mp hm with hm | hm
    · exact absurd hm (by decide)
    · exact hstatus hm
  have hne : statusLine status ≠ [] := by simp [statusLine, ascii]
  have htext : headText status fields ++ tail =
      statusLine status ++ (crlf ++ (fields.flatMap fieldLine ++ tail)) := by
    rw [headText, statusLine]
    simp only [List.append_assoc]
  rw [htext, headerLines_cons hline hne, headerLines_eq, textLines_fields]

/-- The block that a sender was given, and what it has made of it. -/
def BlockGiven (handed : Bytes) (r : ResponseSender) : Prop :=
  ∃ more, r.header =
    some ⟨handed ++ fieldLine (lengthField r.dataSize r.nbytes) ++ (crlf ++ more)⟩

/-- No line of the block that was given says where the body ends, and of the block that is sent
one does: it is what the sender goes by. -/
structure FramedOnce (handed : Bytes) (r : ResponseSender) : Prop where
  given : BlockGiven handed r
  before : framingLines handed = []
  sent : ∀ mb, r.header = some mb →
    framingLines mb.data = [fieldText (lengthField r.dataSize r.nbytes)]

theorem lengthField_framing (bodyLen : Nat) (nbytes : Int) :
    lf ∉ (lengthField bodyLen nbytes).1 ∧ colon ∉ (lengthField bodyLen nbytes).1 ∧
      isFramingName (lengthField bodyLen nbytes).1 = true ∧
        lf ∉ (lengthField bodyLen nbytes).2 := by
  unfold lengthField
  split
  · have hlf : lf ∉ ascii "Content-Length" := by decide
    have hcolon : colon ∉ ascii "Content-Length" := by decide
    have hname : isFramingName (ascii "Content-Length") = true := by decide
    exact ⟨hlf, hcolon, hname, lf_not_mem_digits (by decide) (by decide) _⟩
  · decide

theorem fieldLines_clean {field : Bytes × Bytes} (hname : lf ∉ field.1) (hvalue : lf ∉ field.2) :
    fieldLines [field] = [fieldText field] := by
  have hline : lf ∉ fieldText field ++ [cr] := by
    intro hm
    rcases List.mem_append.mp hm with hm | hm
    · rcases List.mem_append.mp hm with hm | hm
      · rcases List.mem_append.mp hm with hm | hm
        · exact hname hm
        · exact absurd hm (by decide)
      · exact hvalue hm
    · exact absurd hm (by decide)
  rw [fieldLines, List.flatMap_singleton, textLines, List.splitOn_eq_singleton hline,
    List.map_singleton, stripCr_cr]

/-- A block is framed once exactly when each line of the header lines in it is inert. -/
theorem framedOnce_iff {status : Bytes} (hstatus : lf ∉ status) {fields : List (Bytes × Bytes)}
    {r : ResponseSender} (hgiven : BlockGiven (headText status fields) r) :
    FramedOnce (headText status fields) r ↔ ∀ line ∈ fieldLines fields, Inert line := by
  obtain ⟨hlf, hcolon, hframing, hvalue⟩ := lengthField_framing r.dataSize r.nbytes
  have hname : isFramingName (lineName (fieldText (lengthField r.dataSize r.nbytes))) = true := by
    rw [fieldText, lineName_field hcolon]
    exact hframing
  have hne : fieldText (lengthField r.dataSize r.nbytes) ≠ [] := by simp [fieldText, ascii]
  have hhanded : headerLines (headText status fields) =
      statusLine status :: (fieldLines fields ++ [[]]).takeWhile (! ·.isEmpty) := by
    have h := headerLines_block hstatus fields []
    rw [List.append_nil] at h
    exact h
  have hsent : ∀ more, headerLines (headText status fields ++
      fieldLine (lengthField r.dataSize r.nbytes) ++ (crlf ++ more)) = statusLine status ::
        (fieldLines fields ++ (fieldText (lengthField r.dataSize r.nbytes) :: [] ::
          textLines more)).takeWhile (! ·.isEmpty) := by
    intro more
    have hfield := fieldLines_clean hlf hvalue
    have hend : textLines (crlf ++ more) = [] :: textLines more := by
      rw [show crlf ++ more = [cr] ++ lf :: more from rfl, textLines_append]
      rfl
    have htail := textLines_fields [lengthField r.dataSize r.nbytes] (crlf ++ more)
    rw [hfield, hend, List.flatMap_singleton] at htail
    rw [List.append_assoc, headerLines_block hstatus, htail]
    rfl
  have hstops : ∀ line : Bytes, (! line.isEmpty) = true ↔ line ≠ [] := by intro line; simp
  constructor
  · intro h
    obtain ⟨more, hheader⟩ := h.given
    have hbefore := h.before
    have hafter := h.sent _ hheader
    rw [framingLines, hhanded, List.tail_cons] at hbefore
    rw [framingLines, hsent, List.tail_cons] at hafter
    -- an empty line among them would end the block before the sender's own line
    have hall : ∀ line ∈ fieldLines fields, (! line.isEmpty) = true := by
      by_contra hnot
      have hshort : ¬ ((fieldLines fields).takeWhile (! ·.isEmpty)).length =
          (fieldLines fields).length := by
        intro hlen
        have hself := (List.takeWhile_sublist _).eq_of_length hlen
        exact hnot (List.takeWhile_eq_self_iff.mp hself)
      rw [List.takeWhile_append, if_neg hshort] at hbefore hafter
      rw [hbefore] at hafter
      cases hafter
    rw [List.takeWhile_append_of_pos hall, List.takeWhile_cons_of_neg (by simp),
      List.append_nil] at hbefore
    intro line hline
    refine ⟨(hstops line).mp (hall line hline), ?_⟩
    simpa using List.filter_eq_nil_iff.mp hbefore line hline
  · intro h
    have hall : ∀ line ∈ fieldLines fields, (! line.isEmpty) = true :=
      fun line hline => (hstops line).mpr (h line hline).1
    have hnone : (fieldLines fields).filter (fun line => isFramingName (lineName line)) = [] := by
      refine List.filter_eq_nil_iff.mpr fun line hline => ?_
      rw [(h line hline).2]
      decide
    refine ⟨hgiven, ?_, fun mb hmb => ?_⟩
    · rw [framingLines, hhanded, List.tail_cons, List.takeWhile_append_of_pos hall,
        List.takeWhile_cons_of_neg (by simp), List.append_nil, hnone]
    · obtain ⟨more, hheader⟩ := hgiven
      obtain rfl : mb = _ := Option.some.inj (hmb.symm.trans hheader)
      rw [framingLines, hsent, List.tail_cons, List.takeWhile_append_of_pos hall,
        List.takeWhile_cons, if_pos ((hstops _).mpr hne), List.takeWhile_cons_of_neg (by simp),
        List.filter_append, hnone, List.filter_cons, if_pos hname]
      rfl

end Text

section Own

/-- A line of a header that its name and its value begin is inert. -/
theorem fieldsInert_iff {fields : List (Bytes × Bytes)}
    (hnames : ∀ f ∈ fields, lf ∉ f.1 ∧ colon ∉ f.1) :
    (∀ line ∈ fieldLines fields, Inert line) ↔ ∀ f ∈ fields, FieldInert f := by
  rw [fieldLines, List.forall_mem_flatMap]
  refine forall₂_congr fun f hf => ?_
  obtain ⟨hlf, hcolon⟩ := hnames f hf
  exact inert_field_iff hlf hcolon

/-- A value without a line feed begins no line. -/
theorem injectedLines_clean {value : Bytes} (h : lf ∉ value) : injectedLines value = [] := by
  have hline : lf ∉ value ++ [cr] := by
    intro hm
    rcases List.mem_append.mp hm with hm | hm
    · exact h hm
    · exact absurd hm (by decide)
  rw [injectedLines, textLines, List.splitOn_eq_singleton hline]
  rfl

theorem fieldInert_serverField : FieldInert serverField := by
  have hname : isFramingName (ascii "Server") = false := by decide
  have hvalue : lf ∉ ascii "filemanager-httpd" := by decide +kernel
  refine ⟨hname, fun line hline => ?_⟩
  rw [show injectedLines serverField.2 = [] from injectedLines_clean hvalue] at hline
  cases hline

/-- The block that `respFinish` gives to a sender. -/
theorem respFinish_given {status : Bytes} {fields : List (Bytes × Bytes)} {fd : Option Fd}
    {hasBody : Bool} {resp : RespBuf} (h : Page status fields fd hasBody resp) :
    Yields (S := sys) (fun r => r.body.isSome = true →
      BlockGiven (headText status (fields ++ [serverField])) r) (respFinish resp) := by
  refine (respFinish_text h).mono ?_
  rintro r ⟨-, more, hheader⟩ hbody
  obtain ⟨body, hbody⟩ := Option.isSome_iff_exists.mp hbody
  refine ⟨more, ?_⟩
  rw [hheader, framing, hbody, List.append_cons fields, headText_append, List.flatMap_singleton]

/-- What is sent for the path of a request: each line that a value begins counts. -/
def OwnFramed (q : Bytes) (r : ResponseSender) : Prop :=
  ∃ status fields, BuiltFor q status fields ∧
    BlockGiven (headText status (fields ++ [serverField])) r ∧
      (FramedOnce (headText status (fields ++ [serverField])) r ↔
        ∀ f ∈ fields, ∀ line ∈ injectedLines f.2, Inert line)

theorem respFinish_framed {q : Bytes} {resp : RespBuf} (h : Built q False resp) :
    Yields (S := sys) (fun r => r.body.isSome = true → OwnFramed q r) (respFinish resp) := by
  obtain ⟨status, fields, fd, hasBody, hbuilt, hpage, -⟩ := h
  refine (respFinish_given hpage).mono fun r hr hbody => ⟨status, fields, hbuilt, hr hbody, ?_⟩
  have hclean : ∀ name ∈ ownNames, (lf ∉ name ∧ colon ∉ name) ∧ isFramingName name = false := by
    decide
  have hnames : ∀ f ∈ fields, (lf ∉ f.1 ∧ colon ∉ f.1) ∧ isFramingName f.1 = false :=
    fun f hf => hclean _ (builtFor_ownNames hbuilt _ (List.mem_map_of_mem hf))
  have hserver : (lf ∉ serverField.1 ∧ colon ∉ serverField.1) := by decide
  rw [framedOnce_iff (builtFor_names hbuilt).1 (hr hbody), fieldsInert_iff, List.forall_mem_append]
  · constructor
    · exact fun h f hf => (h.1 f hf).2
    · refine fun h => ⟨fun f hf => ⟨(hnames f hf).2, h f hf⟩, fun f hf => ?_⟩
      rw [List.mem_singleton.mp hf]
      exact fieldInert_serverField
  · intro f hf
    rcases List.mem_append.mp hf with hf | hf
    · exact (hnames f hf).1
    · rw [List.mem_singleton.mp hf]
      exact hserver

end Own

section Cgi

/-- The header of a CGI program: no text in it has a line feed, and the lines are cut at their
first colon. -/
structure CleanHeader (hdr : DataHeader) : Prop where
  current : lf ∉ hdr.current
  names : ∀ line ∈ hdr.lines, nul ∉ line.1 ∧ lf ∉ line.1 ∧ colon ∉ line.1
  values : ∀ line ∈ hdr.lines, nul ∉ line.2 ∧ lf ∉ line.2

theorem cleanHeader_new : CleanHeader datahdrNew := ⟨List.not_mem_nil, nofun, nofun⟩

theorem datahdrAddLine_clean {hdr hdr' : DataHeader} (h : CleanHeader hdr) {line : Bytes}
    (hline : lf ∉ line) (hadd : datahdrAddLine hdr line = .ok hdr') : CleanHeader hdr' := by
  have hcstr : nul ∉ cstr line ∧ lf ∉ cstr line :=
    ⟨nul_not_mem_cstr line, fun hm => hline ((List.takeWhile_sublist _).subset hm)⟩
  unfold datahdrAddLine at hadd
  split at hadd
  · rw [← Except.ok.inj hadd]
    exact ⟨List.not_mem_nil, h.names, h.values⟩
  · rename_i header hsplit
    obtain ⟨hcolon, htext⟩ := splitAtByte_eq hsplit
    rw [htext, List.mem_append, List.mem_cons, List.mem_append, List.mem_cons] at hcstr
    simp only [not_or] at hcstr
    obtain ⟨⟨hnul, -, hnul'⟩, hlf, -, hlf'⟩ := hcstr
    split at hadd
    · rw [← Except.ok.inj hadd]
      refine ⟨List.not_mem_nil, fun l hl => ?_, fun l hl => ?_⟩
      · rcases List.mem_append.mp hl with hl | hl
        · exact h.names l hl
        · rw [List.mem_singleton.mp hl]
          exact ⟨hnul, hlf, hcolon⟩
      · rcases List.mem_append.mp hl with hl | hl
        · exact h.values l hl
        · rw [List.mem_singleton.mp hl]
          exact ⟨hnul', hlf'⟩
    · cases hadd

theorem datahdrAppendData_clean {hdr hdr' : DataHeader} (h : CleanHeader hdr) {data : Bytes}
    {offset : Option Nat} (happend : datahdrAppendData hdr data = .ok (hdr', offset)) :
    CleanHeader hdr' := by
  obtain ⟨⟨hdr₁, rest⟩, hloop, happend⟩ := bind_ok happend
  obtain rfl : hdr₁ = hdr' := (Prod.mk.inj (Except.ok.inj happend)).1
  rw [datahdrAppendLoop_eq] at hloop
  refine datahdrReader.lines_keeps splitAtByte_cuts (I := CleanHeader) ?_ ?_ h hloop
  · intro s s' piece hpiece hs hextend
    rw [datahdr_extend, extendLine_eq] at hextend
    split at hextend
    · rw [← Except.ok.inj hextend]
      refine ⟨fun hm => ?_, hs.names, hs.values⟩
      rcases List.mem_append.mp hm with hm | hm
      · exact hs.current ((List.takeWhile_sublist _).subset hm)
      · exact hpiece hm
    · cases hextend
  · intro s s' last hs hcomplete
    have hline : lf ∉ stripCr s.current := not_mem_stripCr hs.current
    rw [show s = { s with current := s.current } from rfl, datahdr_complete] at hcomplete
    split at hcomplete
    · rw [← (Prod.mk.inj (Except.ok.inj hcomplete)).1]
      exact ⟨hline, hs.names, hs.values⟩
    · cases hadd : datahdrAddLine s (stripCr s.current) with
      | error e => rw [hadd] at hcomplete; cases hcomplete
      | ok s₁ =>
        rw [hadd] at hcomplete
        rw [← (Prod.mk.inj (Except.ok.inj hcomplete)).1]
        exact datahdrAddLine_clean hs hline hadd

/-- The header of a CGI program after it has printed these pieces, and what it has printed behind
the header when that is complete. -/
def cgiPrinted (hdr : DataHeader) : List Bytes → Except Fault (DataHeader × Option Bytes)
  | [] => .ok (hdr, none)
  | buf :: bufs =>
    match datahdrAppendData hdr buf with
    | .error e => .error e
    | .ok (hdr, none) => cgiPrinted hdr bufs
    | .ok (hdr, some offset) => .ok (hdr, some (buf.drop offset))

theorem cgiPrinted_concat {hdr hdr' : DataHeader} {bufs : List Bytes} (buf : Bytes)
    (h : cgiPrinted hdr bufs = .ok (hdr', none)) :
    cgiPrinted hdr (bufs ++ [buf]) = cgiPrinted hdr' [buf] := by
  induction bufs generalizing hdr with
  | nil => rw [← (Prod.mk.inj (Except.ok.inj h)).1, List.nil_append]
  | cons b bufs ih =>
    rw [List.cons_append, cgiPrinted]
    rw [cgiPrinted] at h
    cases happend : datahdrAppendData hdr b with
    | error e => rw [happend] at h; cases h
    | ok r =>
      obtain ⟨hdr₁, offset⟩ := r
      rw [happend] at h
      cases offset with
      | none => exact ih h
      | some offset => cases h

theorem cgiPrinted_clean {hdr hdr' : DataHeader} {bufs : List Bytes} {rest : Option Bytes}
    (hclean : CleanHeader hdr) (h : cgiPrinted hdr bufs = .ok (hdr', rest)) :
    CleanHeader hdr' := by
  induction bufs generalizing hdr with
  | nil => rwa [← (Prod.mk.inj (Except.ok.inj h)).1]
  | cons b bufs ih =>
    rw [cgiPrinted] at h
    cases happend : datahdrAppendData hdr b with
    | error e => rw [happend] at h; cases h
    | ok r =>
      obtain ⟨hdr₁, offset⟩ := r
      have hclean₁ := datahdrAppendData_clean hclean happend
      rw [happend] at h
      cases offset with
      | none => exact ih hclean₁ h
      | some offset => rwa [← (Prod.mk.inj (Except.ok.inj h)).1]

/-- The status of the response to what a CGI program printed. -/
def cgiStatus (printed : DataHeader) : Bytes :=
  (datahdrGetHeaderVal printed (ascii "Status")).getD (respCmnStatus .ok200)

/-- The header lines of that response. -/
def cgiFields (printed : DataHeader) : List (Bytes × Bytes) :=
  (ascii "Content-Type",
    (datahdrGetHeaderVal printed (ascii "Content-Type")).getD (ascii "text/plain")) ::
      printed.lines.filter fun line => ! isCgiOwnHeader line.1

theorem clean_getHeaderVal {hdr : DataHeader} (h : CleanHeader hdr) (name : Bytes) {d : Bytes}
    (hd : nul ∉ d ∧ lf ∉ d) :
    nul ∉ (datahdrGetHeaderVal hdr name).getD d ∧ lf ∉ (datahdrGetHeaderVal hdr name).getD d := by
  unfold datahdrGetHeaderVal
  cases hfind : hdr.lines.find? fun l => eqIgnoreCase l.1 name with
  | none => exact hd
  | some line =>
    obtain ⟨hnul, hlf⟩ := h.values line (List.mem_of_find?_eq_some hfind)
    have hsub := (List.dropWhile_sublist (l := line.2) (· ∈ blanks)).subset
    exact ⟨fun hm => hnul (hsub hm), fun hm => hlf (hsub hm)⟩

theorem foldlM_appendHeader_page {status : Bytes} {fd : Option Fd} {hasBody : Bool}
    {lines : List (Bytes × Bytes)} (hlines : ∀ l ∈ lines, nul ∉ l.1 ∧ nul ∉ l.2) :
    ∀ {fields : List (Bytes × Bytes)} {resp : RespBuf}, Page status fields fd hasBody resp →
      Sound (pageFault · = true) (Page status (fields ++ lines) fd hasBody)
        (lines.foldlM (fun resp line => respAppendHeader resp line.1 line.2) resp) := by
  induction lines with
  | nil =>
    intro fields resp h
    rw [List.append_nil]
    exact h
  | cons line lines ih =>
    intro fields resp h
    obtain ⟨hname, hvalue⟩ := hlines line List.mem_cons_self
    rw [List.foldlM_cons, List.append_cons]
    refine (respAppendHeader_page h hname line.2).bind fun resp h => ?_
    rw [cstr_eq_self hvalue] at h
    exact ih (fun l hl => hlines l (List.mem_cons_of_mem _ hl)) h

theorem cgiResponseHeader_page {hdr : DataHeader} (h : CleanHeader hdr) (onlyHead : Bool) :
    Sound (pageFault · = true) (Page (cgiStatus hdr) (cgiFields hdr) none (! onlyHead))
      (cgiResponseHeader hdr onlyHead) := by
  have hok : nul ∉ respCmnStatus .ok200 ∧ lf ∉ respCmnStatus .ok200 := by decide
  have hplain : nul ∉ ascii "text/plain" ∧ lf ∉ ascii "text/plain" := by decide
  have hstatus := clean_getHeaderVal h (ascii "Status") hok
  have htype := clean_getHeaderVal h (ascii "Content-Type") hplain
  refine (respNew_page hstatus.1 onlyHead).bind fun resp hresp => ?_
  refine (respAppendHeader_page hresp (by decide) _).bind fun resp hresp => ?_
  rw [cstr_eq_self htype.1] at hresp
  refine foldlM_appendHeader_page (fun l hl => ?_) hresp
  have hl := (List.filter_sublist).subset hl
  exact ⟨(h.names l hl).1, (h.values l hl).1⟩

/-- The header lines that are left out have other names. -/
theorem isFramingName_own {name : Bytes} (hown : isCgiOwnHeader name = true) :
    isFramingName name = false := by
  have hcase : ∀ text, eqIgnoreCase name text = true → isCgiOwnHeader text = true := by
    intro text htext
    have hlower : name.map toLower = text.map toLower := eq_of_beq htext
    rw [← hown]
    simp only [isCgiOwnHeader, startsWithIgnoreCase, eqIgnoreCase, List.map_take, hlower]
  unfold isFramingName
  rw [Bool.or_eq_false_iff, ← Bool.not_eq_true, ← Bool.not_eq_true]
  constructor
  · exact fun h => absurd (hcase _ h) (by decide)
  · exact fun h => absurd (hcase _ h) (by decide)

/-- What a CGI program printed is framed once exactly when no line of its header has one of the
two names. -/
theorem cgi_framed_iff {hdr : DataHeader} (h : CleanHeader hdr) {r : ResponseSender}
    (hgiven : BlockGiven (headText (cgiStatus hdr) (cgiFields hdr ++ [serverField])) r) :
    FramedOnce (headText (cgiStatus hdr) (cgiFields hdr ++ [serverField])) r ↔
      ∀ line ∈ hdr.lines, isFramingName line.1 = false := by
  have hok : nul ∉ respCmnStatus .ok200 ∧ lf ∉ respCmnStatus .ok200 := by decide
  have hplain : nul ∉ ascii "text/plain" ∧ lf ∉ ascii "text/plain" := by decide
  have hstatus : nul ∉ cgiStatus hdr ∧ lf ∉ cgiStatus hdr := clean_getHeaderVal h _ hok
  have htype := clean_getHeaderVal h (ascii "Content-Type") hplain
  have htypeName : (lf ∉ ascii "Content-Type" ∧ colon ∉ ascii "Content-Type") ∧
      isFramingName (ascii "Content-Type") = false := by decide
  have hserver : (lf ∉ serverField.1 ∧ colon ∉ serverField.1) := by decide
  rw [framedOnce_iff hstatus.2 hgiven, fieldsInert_iff, List.forall_mem_append,
    and_iff_left (by simpa using fieldInert_serverField), cgiFields, List.forall_mem_cons,
    and_iff_right ⟨htypeName.2, by rw [injectedLines_clean htype.2]; exact nofun⟩]
  · constructor
    · intro hfields line hline
      by_cases hown : isCgiOwnHeader line.1 = true
      · exact isFramingName_own hown
      · exact (hfields line (List.mem_filter.mpr ⟨hline, by simpa using hown⟩)).1
    · intro hlines line hline
      have hl := (List.filter_sublist).subset hline
      refine ⟨hlines line hl, ?_⟩
      rw [injectedLines_clean (h.values line hl).2]
      exact nofun
  · intro f hf
    rcases List.mem_append.mp hf with hf | hf
    · rcases List.mem_cons.mp hf with rfl | hf
      · exact htypeName.1
      · have hl := (List.filter_sublist).subset hf
        exact (h.names f hl).2
    · rw [List.mem_singleton.mp hf]
      exact hserver

/-- The reads of the loop that waits for the end of the header. -/
def HeaderReads (fd : Fd) (start : DataHeader) (h h' : History) : DataHeader × CgiHeaderRead → Prop
  | (printed, .complete rest) => ∃ pieces, readsFrom fd h' = readsFrom fd h ++ pieces.map .got ∧
      cgiPrinted start pieces = .ok (printed, some rest)
  | (printed, .eof) => ∃ pieces, readsFrom fd h' = readsFrom fd h ++ pieces.map .got ++ [.got []] ∧
      cgiPrinted start pieces = .ok (printed, none)
  | (_, .failed _) => True

theorem cgiHeaderRound_reads (fd : Fd) (start header : DataHeader) (h h' : History)
    (pieces : List Bytes) (hreads : readsFrom fd h' = readsFrom fd h ++ pieces.map .got)
    (hprinted : cgiPrinted start pieces = .ok (header, none)) :
    wp posix .none (cgiHeaderRound (some fd) header)
      (AfterRound (fun header h' => ∃ pieces, readsFrom fd h' = readsFrom fd h ++ pieces.map .got ∧
        cgiPrinted start pieces = .ok (header, none)) fun x h' => HeaderReads fd start h h' x)
      h' := by
  refine (wp_perform _ _ _ _).mpr ⟨trivial, fun r _ => ?_⟩
  have hread : readsFrom fd (⟨.read fd 4096, r⟩ :: h') =
      readsFrom fd h ++ pieces.map .got ++ [r] := by
    rw [readsFrom_cons, hreads, Event.reads, if_pos rfl]
  rcases r with data | e
  · cases data with
    | nil => exact ⟨pieces, hread, hprinted⟩
    | cons b data =>
      have hpieces : readsFrom fd (⟨.read fd 4096, .got (b :: data)⟩ :: h') =
          readsFrom fd h ++ (pieces ++ [b :: data]).map .got := by
        rw [hread, List.map_append, List.append_assoc]
        rfl
      have hnext := cgiPrinted_concat (b :: data) hprinted
      show wp posix .none (liftM (datahdrAppendData header (b :: data)) >>= _) _ _
      refine wp_seq (wp_lift (Q := fun x h'' => datahdrAppendData header (b :: data) = .ok x ∧
        h'' = ⟨.read fd 4096, .got (b :: data)⟩ :: h') (fun _ => trivial) fun x hx => ⟨hx, rfl⟩) ?_
      rintro ⟨header', offset⟩ h'' ⟨happend, rfl⟩
      rw [cgiPrinted, happend] at hnext
      cases offset with
      | none => exact ⟨_, hpieces, hnext⟩
      | some offset => exact ⟨_, hpieces, hnext⟩
  · trivial

/-- The header that is read is that of the pieces that came. -/
theorem cgiHeaderLoop_reads (fuel : Nat) (fd : Fd) (start : DataHeader) (h : History) :
    wp posix .none (Program.iterate .outOfFuel (cgiHeaderRound (some fd)) fuel start)
      (fun x h' => HeaderReads fd start h h' x) h := by
  refine wp_iterate (I := fun header h' => ∃ pieces, readsFrom fd h' =
    readsFrom fd h ++ pieces.map .got ∧ cgiPrinted start pieces = .ok (header, none))
    (fun _ => trivial) ?_ fuel ⟨[], by simp, rfl⟩
  rintro header h' ⟨pieces, hreads, hprinted⟩
  exact cgiHeaderRound_reads fd start header h h' pieces hreads hprinted

/-- The block for what a CGI program printed. -/
def cgiBlock (printed : DataHeader) : Bytes :=
  headText (cgiStatus printed) (cgiFields printed ++ [serverField])

/-- The block for a CGI program that ended before its header did. -/
def cgiErrorBlock : Bytes :=
  headText (respCmnStatus .internal500)
    [(ascii "Content-Type", ascii "text/html"), serverField]

/-- What a sender was given when the reads from a CGI program had come to an end of its header,
or of its output. -/
inductive CgiFramed (fd : Fd) (start : DataHeader) (h h' : History) (r : ResponseSender) : Prop
  | complete {pieces : List Bytes} {more : List ReadResult} {printed : DataHeader} {rest : Bytes} :
    readsFrom fd h' = readsFrom fd h ++ pieces.map .got ++ more →
    cgiPrinted start pieces = .ok (printed, some rest) → BlockGiven (cgiBlock printed) r →
    (FramedOnce (cgiBlock printed) r ↔ ∀ line ∈ printed.lines, isFramingName line.1 = false) →
    CgiFramed fd start h h' r
  | eof {pieces : List Bytes} {more : List ReadResult} {printed : DataHeader} :
    readsFrom fd h' = readsFrom fd h ++ pieces.map .got ++ [.got []] ++ more →
    cgiPrinted start pieces = .ok (printed, none) → FramedOnce cgiErrorBlock r →
    CgiFramed fd start h h' r

theorem cgiErrorBlock_framed {r : ResponseSender} (h : BlockGiven cgiErrorBlock r) :
    FramedOnce cgiErrorBlock r := by
  have hstatus : lf ∉ respCmnStatus .internal500 := by decide
  have hlines : ∀ line ∈ fieldLines [(ascii "Content-Type", ascii "text/html"), serverField],
      line ≠ [] ∧ isFramingName (lineName line) = false := by decide +kernel
  exact (framedOnce_iff hstatus h).mpr hlines

theorem respAppendData_page {status : Bytes} {fields : List (Bytes × Bytes)} {fd : Option Fd}
    {hasBody : Bool} {resp : RespBuf} (h : Page status fields fd hasBody resp) (data : Bytes) :
    Sound (fun _ => True) (Page status fields fd hasBody) (respAppendData resp data) := by
  unfold respAppendData
  split
  · trivial
  · rename_i body hbody
    refine (Sound.always _).bind fun body' _ => ⟨h.head, h.file, ?_⟩
    rw [← h.body, hbody]
    rfl

/-- What `cgiexe_getResponse` has made of the output. -/
inductive CgiPage (fd : Fd) (start : DataHeader) (h h' : History) (resp : RespBuf) : Prop
  | complete {pieces : List Bytes} {more : List ReadResult} {printed : DataHeader} {rest : Bytes}
      {file : Option Fd} {hasBody : Bool} :
    readsFrom fd h' = readsFrom fd h ++ pieces.map .got ++ more →
    cgiPrinted start pieces = .ok (printed, some rest) →
    Page (cgiStatus printed) (cgiFields printed) file hasBody resp → CgiPage fd start h h' resp
  | eof {pieces : List Bytes} {more : List ReadResult} {printed : DataHeader} {hasBody : Bool} :
    readsFrom fd h' = readsFrom fd h ++ pieces.map .got ++ [.got []] ++ more →
    cgiPrinted start pieces = .ok (printed, none) →
    Page (respCmnStatus .internal500) [(ascii "Content-Type", ascii "text/html")] none hasBody
      resp → CgiPage fd start h h' resp

theorem cgiexeGetResponse_page (fuel : Nat) {cgiexe : CgiExecutor} {fd : Fd}
    (hfd : cgiexe.outFd = some fd) (hclean : CleanHeader cgiexe.cgiHeader)
    (dpr : DataProcessingResult) (h : History) :
    wp posix .none (cgiexeGetResponse fuel cgiexe dpr) (fun x h' => ∀ resp, x.2.2 = some resp →
      CgiPage fd cgiexe.cgiHeader h h' resp) h := by
  have hstatus : nul ∉ respCmnStatus .internal500 := by decide
  have hct : nul ∉ ascii "Content-Type" := by decide
  have hhtml : cstr (ascii "text/html") = ascii "text/html" := by decide
  unfold cgiexeGetResponse
  rw [hfd]
  refine wp_seq (cgiHeaderLoop_reads fuel fd cgiexe.cgiHeader h) ?_
  rintro ⟨printed, res⟩ h₁ hreads
  cases res with
  | complete rest =>
    obtain ⟨pieces, hpieces, hprinted⟩ := hreads
    have hheader := cgiPrinted_clean hclean hprinted
    refine wp_mono (wp_of_yields (Q := fun x => ∀ resp, x.2.2 = some resp → ∃ file hasBody,
      Page (cgiStatus printed) (cgiFields printed) file hasBody resp) ?_ h₁) ?_
    · refine yields_lift (cgiResponseHeader_page hheader _) fun resp hpage => ?_
      refine Yields.bind (.lift (respAppendData_page hpage rest)) fun resp hpage => ?_
      refine Yields.bind (Q := fun resp => ∃ file hasBody,
        Page (cgiStatus printed) (cgiFields printed) file hasBody resp) ?_
        fun resp hpage => .pure ?_
      · exact Yields.seq fun _ => .pure ⟨_, _, hpage.head, rfl, hpage.body⟩
      · exact fun resp' he => Option.some.inj he ▸ hpage
    · rintro x h₂ ⟨hx, new, rfl⟩ resp he
      obtain ⟨file, hasBody, hpage⟩ := hx resp he
      have hall := readsFrom_append fd new h₁
      rw [hpieces] at hall
      exact .complete hall hprinted hpage
  | eof =>
    obtain ⟨pieces, hpieces, hprinted⟩ := hreads
    refine wp_mono (wp_of_yields (Q := fun x => ∀ resp, x.2.2 = some resp → ∃ hasBody,
      Page (respCmnStatus .internal500) [(ascii "Content-Type", ascii "text/html")] none hasBody
        resp) ?_ h₁) ?_
    · refine Yields.seq fun _ => yields_lift (respNew_page hstatus _) fun resp hpage => ?_
      refine yields_lift (respAppendHeader_page hpage hct _) fun resp hpage => ?_
      rw [hhtml] at hpage
      refine Yields.bind (.lift (respAppendData_page hpage _)) fun resp hpage => .pure ?_
      intro resp' he
      exact ⟨_, Option.some.inj he ▸ hpage⟩
    · rintro x h₂ ⟨hx, new, rfl⟩ resp he
      obtain ⟨hasBody, hpage⟩ := hx resp he
      have hall := readsFrom_append fd new h₁
      rw [hpieces] at hall
      exact .eof hall hprinted hpage
  | failed e =>
    refine wp_mono (wp_of_yields (Q := fun x => x.2.2 = none) ?_ h₁) ?_
    · exact .ite (fun _ => .pure rfl) fun _ => .fault
    · rintro x h₂ ⟨hx, -⟩ resp he
      rw [hx] at he
      cases he

/-- The response of a CGI program. -/
theorem awaitCgiResponse_framed (fuel : Nat) {hdlr : RequestHandler} {cgiexe : CgiExecutor}
    {fd : Fd} (hnone : hdlr.response = none) (hcgi : hdlr.cgiexe = some cgiexe)
    (hfd : cgiexe.outFd = some fd) (hclean : CleanHeader cgiexe.cgiHeader)
    (dpr : DataProcessingResult) (h : History) :
    wp posix .none (awaitCgiResponse fuel hdlr dpr) (fun x h' => ∀ r, x.1.response = some r →
      r.body.isSome = true → CgiFramed fd cgiexe.cgiHeader h h' r) h := by
  unfold awaitCgiResponse
  rw [hnone, hcgi]
  refine wp_seq (cgiexeGetResponse_page fuel hfd hclean dpr h) ?_
  rintro ⟨cgiexe', dpr', resp⟩ h₁ hresp
  cases resp with
  | none => exact nofun
  | some resp =>
  have hfinish : ∀ {status : Bytes} {fields : List (Bytes × Bytes)} {file : Option Fd}
      {hasBody : Bool}, Page status fields file hasBody resp →
      (∀ r new, BlockGiven (headText status (fields ++ [serverField])) r →
        CgiFramed fd cgiexe.cgiHeader h (new ++ h₁) r) →
      wp posix .none (finishIfReady (some resp) >>= fun response => pure
          ({ hdlr with cgiexe := some cgiexe', response }, dpr'))
        (fun x h' => ∀ r, x.1.response = some r → r.body.isSome = true →
          CgiFramed fd cgiexe.cgiHeader h h' r) h₁ := by
    intro status fields file hasBody hpage hframed
    refine (wp_bind _ _ _ _).mpr (wp_seq (wp_of_yields (respFinish_given hpage) h₁) ?_)
    rintro r h₂ ⟨hgiven, new, rfl⟩ r' he hbody
    obtain rfl : r = r' := Option.some.inj he
    exact hframed r new (hgiven hbody)
  cases hresp resp rfl with
  | complete hreads hprinted hpage =>
    refine hfinish hpage fun r new hgiven => ?_
    have hall := readsFrom_append fd new h₁
    rw [hreads, List.append_assoc] at hall
    exact .complete hall hprinted hgiven (cgi_framed_iff (cgiPrinted_clean hclean hprinted) hgiven)
  | eof hreads hprinted hpage =>
    refine hfinish hpage fun r new hgiven => ?_
    have hall := readsFrom_append fd new h₁
    rw [hreads, List.append_assoc] at hall
    exact .eof hall hprinted (cgiErrorBlock_framed hgiven)

end Cgi

section Reached

/-- The header that a handler has read of its CGI program. -/
def ReadsClean (hdlr : RequestHandler) : Prop :=
  ∀ cgiexe, hdlr.cgiexe = some cgiexe → CleanHeader cgiexe.cgiHeader

variable {cfg : Config} {rhdr : RequestHeader} {hdlr : RequestHandler}

theorem serveTarget_clean (fuel : Nat) (hnone : hdlr.cgiexe = none) (t : Target) (q : Bytes)
    (isHeadReq : Bool) : Yields (S := sys) (fun r => ReadsClean r.1)
      (serveTarget fuel cfg hdlr rhdr t q isHeadReq) := by
  have hkept : ReadsClean hdlr := by
    intro cgiexe he
    rw [hnone] at he
    cases he
  unfold serveTarget
  split
  · exact Yields.seq fun _ => .pure hkept
  · refine .ite (fun _ => Yields.seq fun _ => .pure hkept) fun _ => ?_
    split
    · exact .fault
    · refine .ite (fun _ => ?_) fun _ => Yields.seq fun _ => .pure hkept
      refine (cgiexeNew_started fuel rhdr _ _ _ _).bind fun cgiexe hnew => .pure fun c he => ?_
      rw [← Option.some.inj he, hnew.2.2]
      exact cleanHeader_new

theorem doProcessRequest_clean (fuel : Nat) (hnone : hdlr.cgiexe = none) :
    Yields (S := sys) (fun r => ReadsClean r.1) (doProcessRequest fuel cfg hdlr rhdr) := by
  have hpage : ∀ p : Prog RespBuf, Yields (S := sys) (fun r => ReadsClean r.1)
      (p >>= fun resp => pure (hdlr, some resp)) := by
    intro p
    refine Yields.seq fun resp => .pure fun cgiexe he => ?_
    rw [show hdlr.cgiexe = some cgiexe from he] at hnone
    cases hnone
  unfold doProcessRequest
  refine .ite (fun _ => Yields.seq fun _ => hpage _) fun _ => .ite (fun _ => hpage _) fun _ => ?_
  refine .ite (fun _ => hpage _) fun _ => Yields.seq fun t => Yields.seq fun lacks => ?_
  refine .ite (fun _ => hpage _) fun _ => Yields.seq fun t => ?_
  exact serveTarget_clean fuel hnone t _ _

theorem reqhdlrNew_clean (fuel : Nat) (peerAddr : Option Bytes) :
    Yields (S := sys) ReadsClean (reqhdlrNew fuel cfg rhdr peerAddr) := by
  unfold reqhdlrNew
  refine .ite (fun _ => ?_) fun _ => ?_
  · exact Yields.seq fun _ => Yields.seq fun _ => Yields.seq fun _ => .pure nofun
  · exact (doProcessRequest_clean fuel rfl).bind fun r hr => Yields.seq fun _ => .pure hr

theorem cgiexeProcessData_header (fuel : Nat) (cgiexe : CgiExecutor) (data : Bytes)
    (dpr : DataProcessingResult) :
    Yields (S := sys) (fun r => r.1.cgiHeader = cgiexe.cgiHeader)
      (cgiexeProcessData fuel cgiexe data dpr) := by
  refine Yields.iterate (I := fun x => x.1.cgiHeader = cgiexe.cgiHeader) ?_ fuel rfl
  rintro ⟨c, dpr, wrtot⟩ hc
  unfold cgiWriteRound
  dsimp only
  split
  · exact .pure hc
  · refine .ite (fun _ => Yields.seq fun w => ?_) fun _ => .pure hc
    cases w with
    | wrote wr => exact .pure hc
    | fail e => exact .ite (fun _ => .pure hc) fun _ => Yields.seq fun _ => .pure hc

theorem cgiexeGetResponse_clean (fuel : Nat) {cgiexe : CgiExecutor}
    (hclean : CleanHeader cgiexe.cgiHeader) (dpr : DataProcessingResult) :
    Yields (S := sys) (fun r => CleanHeader r.1.cgiHeader)
      (cgiexeGetResponse fuel cgiexe dpr) := by
  have hround : ∀ header, CleanHeader header → Yields (S := sys)
      (Sum.elim CleanHeader fun r => CleanHeader r.1) (cgiHeaderRound cgiexe.outFd header) := by
    intro header hheader
    unfold cgiHeaderRound
    split
    · exact .pure hheader
    · refine Yields.seq fun r => ?_
      split
      · exact .pure hheader
      · exact .pure hheader
      · refine Yields.bind (Q := fun x => CleanHeader x.1) (.lift ((Sound.always _).also
          fun x hx => datahdrAppendData_clean hheader hx)) fun x hx => ?_
        split
        · exact .pure hx
        · exact .pure hx
  unfold cgiexeGetResponse
  refine (Yields.iterate hround fuel hclean).bind fun x hx => ?_
  obtain ⟨header, res⟩ := x
  cases res with
  | complete rest =>
    exact Yields.seq fun _ => Yields.seq fun _ => Yields.seq fun _ => .pure hx
  | eof =>
    exact Yields.seq fun _ => Yields.seq fun _ => Yields.seq fun _ => Yields.seq fun _ => .pure hx
  | failed e => exact .ite (fun _ => .pure hx) fun _ => .fault

theorem awaitCgiResponse_clean (fuel : Nat) (hclean : ReadsClean hdlr)
    (dpr : DataProcessingResult) :
    Yields (S := sys) (fun r => ReadsClean r.1) (awaitCgiResponse fuel hdlr dpr) := by
  unfold awaitCgiResponse
  split
  · rename_i cgiexe _ hcgi
    refine (cgiexeGetResponse_clean fuel (hclean cgiexe hcgi) dpr).bind fun r hr => ?_
    refine Yields.seq fun _ => .pure fun c he => ?_
    rw [← Option.some.inj he]
    exact hr
  · exact .pure hclean

/-- Whatever is made of a handler, the header that it reads of its CGI program stays clean. -/
theorem Answering.readsClean {sock : Fd} {start : RequestHandler} {sent : Bytes}
    (hstart : ReadsClean start) (ha : Answering cfg rhdr sock start hdlr sent) :
    ReadsClean hdlr := by
  induction ha with
  | start => exact hstart
  | @body fuel n hdlr hdlr' sent data dpr dpr' h h' _ hrun ih =>
    refine Yields.returns (Q := fun r => ReadsClean r.1) ?_ hrun
    unfold reqhdlrProcessData
    split
    · exact Yields.seq fun _ => .pure ih
    · rename_i cgiexe _ hcgi
      refine (cgiexeProcessData_header fuel cgiexe data dpr).bind fun r hr => .pure fun c he => ?_
      rw [← Option.some.inj he, hr]
      exact ih cgiexe hcgi
    · exact .pure ih
  | @completed fuel hdlr hdlr' sent rhdr' h h' _ _ _ hrun ih =>
    refine Yields.returns (Q := ReadsClean) ?_ hrun
    unfold reqhdlrRequestReadCompleted
    split
    · rename_i cgiexe hcgi
      refine Yields.bind (Q := fun c => c.cgiHeader = cgiexe.cgiHeader) (Yields.seq fun _ =>
        .pure rfl) fun c hc => .pure fun c' he => ?_
      rw [← Option.some.inj he, hc]
      exact ih cgiexe hcgi
    · exact .pure ih
    · exact Yields.seq fun _ => Yields.seq fun _ => .pure ih
  | progress _ hrun ih =>
    refine Yields.returns (Q := fun r => ReadsClean r.1) ?_ hrun
    refine (awaitCgiResponse_clean _ ih _).bind fun r hr => ?_
    obtain ⟨hdlr, dpr⟩ := r
    cases hresp : hdlr.response with
    | none =>
      simp only [hresp]
      exact .pure hr
    | some response =>
      simp only [hresp]
      exact Yields.seq fun _ => .pure hr

end Reached

/-- What the block of every response with a body depends on: of the server's own responses, the
lines that the values begin; of those of a CGI program, the names of the lines it printed. -/
structure FramedExactly (cfg : Config) (rhdr : RequestHeader) : Prop where
  at_once : ∀ fuel peerAddr h hdlr h' r,
    Runs posix (reqhdlrNew fuel cfg rhdr peerAddr) h (.done hdlr) h' →
    hdlr.response = some r → r.body.isSome = true → OwnFramed (reqhdrGetPath rhdr) r
  later : ∀ fuel hdlr h hdlr' h' r, hdlr.response = none →
    Runs posix (reqhdlrRequestReadCompleted fuel cfg hdlr rhdr) h (.done hdlr') h' →
    hdlr'.response = some r → r.body.isSome = true → OwnFramed (reqhdrGetPath rhdr) r
  cgi : ∀ fuel peerAddr h start h' sock hdlr sent,
    Runs posix (reqhdlrNew fuel cfg rhdr peerAddr) h (.done start) h' →
    Answering cfg rhdr sock start hdlr sent → hdlr.response = none →
    ∀ fuel dpr h hdlr' dpr' h' r cgiexe, hdlr.cgiexe = some cgiexe →
      Runs posix (awaitCgiResponse fuel hdlr dpr) h (.done (hdlr', dpr')) h' →
      hdlr'.response = some r → r.body.isSome = true →
      ∃ fd, cgiexe.outFd = some fd ∧ CgiFramed fd cgiexe.cgiHeader h h' r

/-- A CGI program without a descriptor to read from gives no response. -/
theorem awaitCgiResponse_reads {hdlr : RequestHandler} {cgiexe : CgiExecutor}
    (hnone : hdlr.response = none) (hcgi : hdlr.cgiexe = some cgiexe)
    (hfd : cgiexe.outFd = none) (fuel : Nat) (dpr : DataProcessingResult) :
    Yields (S := sys) (fun r => r.1.response = none) (awaitCgiResponse fuel hdlr dpr) := by
  unfold awaitCgiResponse cgiexeGetResponse
  rw [hnone, hcgi]
  dsimp only
  rw [hfd]
  cases fuel with
  | zero => exact .fault
  | succ fuel => exact .fault

/-- A request for the output of a CGI program. -/
def scriptHeader : RequestHeader := { headHeader with request := ascii "GET" }

/-- What the program prints: it announces the length of its text. -/
def printedLength : Bytes := ascii "Content-Length: 5\n\nhello"

/-- A program whose output comes through a pipe. -/
def printing (fd : Fd) (data : Bytes) : Environment := fun h c =>
  match c with
  | .fstat _ => ⟨.ok ⟨false, false, 0o600, 0⟩, trivial⟩
  | c => sending fd data h c

/-- The handler of the request. -/
def scriptHandler : RequestHandler := ⟨none, none, some ⟨false, some 2, some 3, datahdrNew⟩, none⟩

end FilemanagerHttpd.Audit
