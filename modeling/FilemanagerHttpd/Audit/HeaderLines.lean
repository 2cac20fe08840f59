import FilemanagerHttpd.Library.Lines
import FilemanagerHttpd.Server.DataHeader
import FilemanagerHttpd.Audit.BufferBytes

/-!
# The header parsers as readers of lines

Both parsers are instances of one reader, so for bytes without a zero both are given by
what they do with one byte, however the text is cut.
-/

namespace FilemanagerHttpd.Audit

open Library Server

theorem splitAtByte_cuts : LineReader.Cuts (splitAtByte lf) := by
  intro text
  induction text with
  | nil => simp [splitAtByte]
  | cons b rest ih =>
    rw [splitAtByte]
    by_cases hb : b = lf
    · rw [if_pos hb]; subst hb; simp [lf]
    · rw [if_neg hb]
      cases hr : splitAtByte lf rest with
      | none =>
        rw [hr] at ih
        simpa using ⟨fun h => hb h.symm, ih⟩
      | some p =>
        obtain ⟨piece, tail⟩ := p
        rw [hr] at ih
        obtain ⟨hp, hrest⟩ := ih
        refine ⟨?_, by simp [hrest]⟩
        simpa using ⟨fun h => hb h.symm, hp⟩

theorem cstr_eq_counted (b : Bytes) : cstr b = counted b := rfl

/-- The lines of a part or CGI header. -/
def datahdrReader : LineReader DataHeader Fault where
  line hdr := hdr.current
  setLine hdr l := { hdr with current := l }
  complete hdr :=
    if cstr (stripCr hdr.current) = [] then
      .ok ({ hdr with current := stripCr hdr.current }, true)
    else (datahdrAddLine hdr (stripCr hdr.current)).map fun hdr => (hdr, false)
  limit := uintSize - 1
  tooLong := .heapOverflow
  line_setLine _ _ := rfl
  setLine_setLine _ _ _ := rfl

/-- The lines of a request header, the request line among them. -/
def reqhdrReader (cfg : Config) : LineReader RequestHeader Fault where
  line req := match req.path with
    | none => req.request
    | some _ => req.current
  setLine req l := match req.path with
    | none => { req with request := l }
    | some _ => { req with current := l }
  complete req := match req.path with
    | none =>
      let req := { req with request := stripCr req.request }
      .ok (if cstr req.request = [] then req else decodeRequestStartLine req, false)
    | some _ =>
      if cstr (stripCr req.current) = [] then
        .ok ({ req with current := stripCr req.current }, true)
      else (reqhdrAddLine cfg req (stripCr req.current)).map fun req => (req, false)
  limit := uintSize - 1
  tooLong := .heapOverflow
  line_setLine req l := by cases req.path <;> rfl
  setLine_setLine req l l' := by cases req.path <;> rfl

theorem extendLine_eq (line piece : Bytes) :
    extendLine line piece =
      if (counted line).length + piece.length < uintSize - 1
      then .ok (counted line ++ piece) else .error .heapOverflow := by
  unfold extendLine
  rw [cstr_eq_counted]
  by_cases h : (counted line).length + piece.length + 1 < uintSize
  · rw [if_pos h, if_pos (by omega)]
  · rw [if_neg h, if_neg (by omega)]

theorem datahdr_extend (hdr : DataHeader) (piece : Bytes) :
    datahdrReader.extend hdr piece =
      (extendLine hdr.current piece).map fun l => { hdr with current := l } := by
  rw [extendLine_eq, LineReader.extend]
  have hl : datahdrReader.limit = uintSize - 1 := rfl
  have hc : datahdrReader.line hdr = hdr.current := rfl
  rw [hl, hc]
  split <;> rfl

theorem datahdr_complete (hdr : DataHeader) (l : Bytes) :
    datahdrReader.complete { hdr with current := l } =
      if cstr (stripCr l) = [] then .ok ({ hdr with current := stripCr l }, true)
      else (datahdrAddLine hdr (stripCr l)).map fun hdr => (hdr, false) := rfl

theorem datahdrAppendLoop_eq (n : Nat) (hdr : DataHeader) (bol : Bytes) :
    datahdrAppendLoop n hdr bol = datahdrReader.lines (splitAtByte lf) n hdr bol := by
  induction n generalizing hdr bol with
  | zero => rfl
  | succ n ih =>
    rw [datahdrAppendLoop, LineReader.lines]
    by_cases hnil : bol = []
    · rw [if_pos hnil, if_pos hnil]
    rw [if_neg hnil, if_neg hnil]
    cases splitAtByte lf bol with
    | none =>
      simp only [datahdr_extend]
      cases extendLine hdr.current bol <;> rfl
    | some p =>
      obtain ⟨piece, rest⟩ := p
      simp only [datahdr_extend]
      cases extendLine hdr.current piece with
      | error e => rfl
      | ok line =>
        simp only [bind, Except.bind, Except.map, datahdr_complete]
        by_cases hend : cstr (stripCr line) = []
        · rw [if_pos hend, if_pos hend]; rfl
        · rw [if_neg hend, if_neg hend]
          cases datahdrAddLine hdr (stripCr line) with
          | error e => rfl
          | ok hdr' => exact ih hdr' rest

theorem reqhdr_extend (cfg : Config) (req : RequestHeader) (piece : Bytes) :
    (reqhdrReader cfg).extend req piece =
      (extendLine ((reqhdrReader cfg).line req) piece).map ((reqhdrReader cfg).setLine req) := by
  rw [extendLine_eq, LineReader.extend]
  have hl : (reqhdrReader cfg).limit = uintSize - 1 := rfl
  rw [hl]
  split <;> rfl

/-- What is kept of the line before does not matter when a line is added. -/
theorem reqhdrAddLine_current (cfg : Config) (req : RequestHeader) (l line : Bytes) :
    reqhdrAddLine cfg { req with current := l } line = reqhdrAddLine cfg req line := by
  unfold reqhdrAddLine
  cases splitAtByte colon (cstr line) with
  | none => rfl
  | some p =>
    obtain ⟨name, value⟩ := p
    simp only [checkAuthorization]
    by_cases hauth : req.loginState = .loggedOut ∧ eqIgnoreCase name (ascii "Authorization") = true
    · rw [if_pos hauth, if_pos hauth]
      simp only [reqhdrGetMethod]
      cases authIsClientAuthorized cfg value req.request <;> rfl
    · rw [if_neg hauth, if_neg hauth]; rfl

theorem reqhdrAppendLoop_eq (cfg : Config) (n : Nat) (req : RequestHeader) (bol : Bytes) :
    reqhdrAppendLoop cfg n req bol = (reqhdrReader cfg).lines (splitAtByte lf) n req bol := by
  induction n generalizing req bol with
  | zero => rfl
  | succ n ih =>
    rw [reqhdrAppendLoop, LineReader.lines]
    by_cases hnil : bol = []
    · rw [if_pos hnil, if_pos hnil]
    rw [if_neg hnil, if_neg hnil]
    obtain ⟨request, path, query, version, headers, current, loginState⟩ := req
    cases path with
    | none =>
      have hline : (reqhdrReader cfg).line
          ⟨request, none, query, version, headers, current, loginState⟩ = request := rfl
      cases splitAtByte lf bol with
      | none =>
        simp only [reqhdr_extend, hline]
        cases extendLine request bol <;> rfl
      | some p =>
        obtain ⟨piece, rest⟩ := p
        simp only [reqhdr_extend, hline]
        cases extendLine request piece with
        | error e => rfl
        | ok line =>
          have hcomplete : (reqhdrReader cfg).complete
              ⟨line, none, query, version, headers, current, loginState⟩ =
              .ok (if cstr (stripCr line) = []
                then ⟨stripCr line, none, query, version, headers, current, loginState⟩
                else decodeRequestStartLine
                  ⟨stripCr line, none, query, version, headers, current, loginState⟩, false) := rfl
          have hset : (reqhdrReader cfg).setLine
              ⟨request, none, query, version, headers, current, loginState⟩ line =
              ⟨line, none, query, version, headers, current, loginState⟩ := rfl
          simp only [bind, Except.bind, Except.map, hset, hcomplete]
          by_cases hend : cstr (stripCr line) = []
          · rw [if_pos hend, if_pos hend]; exact ih _ rest
          · rw [if_neg hend, if_neg hend]; exact ih _ rest
    | some path =>
      have hline : (reqhdrReader cfg).line
          ⟨request, some path, query, version, headers, current, loginState⟩ = current := rfl
      cases splitAtByte lf bol with
      | none =>
        simp only [reqhdr_extend, hline]
        cases extendLine current bol <;> rfl
      | some p =>
        obtain ⟨piece, rest⟩ := p
        simp only [reqhdr_extend, hline]
        cases extendLine current piece with
        | error e => rfl
        | ok line =>
          have hset : (reqhdrReader cfg).setLine
              ⟨request, some path, query, version, headers, current, loginState⟩ line =
              ⟨request, some path, query, version, headers, line, loginState⟩ := rfl
          have hcomplete : (reqhdrReader cfg).complete
              ⟨request, some path, query, version, headers, line, loginState⟩ =
              if cstr (stripCr line) = [] then
                .ok (⟨request, some path, query, version, headers, stripCr line, loginState⟩, true)
              else (reqhdrAddLine cfg
                ⟨request, some path, query, version, headers, line, loginState⟩
                (stripCr line)).map fun req => (req, false) := rfl
          have hadd := reqhdrAddLine_current cfg
            ⟨request, some path, query, version, headers, current, loginState⟩ line (stripCr line)
          simp only [bind, Except.bind, Except.map, hset, hcomplete]
          by_cases hend : cstr (stripCr line) = []
          · rw [if_pos hend, if_pos hend]; rfl
          · rw [if_neg hend, if_neg hend, hadd]
            cases reqhdrAddLine cfg
                ⟨request, some path, query, version, headers, current, loginState⟩
                (stripCr line) with
            | error e => rfl
            | ok req' => exact ih req' rest

/-- For bytes without a zero, a part or CGI header is read byte by byte. -/
theorem datahdrAppendData_eq {hdr : DataHeader} {data : Bytes} (hnul : nul ∉ data) :
    datahdrAppendData hdr data = (feed datahdrReader.byte hdr data).map
      fun r => (r.1, r.2.map fun rest => data.length - rest.length) := by
  rw [datahdrAppendData, datahdrAppendLoop_eq,
    datahdrReader.lines_eq_feed splitAtByte_cuts (le_refl _) hnul]
  cases feed datahdrReader.byte hdr data <;> rfl

/-- For bytes without a zero, a request header is read byte by byte. -/
theorem reqhdrAppendData_eq {cfg : Config} {req : RequestHeader} {data : Bytes}
    (hnul : nul ∉ data) :
    reqhdrAppendData cfg req data = (feed (reqhdrReader cfg).byte req data).map
      fun r => (r.1, r.2.map fun rest => data.length - rest.length) := by
  rw [reqhdrAppendData, reqhdrAppendLoop_eq,
    (reqhdrReader cfg).lines_eq_feed splitAtByte_cuts (le_refl _) hnul]
  cases feed (reqhdrReader cfg).byte req data <;> rfl

theorem reqhdrAppendData_reader (cfg : Config) :
    reqhdrAppendData cfg = (reqhdrReader cfg).append (splitAtByte lf) := by
  funext req data
  rw [reqhdrAppendData, reqhdrAppendLoop_eq, LineReader.append]
  cases (reqhdrReader cfg).lines (splitAtByte lf) data.length req data <;> rfl

theorem datahdrAppendData_reader :
    datahdrAppendData = datahdrReader.append (splitAtByte lf) := by
  funext hdr data
  rw [datahdrAppendData, datahdrAppendLoop_eq, LineReader.append]
  cases datahdrReader.lines (splitAtByte lf) data.length hdr data <;> rfl

/-- Bytes behind a request header or a trailer are left, zeros among them or not. -/
theorem reqhdrAppendData_append {cfg : Config} {req : RequestHeader} {t : Bytes} (u : Bytes)
    (hnul : nul ∉ t) (hend : ∀ req', feed (reqhdrReader cfg).byte req t ≠ .ok (req', none)) :
    reqhdrAppendData cfg req (t ++ u) = (feed (reqhdrReader cfg).byte req t).map
      fun r => (r.1, r.2.map fun rest => t.length - rest.length) := by
  rw [reqhdrAppendData_reader]
  exact (reqhdrReader cfg).append_front splitAtByte_cuts u hnul hend

/-- Calls of `reqhdr_appendData` that have all returned -1. -/
inductive CallsOpen (cfg : Config) : RequestHeader → List Bytes → RequestHeader → Prop
  | nil (req : RequestHeader) : CallsOpen cfg req [] req
  | cons {req req' req'' : RequestHeader} {piece : Bytes} {pieces : List Bytes} :
      reqhdrAppendData cfg req piece = .ok (req', none) → CallsOpen cfg req' pieces req'' →
      CallsOpen cfg req (piece :: pieces) req''

/-- A call that returns -1 reads its bytes one by one. -/
theorem reqhdrAppendData_open_iff {cfg : Config} {req req' : RequestHeader} {piece : Bytes}
    (hnul : nul ∉ piece) :
    reqhdrAppendData cfg req piece = .ok (req', none) ↔
      feed (reqhdrReader cfg).byte req piece = .ok (req', none) := by
  rw [reqhdrAppendData_eq hnul]
  cases feed (reqhdrReader cfg).byte req piece with
  | error e => simp [Except.map]
  | ok r =>
    obtain ⟨r₁, rest⟩ := r
    cases rest with
    | none => simp [Except.map]
    | some rest => simp [Except.map]

theorem callsOpen_iff {cfg : Config} {req req' : RequestHeader} {pieces : List Bytes}
    (hnul : nul ∉ pieces.flatten) :
    CallsOpen cfg req pieces req' ↔
      feed (reqhdrReader cfg).byte req pieces.flatten = .ok (req', none) := by
  induction pieces generalizing req with
  | nil =>
    constructor
    · rintro ⟨⟩; rfl
    · intro h
      obtain rfl : req = req' := (Prod.mk.inj (Except.ok.inj h)).1
      exact .nil req
  | cons piece pieces ih =>
    rw [List.flatten_cons] at hnul ⊢
    have hpiece : nul ∉ piece := fun h => hnul (List.mem_append_left _ h)
    have hrest : nul ∉ pieces.flatten := fun h => hnul (List.mem_append_right _ h)
    rw [feed_append]
    constructor
    · intro h
      cases h with
      | cons h₁ h₂ =>
        rw [(reqhdrAppendData_open_iff hpiece).mp h₁]
        exact (ih hrest).mp h₂
    · intro h
      cases hf : feed (reqhdrReader cfg).byte req piece with
      | error e => rw [hf] at h; cases h
      | ok r =>
        obtain ⟨r₁, rest⟩ := r
        rw [hf] at h
        cases rest with
        | none => exact .cons ((reqhdrAppendData_open_iff hpiece).mpr hf) ((ih hrest).mpr h)
        | some rest => exact nomatch (Prod.mk.inj (Except.ok.inj h)).2

/-- A header text that is read to its end is read so in every cutting, whatever follows it. -/
theorem cut_header_iff {cfg : Config} {req : RequestHeader} {text rest last : Bytes}
    {pieces : List Bytes} (hnul : nul ∉ text)
    (hend : ∀ req', feed (reqhdrReader cfg).byte req text ≠ .ok (req', none))
    (hcut : pieces.flatten ++ last = text ++ rest) (hlast : pieces.flatten.length < text.length)
    (req'' : RequestHeader) :
    (∃ req', CallsOpen cfg req pieces req' ∧ reqhdrAppendData cfg req' last =
        .ok (req'', some (text.length - pieces.flatten.length))) ↔
      feed (reqhdrReader cfg).byte req text = .ok (req'', some []) := by
  obtain ⟨tail, rfl, rfl⟩ : ∃ tail, text = pieces.flatten ++ tail ∧ last = tail ++ rest := by
    rcases List.append_eq_append_iff.mp hcut with ⟨q, h₁, h₂⟩ | ⟨q, h₁, h₂⟩
    · exact ⟨q, h₁, h₂⟩
    · exact absurd (h₁ ▸ hlast) (by rw [List.length_append]; omega)
  have hpieces : nul ∉ pieces.flatten := fun h => hnul (List.mem_append_left _ h)
  have htail : nul ∉ tail := fun h => hnul (List.mem_append_right _ h)
  have hne : tail ≠ [] := by
    rintro rfl
    rw [List.append_nil] at hlast
    exact lt_irrefl _ hlast
  have hlen : (pieces.flatten ++ tail).length - pieces.flatten.length = tail.length := by
    rw [List.length_append]; omega
  rw [hlen, feed_append]
  rw [feed_append] at hend
  cases hf : feed (reqhdrReader cfg).byte req pieces.flatten with
  | error e =>
    constructor
    · rintro ⟨req', hopen, -⟩
      rw [(callsOpen_iff hpieces).mp hopen] at hf
      cases hf
    · exact nofun
  | ok r =>
    obtain ⟨req₁, left⟩ := r
    rw [hf] at hend
    cases left with
    | some left =>
      constructor
      · rintro ⟨req', hopen, -⟩
        rw [(callsOpen_iff hpieces).mp hopen] at hf
        cases hf
      · intro h
        have hnil : left ++ tail = [] := Option.some.inj (Prod.mk.inj (Except.ok.inj h)).2
        exact absurd (List.append_eq_nil_iff.mp hnil).2 hne
    | none =>
      have hcall := reqhdrAppendData_append rest htail hend
      constructor
      · rintro ⟨req', hopen, hlastcall⟩
        have hreq : req₁ = req' := by
          have heq := hf.symm.trans ((callsOpen_iff hpieces).mp hopen)
          exact (Prod.mk.inj (Except.ok.inj heq)).1
        subst hreq
        rw [hcall] at hlastcall
        simp only at hend ⊢
        cases hft : feed (reqhdrReader cfg).byte req₁ tail with
        | error e => rw [hft] at hlastcall; cases hlastcall
        | ok r =>
          obtain ⟨req₂, left⟩ := r
          rw [hft] at hlastcall hend
          cases left with
          | none => exact absurd rfl (hend req₂)
          | some left =>
            obtain ⟨h₁, h₂⟩ := Prod.mk.inj (Except.ok.inj hlastcall)
            have hcount : tail.length - left.length = tail.length := Option.some.inj h₂
            obtain ⟨taken, htaken, he⟩ := feed_rest hft
            have hshort : left = [] := by
              have hsum : tail.length = taken.length + left.length := by
                rw [he, List.length_append]
              have hpos : 0 < taken.length := List.length_pos_iff.mpr htaken
              exact List.eq_nil_of_length_eq_zero (by omega)
            have hreq : req₂ = req'' := h₁
            rw [hshort, hreq]
      · intro h
        have hft : feed (reqhdrReader cfg).byte req₁ tail = .ok (req'', some []) := h
        refine ⟨req₁, (callsOpen_iff hpieces).mpr hf, ?_⟩
        rw [hcall, hft]
        rfl

/-- A line of a header block: not empty, without line end and zero. -/
structure HeaderLine (l : Bytes) : Prop where
  no_lf : lf ∉ l
  no_nul : nul ∉ l
  not_empty : stripCr l ≠ []

/-- The bytes of lines, each ended by a line feed. -/
def withEnds (lines : List Bytes) : Bytes := lines.flatMap fun l => l ++ [lf]

/-- A header block: lines, and the first empty one behind them. -/
structure HeaderBlock (lines : List Bytes) (block : Bytes) : Prop where
  lines_ok : ∀ l ∈ lines, HeaderLine l
  block_eq : block = withEnds lines ++ [lf] ∨ block = withEnds lines ++ crlf

/-- What the parser keeps of a line: the name and the value of a line with a colon. -/
def headerOf (l : Bytes) : Option (Bytes × Bytes) := splitAtByte colon (stripCr l)

theorem not_mem_stripCr {l : Bytes} {b : Byte} (h : b ∉ l) : b ∉ stripCr l := by
  unfold stripCr
  split
  · exact fun hm => h (List.mem_of_mem_dropLast hm)
  · exact h

theorem datahdr_extend_fresh {hdr : DataHeader} (hcur : cstr hdr.current = []) (l : Bytes) :
    datahdrReader.extend hdr l = if l.length < uintSize - 1
      then .ok { hdr with current := l } else .error .heapOverflow := by
  have hc : counted (datahdrReader.line hdr) = [] := hcur
  have hl : datahdrReader.limit = uintSize - 1 := rfl
  rw [LineReader.extend, hc, hl]
  simp only [List.length_nil, Nat.zero_add, List.nil_append]
  rfl

theorem datahdrAddLine_ok {hdr hdr' : DataHeader} {l : Bytes} (hnul : nul ∉ l)
    (h : datahdrAddLine hdr (stripCr l) = .ok hdr') :
    hdr'.current = [] ∧ hdr'.lines = hdr.lines ++ (headerOf l).toList := by
  rw [datahdrAddLine, cstr_eq_self (not_mem_stripCr hnul)] at h
  unfold headerOf
  cases hs : splitAtByte colon (stripCr l) with
  | none =>
    rw [hs] at h
    injection h with h
    subst h
    simp
  | some header =>
    rw [hs] at h
    simp only at h
    split at h
    · injection h with h
      subst h
      simp
    · cases h

/-- A header block is read up to its end, and its lines are kept. -/
theorem feed_headerBlock {lines : List Bytes} {block rest : Bytes} (hb : HeaderBlock lines block)
    {hdr : DataHeader} (hcur : cstr hdr.current = []) {r : DataHeader × Option Bytes}
    (h : feed datahdrReader.byte hdr (block ++ rest) = .ok r) :
    r.2 = some rest ∧ r.1.lines = hdr.lines ++ lines.filterMap headerOf := by
  obtain ⟨hlines, hblock⟩ := hb
  -- the empty line, in either spelling
  obtain ⟨fin, hfin, rfl⟩ : ∃ fin, (fin = [] ∨ fin = [cr]) ∧
      block = withEnds lines ++ (fin ++ [lf]) := by
    rcases hblock with h | h
    · exact ⟨[], .inl rfl, by simpa using h⟩
    · exact ⟨[cr], .inr rfl, h⟩
  clear hblock
  induction lines generalizing hdr with
  | nil =>
    have hlf : (10 : UInt8) ∉ fin := by rcases hfin with rfl | rfl <;> decide
    have hnul : (0 : UInt8) ∉ fin := by rcases hfin with rfl | rfl <;> decide
    have hstrip : cstr (stripCr fin) = [] := by rcases hfin with rfl | rfl <;> decide
    have hlen : fin.length < uintSize - 1 := by rcases hfin with rfl | rfl <;> decide
    have hfeed := datahdrReader.feed_piece (s := hdr) hlf hnul rest
    simp only [withEnds, List.flatMap_nil, List.nil_append, List.append_assoc,
      List.singleton_append] at h
    rw [show lf = (10 : UInt8) from rfl, hfeed, datahdr_extend_fresh hcur, if_pos hlen] at h
    simp only [datahdr_complete, hstrip, if_true, Except.ok.injEq] at h
    subst h
    simp
  | cons l lines ih =>
    have hl := hlines l (by simp)
    have hfeed := datahdrReader.feed_piece (s := hdr) hl.no_lf hl.no_nul
      (withEnds lines ++ (fin ++ [lf]) ++ rest)
    have htext : withEnds (l :: lines) ++ (fin ++ [lf]) ++ rest =
        l ++ 10 :: (withEnds lines ++ (fin ++ [lf]) ++ rest) := by
      simp [withEnds, lf]
    rw [htext, hfeed, datahdr_extend_fresh hcur] at h
    by_cases hlen : l.length < uintSize - 1
    · rw [if_pos hlen] at h
      have hne : ¬ cstr (stripCr l) = [] := by
        rw [cstr_eq_self (not_mem_stripCr hl.no_nul)]; exact hl.not_empty
      simp only [datahdr_complete, if_neg hne] at h
      cases hadd : datahdrAddLine hdr (stripCr l) with
      | error e => rw [hadd] at h; cases h
      | ok hdr' =>
        rw [hadd] at h
        obtain ⟨hcur', hlines'⟩ := datahdrAddLine_ok hl.no_nul hadd
        obtain ⟨hrest, hkept⟩ := ih (by rw [hcur']; rfl) (fun x hx => hlines x (by simp [hx])) h
        refine ⟨hrest, ?_⟩
        rw [hkept, hlines', List.append_assoc, List.filterMap_cons]
        cases headerOf l <;> rfl
    · rw [if_neg hlen] at h
      cases h

end FilemanagerHttpd.Audit
