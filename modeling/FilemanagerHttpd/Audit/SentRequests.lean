import FilemanagerHttpd.Audit.HeaderLines
import FilemanagerHttpd.Audit.RequestReader
import FilemanagerHttpd.Audit.Texts

/-!
# Requests as a client sends them

A request is a header and a body, whose length the header tells or which comes in chunks with a
trailer behind them. Whatever the pieces in which a reader receives requests one behind the other,
it gives the handlers what was sent: headers, bytes and completions, in their order.
-/

namespace FilemanagerHttpd.Audit

open Library Server

variable {cfg : Config}

/-- Header lines that are read to their end, and not further. -/
structure LinesText (cfg : Config) (req : RequestHeader) (text : Bytes) (header : RequestHeader) :
    Prop where
  whole : nul ∉ text
  read : feed (reqhdrReader cfg).byte req text = .ok (header, some [])

/-- The chunks of a body: their text, their bytes, and the trailer behind the last one. -/
inductive ChunkText : Bytes → Bytes → Bytes → Prop
  | last {line trailer : Bytes} : lf ∉ line → strtoul 16 line % uintSize = 0 →
      ChunkText (line ++ lf :: trailer) [] trailer
  | chunk {line data text later trailer : Bytes} : lf ∉ line → data ≠ [] →
      strtoul 16 line % uintSize = data.length → ChunkText text later trailer →
      ChunkText (line ++ lf :: (data ++ (crlf ++ text))) (data ++ later) trailer

/-- The text of a body, as its header announces it. -/
inductive BodyText (cfg : Config) (header : RequestHeader) : Bytes → Bytes → Prop
  | counted {body : Bytes} : reqhdrIsChunkedTransferEncoding header = false →
      announcedLen header 0 = body.length → BodyText cfg header body body
  | chunked {text body trailer : Bytes} {header' : RequestHeader} :
      reqhdrIsChunkedTransferEncoding header = true → ChunkText text body trailer →
      LinesText cfg header trailer header' → BodyText cfg header text body

/-- A request as a client sends it. -/
structure SentRequest (cfg : Config) where
  head : Bytes
  header : RequestHeader
  tail : Bytes
  body : Bytes
  opens : LinesText cfg reqhdrNew head header
  carries : BodyText cfg header tail body
  fits : body.length + readBufferSize < ulongSize

/-- What the handlers are given. -/
inductive Handed
  | header (header : RequestHeader)
  | byte (b : Byte)
  | completed

/-- What the handler of a request is to be given. -/
def SentRequest.given (r : SentRequest cfg) : List Handed :=
  .header r.header :: (r.body.map .byte ++ [.completed])

def sentText (rs : List (SentRequest cfg)) : Bytes := rs.flatMap fun r => r.head ++ r.tail

def sentGiven (rs : List (SentRequest cfg)) : List Handed := rs.flatMap SentRequest.given

/-- What the handlers have been given. -/
def givenBy (shown : List ReadLabel) : List Handed := shown.flatMap fun l =>
  match l with
  | .received _ => []
  | .created header => [.header header]
  | .consumed data => data.map .byte
  | .completed => [.completed]

theorem givenBy_append (shown new : List ReadLabel) :
    givenBy (shown ++ new) = givenBy shown ++ givenBy new := List.flatMap_append

section Headers

variable {req header : RequestHeader} {more ahead rest tail : Bytes}

theorem LinesText.ne_nil (ht : LinesText cfg req more header) : more ≠ [] := by
  rintro rfl
  cases (Prod.mk.inj (Except.ok.inj ht.read)).2

/-- Lines of which the beginning has arrived: they are incomplete, or what is behind them is
left. -/
theorem LinesText.arrives (ht : LinesText cfg req more header)
    (htext : ahead ++ rest = more ++ tail) :
    (∃ req' left, reqhdrAppendData cfg req ahead = .ok (req', none) ∧
      LinesText cfg req' left header ∧ rest = left ++ tail) ∨
    ∃ later, reqhdrAppendData cfg req ahead = .ok (header, some more.length) ∧
      ahead = more ++ later ∧ tail = later ++ rest := by
  have hend : ∀ req', feed (reqhdrReader cfg).byte req more ≠ .ok (req', none) := by
    intro req' he
    rw [ht.read] at he
    cases he
  have hwhole (later : Bytes) :
      reqhdrAppendData cfg req (more ++ later) = .ok (header, some more.length) := by
    rw [reqhdrAppendData_append later ht.whole hend, ht.read]
    rfl
  rcases List.append_eq_append_iff.mp htext with ⟨left, rfl, rfl⟩ | ⟨later, rfl, rfl⟩
  · by_cases hnil : left = []
    · subst hnil
      rw [List.append_nil] at hwhole
      have hall := hwhole []
      rw [List.append_nil] at hall
      exact .inr ⟨[], by rwa [List.append_nil], by rw [List.append_nil, List.append_nil], rfl⟩
    · left
      have hread := ht.read
      rw [feed_append] at hread
      have hnul : nul ∉ ahead := fun hm => ht.whole (List.mem_append_left _ hm)
      cases hf : feed (reqhdrReader cfg).byte req ahead with
      | error e =>
        rw [hf] at hread
        cases hread
      | ok r =>
        obtain ⟨req', left'⟩ := r
        rw [hf] at hread
        cases left' with
        | none =>
          exact ⟨req', left, (reqhdrAppendData_open_iff hnul).mpr hf,
            ⟨fun hm => ht.whole (List.mem_append_right _ hm), hread⟩, rfl⟩
        | some left' =>
          have hempty := Option.some.inj (Prod.mk.inj (Except.ok.inj hread)).2
          exact absurd (List.append_eq_nil_iff.mp hempty).2 hnil
  · exact .inr ⟨later, hwhole later, rfl, rfl⟩

end Headers

/-- Nothing of a request has been read. -/
structure Unbegun (s : ReadState) : Prop where
  chunkHdr : s.chunkHdr = none
  bodyLen : s.bodyLen = 0
  bodyReadLen : s.bodyReadLen = 0
  owed : s.owed = false

/-- The lines that a header still needs; the requests are all there before the first byte of the
next one. -/
inductive HeadLeft (cfg : Config) (header : RequestHeader) : Bytes → List Handed → Prop
  | ended : header = reqhdrNew → HeadLeft cfg header [] []
  | more {lines : Bytes} (r : SentRequest cfg) (rs : List (SentRequest cfg)) :
      LinesText cfg header lines r.header →
      HeadLeft cfg header (lines ++ (r.tail ++ sentText rs)) (r.given ++ sentGiven rs)

/-- The bytes that a body, or a chunk, still needs. -/
inductive BodyLeft (cfg : Config) (s : ReadState) : Bytes → List Handed → Prop
  | counted {left : Bytes} (rs : List (SentRequest cfg)) : s.chunkHdr = none →
      s.bodyReadLen + left.length = s.bodyLen → s.bodyLen + readBufferSize < ulongSize →
      BodyLeft cfg s (left ++ sentText rs) (left.map .byte ++ .completed :: sentGiven rs)
  | chunked {chunkHdr : MemBuf} {left pending text later trailer : Bytes} {header : RequestHeader}
      (rs : List (SentRequest cfg)) : s.chunkHdr = some chunkHdr → lf ∉ chunkHdr.data.drop 2 →
      s.bodyReadLen + left.length = s.bodyLen →
      s.bodyLen + later.length + readBufferSize < ulongSize → ChunkText text later trailer →
      LinesText cfg s.header trailer header →
      chunkHdr.data ++ pending = crlf ++ (text ++ sentText rs) →
      BodyLeft cfg s (left ++ pending)
        ((left ++ later).map .byte ++ .completed :: sentGiven rs)

/-- A chunk, or the line end before the first one, is complete. -/
theorem BodyLeft.atLine {s : ReadState} {chunkHdr : MemBuf} {pending text later trailer : Bytes}
    {header : RequestHeader} (rs : List (SentRequest cfg)) (hchunk : s.chunkHdr = some chunkHdr)
    (hlf : lf ∉ chunkHdr.data.drop 2) (hall : s.bodyReadLen = s.bodyLen)
    (hfits : s.bodyLen + later.length + readBufferSize < ulongSize)
    (hchunks : ChunkText text later trailer) (htrailer : LinesText cfg s.header trailer header)
    (hpending : chunkHdr.data ++ pending = crlf ++ (text ++ sentText rs)) :
    BodyLeft cfg s pending (later.map .byte ++ .completed :: sentGiven rs) := by
  have hnone : s.bodyReadLen + ([] : Bytes).length = s.bodyLen := hall
  exact .chunked rs hchunk hlf hnone hfits hchunks htrailer hpending

/-- What a reader makes of the text that it has not processed: what is still to be given. -/
def Expecting (cfg : Config) (s : ReadState) (text : Bytes) (left : List Handed) : Prop :=
  match s.rrs with
  | .idle => Unbegun s ∧ ∃ rs : List (SentRequest cfg), text = sentText rs ∧ left = sentGiven rs
  | .readHead => Unbegun s ∧ HeadLeft cfg s.header text left
  | .readBody => s.owed = false ∧ BodyLeft cfg s text left
  | .readTrailer => s.owed = false ∧ ∃ (lines : Bytes) (header : RequestHeader)
      (rs : List (SentRequest cfg)), LinesText cfg s.header lines header ∧
        text = lines ++ sentText rs ∧ left = .completed :: sentGiven rs
  | .readFinished => ∃ rs : List (SentRequest cfg), text = sentText rs ∧
      left = if s.owed then .completed :: sentGiven rs else sentGiven rs

section Expecting

variable {s : ReadState} {text rest : Bytes} {left : List Handed}

theorem expecting_idle (h : s.rrs = .idle) : Expecting cfg s text left ↔
    Unbegun s ∧ ∃ rs : List (SentRequest cfg), text = sentText rs ∧ left = sentGiven rs := by
  rw [Expecting, h]

theorem expecting_head (h : s.rrs = .readHead) : Expecting cfg s text left ↔
    Unbegun s ∧ HeadLeft cfg s.header text left := by
  rw [Expecting, h]

theorem expecting_body (h : s.rrs = .readBody) : Expecting cfg s text left ↔
    s.owed = false ∧ BodyLeft cfg s text left := by
  rw [Expecting, h]

theorem expecting_trailer (h : s.rrs = .readTrailer) : Expecting cfg s text left ↔
    s.owed = false ∧ ∃ (lines : Bytes) (header : RequestHeader) (rs : List (SentRequest cfg)),
      LinesText cfg s.header lines header ∧ text = lines ++ sentText rs ∧
        left = .completed :: sentGiven rs := by
  rw [Expecting, h]

theorem expecting_finished (h : s.rrs = .readFinished) : Expecting cfg s text left ↔
    ∃ rs : List (SentRequest cfg), text = sentText rs ∧
      left = if s.owed then .completed :: sentGiven rs else sentGiven rs := by
  rw [Expecting, h]

/-- Between two requests the next one is expected. -/
theorem headLeft_sent (rs : List (SentRequest cfg)) :
    HeadLeft cfg reqhdrNew (sentText rs) (sentGiven rs) := by
  cases rs with
  | nil => exact .ended rfl
  | cons r rs =>
    have hmore := HeadLeft.more r rs r.opens
    rw [← List.append_assoc] at hmore
    exact hmore

theorem Expecting.begun (he : Expecting cfg s text left) (hrrs : s.rrs = .idle) :
    Expecting cfg { s with header := reqhdrNew, rrs := .readHead } text left := by
  obtain ⟨hb, rs, rfl, rfl⟩ := (expecting_idle hrrs).mp he
  exact (expecting_head rfl).mpr
    ⟨⟨hb.chunkHdr, hb.bodyLen, hb.bodyReadLen, hb.owed⟩, headLeft_sent rs⟩

/-- Header lines arrive, and they are not the last ones. -/
theorem HeadLeft.lines {req req' : RequestHeader} {ahead : Bytes}
    (he : HeadLeft cfg req (ahead ++ rest) left)
    (hok : reqhdrAppendData cfg req ahead = .ok (req', none)) : HeadLeft cfg req' rest left := by
  generalize htext : ahead ++ rest = text at he
  cases he with
  | ended hnew =>
    obtain ⟨rfl, rfl⟩ := List.append_eq_nil_iff.mp htext
    cases hok
    exact .ended hnew
  | more r rs hlines =>
    rcases hlines.arrives htext with ⟨req'', more, hread, hmore, rfl⟩ | ⟨later, hread, -⟩
    · rw [hread] at hok
      cases hok
      exact .more r rs hmore
    · rw [hread] at hok
      cases hok

theorem Expecting.lines {header : RequestHeader} (he : Expecting cfg s (s.ahead ++ rest) left)
    (hrrs : s.rrs = .readHead ∨ s.rrs = .readTrailer)
    (hok : reqhdrAppendData cfg s.header s.ahead = .ok (header, none)) :
    Expecting cfg { s with header, ahead := [] } rest left := by
  rcases hrrs with hrrs | hrrs
  · obtain ⟨hb, hhead⟩ := (expecting_head hrrs).mp he
    exact (expecting_head (s := { s with header, ahead := [] }) hrrs).mpr
      ⟨⟨hb.chunkHdr, hb.bodyLen, hb.bodyReadLen, hb.owed⟩, hhead.lines hok⟩
  · obtain ⟨howed, lines, header', rs, hlines, htext, rfl⟩ := (expecting_trailer hrrs).mp he
    rcases hlines.arrives htext with ⟨req', more, hread, hmore, rfl⟩ | ⟨later, hread, -⟩
    · rw [hread] at hok
      cases hok
      exact (expecting_trailer (s := { s with header, ahead := [] }) hrrs).mpr
        ⟨howed, more, header', rs, hmore, rfl, rfl⟩
    · rw [hread] at hok
      cases hok

/-- The last line of a trailer. -/
theorem Expecting.trailed {header : RequestHeader} {offset : Nat}
    (he : Expecting cfg s (s.ahead ++ rest) left) (hrrs : s.rrs = .readTrailer)
    (hok : reqhdrAppendData cfg s.header s.ahead = .ok (header, some offset)) :
    Expecting cfg
      { s with header, ahead := s.ahead.drop offset, rrs := .readFinished, owed := true }
      (s.ahead.drop offset ++ rest) left := by
  obtain ⟨howed, lines, header', rs, hlines, htext, rfl⟩ := (expecting_trailer hrrs).mp he
  rcases hlines.arrives htext with ⟨req', more, hread, -⟩ | ⟨later, hread, hahead, htail⟩
  · rw [hread] at hok
    cases hok
  · rw [hread] at hok
    cases hok
    rw [hahead, List.drop_left, ← htail]
    exact (expecting_finished rfl).mpr ⟨rs, rfl, rfl⟩

/-- Behind its header a request is expected with its body. -/
theorem Unbegun.headed {header : RequestHeader} {tail body : Bytes} (hb : Unbegun s)
    (hcarries : BodyText cfg header tail body) (hfits : body.length + readBufferSize < ulongSize)
    (ahead : Bytes) (rs : List (SentRequest cfg)) :
    Expecting cfg (s.headed header ahead) (tail ++ sentText rs)
      (body.map .byte ++ .completed :: sentGiven rs) := by
  cases hcarries with
  | counted hplain hlen =>
    rw [← hb.bodyLen] at hlen
    unfold ReadState.headed
    rw [if_neg (by rw [hplain]; decide)]
    dsimp only
    rw [hlen]
    by_cases hpos : 0 < tail.length
    · rw [if_pos hpos, decide_eq_true hpos]
      refine (expecting_body rfl).mpr ⟨rfl, .counted rs hb.chunkHdr ?_ hfits⟩
      show s.bodyReadLen + tail.length = tail.length
      rw [hb.bodyReadLen, Nat.zero_add]
    · rw [if_neg hpos, decide_eq_false hpos]
      have hnil : tail = [] := List.eq_nil_of_length_eq_zero (Nat.eq_zero_of_not_pos hpos)
      rw [hnil]
      exact (expecting_finished rfl).mpr ⟨rs, rfl, rfl⟩
  | chunked hchunked htext htrailer =>
    unfold ReadState.headed
    rw [if_pos hchunked]
    have hnone : s.bodyReadLen = s.bodyLen := hb.bodyReadLen.trans hb.bodyLen.symm
    have hall : s.bodyLen + body.length + readBufferSize < ulongSize := by
      rw [hb.bodyLen, Nat.zero_add]
      exact hfits
    exact (expecting_body rfl).mpr
      ⟨hb.owed, .atLine rs rfl List.not_mem_nil hnone hall htext htrailer rfl⟩

/-- The last line of a header. -/
theorem Expecting.headed {header : RequestHeader} {offset : Nat}
    (he : Expecting cfg s (s.ahead ++ rest) left) (hrrs : s.rrs = .readHead)
    (hok : reqhdrAppendData cfg s.header s.ahead = .ok (header, some offset)) :
    ∃ left', left = .header header :: left' ∧ Expecting cfg
      (s.headed header (s.ahead.drop offset)) (s.ahead.drop offset ++ rest) left' := by
  obtain ⟨hb, hhead⟩ := (expecting_head hrrs).mp he
  generalize htext : s.ahead ++ rest = text at hhead
  cases hhead with
  | ended hnew =>
    rw [(List.append_eq_nil_iff.mp htext).1] at hok
    cases hok
  | more r rs hlines =>
    rcases hlines.arrives htext with ⟨req', more, hread, -⟩ | ⟨later, hread, hahead, htail⟩
    · rw [hread] at hok
      cases hok
    rw [hread] at hok
    cases hok
    rw [hahead, List.drop_left, ← htail]
    refine ⟨r.body.map .byte ++ .completed :: sentGiven rs, ?_, ?_⟩
    · simp [SentRequest.given]
    · exact hb.headed r.carries r.fits later rs

/-- The bytes that are taken are the first ones that are needed. -/
theorem taken_of_part {part later : Bytes} {processed : Nat}
    (htext : s.ahead ++ rest = part ++ later) (hpart : s.bodyReadLen + part.length = s.bodyLen)
    (hfits : s.bodyLen + readBufferSize < ulongSize) (hlen : s.ahead.length ≤ readBufferSize)
    (hle : processed ≤ (s.ahead.take s.offer).length) :
    part = s.ahead.take processed ++ part.drop processed ∧
      s.ahead.drop processed ++ rest = part.drop processed ++ later ∧
      (s.bodyReadLen + processed) % ulongSize + (part.drop processed).length = s.bodyLen := by
  rw [List.length_take] at hle
  have hahead : processed ≤ s.ahead.length := by omega
  have hneeded : processed ≤ part.length := by
    unfold ReadState.offer at hle
    rw [Nat.mod_eq_of_lt (by omega)] at hle
    split at hle
    · omega
    · omega
  have htake := congrArg (List.take processed) htext
  have hdrop := congrArg (List.drop processed) htext
  rw [List.take_append_of_le_length hahead, List.take_append_of_le_length hneeded] at htake
  rw [List.drop_append_of_le_length hahead, List.drop_append_of_le_length hneeded] at hdrop
  refine ⟨?_, hdrop, ?_⟩
  · rw [htake, List.take_append_drop]
  · rw [Nat.mod_eq_of_lt (by omega), List.length_drop]
    omega

theorem Expecting.taken {processed : Nat} (he : Expecting cfg s (s.ahead ++ rest) left)
    (hlen : s.ahead.length ≤ readBufferSize) (hrrs : s.rrs = .readBody)
    (hle : processed ≤ (s.ahead.take s.offer).length) :
    ∃ left', left = (s.ahead.take processed).map .byte ++ left' ∧
      Expecting cfg (s.taken processed) (s.ahead.drop processed ++ rest) left' := by
  obtain ⟨howed, hbody⟩ := (expecting_body hrrs).mp he
  generalize htext : s.ahead ++ rest = text at hbody
  cases hbody with
  | counted rs hplain hpart hfits =>
    rename_i part
    obtain ⟨hsplit, hrest, hpart'⟩ := taken_of_part htext hpart hfits hlen hle
    refine ⟨(part.drop processed).map .byte ++ .completed :: sentGiven rs, ?_, ?_⟩
    · rw [← List.append_assoc, ← List.map_append, ← hsplit]
    · rw [hrest]
      exact (expecting_body (s := s.taken processed) hrrs).mpr
        ⟨howed, .counted rs hplain hpart' hfits⟩
  | chunked rs hchunk hlf hpart hfits hchunks htrailer hpending =>
    rename_i chunkHdr part pending text later trailer header
    obtain ⟨hsplit, hrest, hpart'⟩ := taken_of_part htext hpart (by omega) hlen hle
    refine ⟨(part.drop processed ++ later).map .byte ++ .completed :: sentGiven rs, ?_, ?_⟩
    · rw [← List.append_assoc, ← List.map_append, ← List.append_assoc, ← hsplit]
    · rw [hrest]
      exact (expecting_body (s := s.taken processed) hrrs).mpr
        ⟨howed, .chunked rs hchunk hlf hpart' hfits hchunks htrailer hpending⟩

/-- A body of a known length is complete. -/
theorem Expecting.counted (he : Expecting cfg s text left) (hrrs : s.rrs = .readBody)
    (hall : s.bodyReadLen = s.bodyLen) (hplain : s.chunkHdr = none) :
    Expecting cfg { s with rrs := .readFinished, owed := true } text left := by
  obtain ⟨howed, hbody⟩ := (expecting_body hrrs).mp he
  cases hbody with
  | counted rs hplain' hpart hfits =>
    rename_i part
    have hnil : part = [] := List.eq_nil_of_length_eq_zero (by omega)
    rw [hnil]
    exact (expecting_finished rfl).mpr ⟨rs, rfl, rfl⟩
  | chunked rs hchunk =>
    rw [hplain] at hchunk
    cases hchunk

/-- A chunk is complete, and its line end and the next size line are needed. -/
theorem Expecting.atChunk {chunkHdr : MemBuf} (he : Expecting cfg s text left)
    (hrrs : s.rrs = .readBody) (hall : s.bodyReadLen = s.bodyLen)
    (hchunk : s.chunkHdr = some chunkHdr) :
    s.owed = false ∧ ∃ (chunks later trailer : Bytes) (header : RequestHeader)
      (rs : List (SentRequest cfg)), lf ∉ chunkHdr.data.drop 2 ∧
        s.bodyLen + later.length + readBufferSize < ulongSize ∧ ChunkText chunks later trailer ∧
        LinesText cfg s.header trailer header ∧
        chunkHdr.data ++ text = crlf ++ (chunks ++ sentText rs) ∧
        left = later.map .byte ++ .completed :: sentGiven rs := by
  obtain ⟨howed, hbody⟩ := (expecting_body hrrs).mp he
  cases hbody with
  | counted rs hplain =>
    rw [hplain] at hchunk
    cases hchunk
  | chunked rs hchunk' hlf hpart hfits hchunks htrailer hpending =>
    rename_i chunkHdr' part pending chunks later trailer header
    have hnil : part = [] := List.eq_nil_of_length_eq_zero (by omega)
    rw [hchunk] at hchunk'
    cases hchunk'
    rw [hnil]
    exact ⟨howed, chunks, later, trailer, header, rs, hlf, hfits, hchunks, htrailer, hpending, rfl⟩

theorem Expecting.sizing {chunkHdr : MemBuf} (he : Expecting cfg s (s.ahead ++ rest) left)
    (hrrs : s.rrs = .readBody) (hall : s.bodyReadLen = s.bodyLen)
    (hchunk : s.chunkHdr = some chunkHdr) (hlf : lf ∉ s.ahead.drop (2 - chunkHdr.dataLen)) :
    Expecting cfg { s with chunkHdr := some ⟨chunkHdr.data ++ s.ahead⟩, ahead := [] } rest
      left := by
  obtain ⟨howed, chunks, later, trailer, header, rs, hlf', hfits, hchunks, htrailer, hpending,
    rfl⟩ := he.atChunk hrrs hall hchunk
  refine (expecting_body (s := { s with chunkHdr := _, ahead := [] }) hrrs).mpr ⟨howed, ?_⟩
  refine .atLine rs rfl ?_ hall hfits hchunks htrailer ?_
  · rw [List.drop_append]
    exact fun hm => (List.mem_append.mp hm).elim hlf' hlf
  · rw [List.append_assoc]
    exact hpending

/-- The size line that is read is the one that was sent. -/
theorem sizeLine_sent {line line' after tail : Bytes} (hlf : lf ∉ line.drop 2)
    (hlen : 2 ≤ line.length) (hlf' : lf ∉ line')
    (h : line ++ lf :: after = crlf ++ (line' ++ lf :: tail)) :
    line.drop 2 = line' ∧ after = tail := by
  have hdrop := congrArg (List.drop 2) h
  rw [List.drop_append_of_le_length hlen] at hdrop
  have hsplit := congrArg (splitAtByte lf) (hdrop.trans (List.drop_left' rfl))
  rw [splitAtByte_append _ hlf, splitAtByte_append _ hlf'] at hsplit
  exact Prod.mk.inj (Option.some.inj hsplit)

/-- The bytes up to the end of a size line. -/
theorem sizeLine_read {chunkHdr : MemBuf} {piece after : Bytes}
    (hnone : lf ∉ chunkHdr.data.drop 2) (hlf : lf ∉ piece)
    (hahead : s.ahead.drop (2 - chunkHdr.dataLen) = piece ++ lf :: after) :
    lf ∉ (chunkHdr.data ++ s.ahead.take (2 - chunkHdr.dataLen) ++ piece).drop 2 ∧
      2 ≤ (chunkHdr.data ++ s.ahead.take (2 - chunkHdr.dataLen) ++ piece).length ∧
      chunkHdr.data ++ s.ahead =
        chunkHdr.data ++ s.ahead.take (2 - chunkHdr.dataLen) ++ piece ++ lf :: after := by
  have hlen := congrArg List.length hahead
  rw [List.length_drop, List.length_append, List.length_cons] at hlen
  have hgap : (s.ahead.take (2 - chunkHdr.dataLen)).length = 2 - chunkHdr.data.length := by
    rw [List.length_take]
    show min (2 - chunkHdr.dataLen) _ = 2 - chunkHdr.dataLen
    omega
  refine ⟨?_, ?_, ?_⟩
  · rw [List.append_assoc, List.drop_append, List.drop_left' hgap]
    exact fun hm => (List.mem_append.mp hm).elim hnone hlf
  · rw [List.length_append, List.length_append, hgap]
    omega
  · rw [List.append_assoc, List.append_assoc, ← hahead, List.take_append_drop]

theorem Expecting.sized {chunkHdr : MemBuf} {piece after : Bytes}
    (he : Expecting cfg s (s.ahead ++ rest) left) (hrrs : s.rrs = .readBody)
    (hall : s.bodyReadLen = s.bodyLen) (hchunk : s.chunkHdr = some chunkHdr) (hlf : lf ∉ piece)
    (hahead : s.ahead.drop (2 - chunkHdr.dataLen) = piece ++ lf :: after) :
    Expecting cfg (s.sized (chunkHdr.data ++ s.ahead.take (2 - chunkHdr.dataLen) ++ piece) after)
      (after ++ rest) left := by
  obtain ⟨howed, chunks, later, trailer, header, rs, hlf', hfits, hchunks, htrailer, hpending,
    rfl⟩ := he.atChunk hrrs hall hchunk
  obtain ⟨hnone, hlen, hread⟩ := sizeLine_read hlf' hlf hahead
  generalize chunkHdr.data ++ s.ahead.take (2 - chunkHdr.dataLen) ++ piece = line at *
  rw [← List.append_assoc, hread, List.append_assoc, List.cons_append] at hpending
  cases hchunks with
  | last hlast hzero =>
    rw [List.append_assoc, List.cons_append] at hpending
    obtain ⟨hline, hafter⟩ := sizeLine_sent hnone hlen hlast hpending
    rw [hafter]
    unfold ReadState.sized
    rw [hline, if_pos hzero]
    exact (expecting_trailer rfl).mpr ⟨howed, trailer, header, rs, htrailer, rfl, rfl⟩
  | chunk hnext hne hsize hmore =>
    rename_i line' data text later
    rw [List.append_assoc, List.cons_append] at hpending
    obtain ⟨hline, hafter⟩ := sizeLine_sent hnone hlen hnext hpending
    have hpos := List.length_pos_iff.mpr hne
    rw [List.length_append] at hfits
    rw [hafter]
    unfold ReadState.sized
    rw [hline, hsize, if_neg (by omega), Nat.mod_eq_of_lt (by omega), List.append_assoc,
      List.append_assoc]
    refine (expecting_body (s := { s with
      chunkHdr := some mbNew, ahead := after, bodyLen := s.bodyLen + data.length }) hrrs).mpr
      ⟨howed, .chunked rs (show some mbNew = some mbNew from rfl) List.not_mem_nil ?_ ?_ hmore
        htrailer rfl⟩
    · show s.bodyReadLen + data.length = s.bodyLen + data.length
      rw [hall]
    · show s.bodyLen + data.length + later.length + readBufferSize < ulongSize
      omega

theorem Expecting.completed (he : Expecting cfg s text left) (howed : s.owed = true) :
    ∃ left', left = .completed :: left' ∧ Expecting cfg { s with owed := false } text left' := by
  have hnot : s.owed = false → False := fun hf => by
    rw [howed] at hf
    cases hf
  cases hrrs : s.rrs with
  | idle => exact (hnot ((expecting_idle hrrs).mp he).1.owed).elim
  | readHead => exact (hnot ((expecting_head hrrs).mp he).1.owed).elim
  | readBody => exact (hnot ((expecting_body hrrs).mp he).1).elim
  | readTrailer => exact (hnot ((expecting_trailer hrrs).mp he).1).elim
  | readFinished =>
    obtain ⟨rs, rfl, rfl⟩ := (expecting_finished hrrs).mp he
    rw [if_pos howed]
    refine ⟨_, rfl, ?_⟩
    rw [expecting_finished rfl]
    exact ⟨rs, rfl, rfl⟩

theorem Expecting.restarted (he : Expecting cfg s text left) (hrrs : s.rrs = .readFinished)
    (howed : s.owed = false) :
    Expecting cfg { s with rrs := .idle, header := reqhdrNew, chunkHdr := none, bodyLen := 0,
                           bodyReadLen := 0 } text left := by
  obtain ⟨rs, rfl, rfl⟩ := (expecting_finished hrrs).mp he
  rw [howed]
  exact (expecting_idle rfl).mpr ⟨⟨rfl, rfl, rfl, rfl⟩, rs, rfl, rfl⟩

end Expecting

theorem headed_ahead (s : ReadState) (header : RequestHeader) (ahead : Bytes) :
    (s.headed header ahead).ahead = ahead := by
  unfold ReadState.headed
  split
  · rfl
  · rfl

theorem sized_ahead (s : ReadState) (line ahead : Bytes) : (s.sized line ahead).ahead = ahead := by
  unfold ReadState.sized
  dsimp only
  split
  · rfl
  · rfl

/-- What is expected does not depend on where the text is cut. -/
theorem Expecting.ahead {s : ReadState} {text : Bytes} {left : List Handed}
    (he : Expecting cfg s text left) (data : Bytes) :
    Expecting cfg { s with ahead := data } text left := by
  cases hrrs : s.rrs with
  | idle =>
    obtain ⟨hb, hrs⟩ := (expecting_idle hrrs).mp he
    exact (expecting_idle rfl).mpr ⟨⟨hb.chunkHdr, hb.bodyLen, hb.bodyReadLen, hb.owed⟩, hrs⟩
  | readHead =>
    obtain ⟨hb, hhead⟩ := (expecting_head hrrs).mp he
    exact (expecting_head rfl).mpr ⟨⟨hb.chunkHdr, hb.bodyLen, hb.bodyReadLen, hb.owed⟩, hhead⟩
  | readBody =>
    obtain ⟨howed, hbody⟩ := (expecting_body hrrs).mp he
    refine (expecting_body rfl).mpr ⟨howed, ?_⟩
    cases hbody with
    | counted rs hplain hpart hfits => exact .counted rs hplain hpart hfits
    | chunked rs hchunk hlf hpart hfits hchunks htrailer hpending =>
      exact .chunked rs hchunk hlf hpart hfits hchunks htrailer hpending
  | readTrailer => exact (expecting_trailer rfl).mpr ((expecting_trailer hrrs).mp he)
  | readFinished => exact (expecting_finished rfl).mpr ((expecting_finished hrrs).mp he)

/-- What is known of a reader that has received a beginning of the requests. -/
structure Delivering (rs : List (SentRequest cfg)) (shown : List ReadLabel) (s : ReadState) :
    Prop where
  short : s.ahead.length ≤ readBufferSize
  expects : ∀ rest, receivedBytes shown ++ rest = sentText rs →
    ∃ left, givenBy shown ++ left = sentGiven rs ∧ Expecting cfg s (s.ahead ++ rest) left

section Delivering

variable {rs : List (SentRequest cfg)} {shown : List ReadLabel} {s s' : ReadState}

/-- A step that shows nothing leaves as much to be given. -/
theorem Delivering.quiet (hd : Delivering rs shown s) (hshort : s'.ahead.length ≤ readBufferSize)
    (hkeep : ∀ rest left, Expecting cfg s (s.ahead ++ rest) left →
      Expecting cfg s' (s'.ahead ++ rest) left) : Delivering rs (shown ++ []) s' := by
  rw [List.append_nil]
  refine ⟨hshort, fun rest hrest => ?_⟩
  obtain ⟨left, hgiven, he⟩ := hd.expects rest hrest
  exact ⟨left, hgiven, hkeep rest left he⟩

/-- What a step gives is the first of what was left. -/
theorem Delivering.gives {l : ReadLabel} {given : List Handed} (hd : Delivering rs shown s)
    (hbytes : receivedBytes [l] = []) (hlabel : givenBy [l] = given)
    (hshort : s'.ahead.length ≤ readBufferSize)
    (hkeep : ∀ rest left, Expecting cfg s (s.ahead ++ rest) left →
      ∃ left', left = given ++ left' ∧ Expecting cfg s' (s'.ahead ++ rest) left') :
    Delivering rs (shown ++ [l]) s' := by
  refine ⟨hshort, fun rest hrest => ?_⟩
  rw [receivedBytes_append, hbytes, List.append_nil] at hrest
  obtain ⟨left, hgiven, he⟩ := hd.expects rest hrest
  obtain ⟨left', rfl, he'⟩ := hkeep rest left he
  refine ⟨left', ?_, he'⟩
  rw [givenBy_append, hlabel, List.append_assoc]
  exact hgiven

/-- The bytes that arrive are the first of what was still to come. -/
theorem Delivering.received {data : Bytes} (hd : Delivering rs shown s) (hempty : s.ahead = [])
    (hlen : data.length ≤ readBufferSize) :
    Delivering rs (shown ++ [.received data]) { s with ahead := data } := by
  refine ⟨hlen, fun rest hrest => ?_⟩
  have hdata : receivedBytes [.received data] = data := List.append_nil data
  rw [receivedBytes_append, hdata, List.append_assoc] at hrest
  obtain ⟨left, hgiven, he⟩ := hd.expects _ hrest
  rw [hempty, List.nil_append] at he
  refine ⟨left, ?_, he.ahead data⟩
  rw [givenBy_append]
  exact (congrArg (· ++ left) (List.append_nil _)).trans hgiven

/-- A step delivers what it shows. -/
theorem Delivering.step {new : List ReadLabel} (hd : Delivering rs shown s)
    (hstep : ReadStep cfg s new s') : Delivering rs (shown ++ new) s' := by
  have hdrop : ∀ n, (s.ahead.drop n).length ≤ readBufferSize := fun n =>
    (List.drop_suffix n s.ahead).length_le.trans hd.short
  cases hstep with
  | received hempty _ hlen => exact hd.received hempty hlen
  | begun hrrs => exact hd.quiet hd.short fun rest left he => he.begun hrrs
  | lines hrrs hok => exact hd.quiet (Nat.zero_le _) fun rest left he => he.lines hrrs hok
  | headed hrrs hok =>
    refine hd.gives rfl rfl ?_ fun rest left he => ?_
    · rw [headed_ahead]
      exact hdrop _
    · rw [headed_ahead]
      exact he.headed hrrs hok
  | taken hrrs _ hle =>
    exact hd.gives rfl (List.append_nil _) (hdrop _) fun rest left he => he.taken hd.short hrrs hle
  | sizing hrrs hall hchunk hlf =>
    exact hd.quiet (Nat.zero_le _) fun rest left he => he.sizing hrrs hall hchunk hlf
  | sized hrrs hall hchunk hlf hahead =>
    rename_i chunkHdr piece after
    refine hd.quiet ?_ fun rest left he => ?_
    · have hlen := congrArg List.length hahead
      have hshort := hdrop (2 - chunkHdr.dataLen)
      rw [List.length_append, List.length_cons] at hlen
      rw [sized_ahead]
      omega
    · rw [sized_ahead]
      exact he.sized hrrs hall hchunk hlf hahead
  | counted hrrs hall hplain =>
    exact hd.quiet hd.short fun rest left he => he.counted hrrs hall hplain
  | trailed hrrs hok => exact hd.quiet (hdrop _) fun rest left he => he.trailed hrrs hok
  | completed howed => exact hd.gives rfl rfl hd.short fun rest left he => he.completed howed
  | restarted hrrs howed =>
    exact hd.quiet hd.short fun rest left he => he.restarted hrrs howed

/-- Whatever steps a reader takes, it delivers what they show. -/
theorem delivering_of_traced (rs : List (SentRequest cfg))
    (h : Traced (ReadStep cfg) readerNew shown s) : Delivering rs shown s := by
  refine h.keeps (I := Delivering rs) (fun _ _ _ _ hd hstep => hd.step hstep)
    ⟨Nat.zero_le _, fun rest hrest => ?_⟩
  rw [show rest = sentText rs from hrest]
  exact ⟨_, rfl, (expecting_head rfl).mpr ⟨⟨rfl, rfl, rfl, rfl⟩, headLeft_sent rs⟩⟩

theorem sentText_nil (h : [] = sentText rs) : rs = [] := by
  cases rs with
  | nil => rfl
  | cons r rs =>
    have hhead := (List.append_eq_nil_iff.mp (List.append_eq_nil_iff.mp h.symm).1).1
    exact absurd hhead r.opens.ne_nil

theorem lf_mem_chunkText {text later trailer : Bytes} (h : ChunkText text later trailer) :
    lf ∈ text := by
  cases h with
  | last => exact List.mem_append_right _ List.mem_cons_self
  | chunk => exact List.mem_append_right _ List.mem_cons_self

/-- A reader that has processed the whole text has nothing more to give. -/
theorem Expecting.nothing {left : List Handed} (he : Expecting cfg s [] left)
    (howed : s.owed = false)
    (hcounted : s.rrs = .readBody → s.chunkHdr = none → s.bodyReadLen ≠ s.bodyLen) : left = [] := by
  cases hrrs : s.rrs with
  | idle =>
    obtain ⟨-, rs, htext, rfl⟩ := (expecting_idle hrrs).mp he
    rw [sentText_nil htext]
    rfl
  | readHead =>
    obtain ⟨-, hhead⟩ := (expecting_head hrrs).mp he
    generalize htext : ([] : Bytes) = text at hhead
    cases hhead with
    | ended => rfl
    | more r rs hlines =>
      exact absurd (List.append_eq_nil_iff.mp htext.symm).1 hlines.ne_nil
  | readBody =>
    obtain ⟨-, hbody⟩ := (expecting_body hrrs).mp he
    generalize htext : ([] : Bytes) = text at hbody
    cases hbody with
    | counted rs hplain hpart =>
      rw [(List.append_eq_nil_iff.mp htext.symm).1] at hpart
      exact absurd hpart (hcounted hrrs hplain)
    | chunked rs hchunk hlf hpart hfits hchunks htrailer hpending =>
      rw [(List.append_eq_nil_iff.mp htext.symm).2, List.append_nil] at hpending
      rw [hpending] at hlf
      exact absurd (List.mem_append_left _ (lf_mem_chunkText hchunks)) hlf
  | readTrailer =>
    obtain ⟨-, lines, header, rs, hlines, htext, -⟩ := (expecting_trailer hrrs).mp he
    exact absurd (List.append_eq_nil_iff.mp htext.symm).1 hlines.ne_nil
  | readFinished =>
    obtain ⟨rs, htext, rfl⟩ := (expecting_finished hrrs).mp he
    rw [howed, sentText_nil htext]
    rfl

/-- What has been given is a beginning of what was sent. -/
theorem Delivering.given_prefix (hd : Delivering rs shown s)
    (hsent : receivedBytes shown <+: sentText rs) : givenBy shown <+: sentGiven rs := by
  obtain ⟨rest, hrest⟩ := hsent
  obtain ⟨left, hgiven, -⟩ := hd.expects rest hrest
  exact ⟨left, hgiven⟩

/-- When all has been received and processed, all has been given. -/
theorem Delivering.given_all (hd : Delivering rs shown s)
    (hsent : receivedBytes shown = sentText rs) (hahead : s.ahead = []) (howed : s.owed = false)
    (hcounted : s.rrs = .readBody → s.chunkHdr = none → s.bodyReadLen ≠ s.bodyLen) :
    givenBy shown = sentGiven rs := by
  obtain ⟨left, hgiven, he⟩ := hd.expects [] (by rw [List.append_nil, hsent])
  rw [hahead] at he
  rw [← hgiven, he.nothing howed hcounted, List.append_nil]

end Delivering

end FilemanagerHttpd.Audit
