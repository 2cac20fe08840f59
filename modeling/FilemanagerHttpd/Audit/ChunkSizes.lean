import FilemanagerHttpd.Audit.ConnectionTable
import FilemanagerHttpd.Audit.Texts

/-!
# The size of a chunk

The size line of a chunk is collected over as many reads as it takes. Its value goes
through a variable of 32 bits.
-/

namespace FilemanagerHttpd.Audit

open Library Server

variable {H : Type} {fuel : Nat} {cfg : Config} {ops : HandlerOps H}

/-- A connection inside a chunked body that waits for a size line, the line end behind the
chunk before being read. -/
structure AwaitsSize (conn : ServerConnection H) (chunkHdr : MemBuf) : Prop where
  rrs : conn.rrs = .readBody
  counted : conn.bodyReadLen = conn.bodyLen
  chunkHdr_eq : conn.chunkHdr = some chunkHdr
  lineEnd : 2 ≤ chunkHdr.dataLen

/-- The buffer as a read has filled it. -/
def filled (conn : ServerConnection H) (data : Bytes) : ServerConnection H :=
  { conn with readBuffer := data, readOffset := 0, readSize := data.length }

theorem unread_filled (conn : ServerConnection H) (data : Bytes) :
    (filled conn data).unread = data := by
  simp [filled, ServerConnection.unread]

theorem AwaitsSize.filled {conn : ServerConnection H} {chunkHdr : MemBuf}
    (hw : AwaitsSize conn chunkHdr) (data : Bytes) : AwaitsSize (filled conn data) chunkHdr :=
  ⟨hw.rrs, hw.counted, hw.chunkHdr_eq, hw.lineEnd⟩

/-- Reads of a whole piece each, and then one that brings the line end: the connection behind
the line end, and the bytes that follow. -/
def takeLine (fuel : Nat) (cfg : Config) (ops : HandlerOps H) (last : Bytes) :
    List Bytes → ServerConnection H → DataProcessingResult → Prog (ServerConnection H × Bytes)
  | [], conn, dpr => do
    match ← bodyRound ops (filled conn last, dpr, last) with
    | .inl (conn, _, rest) => return (conn, rest)
    | .inr (conn, _) => return (conn, [])
  | piece :: pieces, conn, dpr => do
    let (conn, dpr) ← appendData fuel cfg ops (filled conn piece) dpr
    takeLine fuel cfg ops last pieces conn dpr

/-- Nothing is taken for the line end once it has been read. -/
theorem readChunkHdr_line {conn : ServerConnection H} {chunkHdr : MemBuf}
    (hlen : 2 ≤ chunkHdr.dataLen) (hfit : chunkHdr.dataLen + 1 < uintSize) (data : Bytes) :
    readChunkHdr conn chunkHdr data =
      match splitAtByte lf data with
      | none => (mbAppendData chunkHdr data).map fun c => ({ conn with chunkHdr := some c }, [])
      | some (piece, rest) => (mbAppendData chunkHdr piece).map fun c =>
          (startChunk conn c, rest) := by
  have hnone : 2 - chunkHdr.dataLen = 0 := by omega
  have happend : mbAppendData chunkHdr [] = .ok chunkHdr := by
    unfold mbAppendData
    rw [if_pos (by simpa using hfit), List.append_nil]
  simp only [readChunkHdr, hnone, List.take_zero, List.drop_zero, happend, bind, Except.bind]
  cases splitAtByte lf data with
  | none => cases mbAppendData chunkHdr data <;> rfl
  | some p =>
    obtain ⟨piece, rest⟩ := p
    cases mbAppendData chunkHdr piece <;> rfl

/-- A round of the loop on a connection that waits for a size line. -/
theorem bodyRound_line (ops : HandlerOps H) {conn : ServerConnection H} {chunkHdr : MemBuf}
    (hw : AwaitsSize conn chunkHdr) (hfit : chunkHdr.dataLen + 1 < uintSize)
    (dpr : DataProcessingResult) {data : Bytes} (hne : data ≠ []) :
    bodyRound ops (conn, dpr, data) =
      match splitAtByte lf data with
      | none => Program.ofExcept ((mbAppendData chunkHdr data).map fun c =>
          .inl ({ conn with chunkHdr := some c }, dpr, []))
      | some (piece, rest) => Program.ofExcept ((mbAppendData chunkHdr piece).map fun c =>
          .inl (startChunk conn c, dpr, rest)) := by
  have hgo : ¬ (conn.rrs ≠ .readBody ∨ data = []) := by
    rintro (h | h)
    · exact h hw.rrs
    · exact hne h
  have hoffer : offerBody ops conn dpr data = .done (conn, dpr, data, true) := by
    unfold offerBody
    rw [if_neg (by rw [hw.counted]; exact lt_irrefl _)]
    rfl
  have hcomplete : bodyComplete conn data = readChunkHdr conn chunkHdr data := by
    unfold bodyComplete
    rw [if_pos hw.counted, hw.chunkHdr_eq]
  simp only [bodyRound, if_neg hgo, hoffer, Program.done_bind, hcomplete,
    readChunkHdr_line hw.lineEnd hfit]
  cases splitAtByte lf data with
  | none => cases mbAppendData chunkHdr data <;> rfl
  | some p =>
    obtain ⟨piece, rest⟩ := p
    dsimp only
    cases mbAppendData chunkHdr piece <;> rfl

/-- The connection has taken a piece of the line from its buffer. -/
def lineAdded (conn : ServerConnection H) (chunkHdr : MemBuf) (piece : Bytes) :
    ServerConnection H :=
  { conn with
    readBuffer := piece, readOffset := 0, readSize := 0
    chunkHdr := some ⟨chunkHdr.data ++ piece⟩ }

theorem appendBodyData_inside {conn : ServerConnection H} {chunkHdr : MemBuf}
    (hw : AwaitsSize conn chunkHdr) (hfit : chunkHdr.dataLen + 1 < uintSize)
    (dpr : DataProcessingResult) {piece : Bytes} (hne : piece ≠ []) (hlf : lf ∉ piece) :
    appendBodyData (fuel + 2) ops (filled conn piece) dpr =
      if chunkHdr.dataLen + piece.length + 1 < uintSize
      then .done (lineAdded conn chunkHdr piece, dpr) else .fault .heapOverflow := by
  have hround := bodyRound_line ops (hw.filled piece) hfit dpr hne
  rw [splitAtByte_none hlf] at hround
  rw [appendBodyData, unread_filled, Program.iterate, hround]
  by_cases hlong : chunkHdr.dataLen + piece.length + 1 < uintSize
  · rw [if_pos hlong, mbAppendData, if_pos hlong]
    have hlast : ∀ c : ServerConnection H,
        bodyRound ops (c, dpr, []) = .done (.inr (c.keep [], dpr)) := by
      intro c
      rw [bodyRound, if_pos (.inr rfl)]
      rfl
    simp only [Except.map, Program.ofExcept_ok, Program.done_bind, Program.iterate, hlast]
    rfl
  · rw [if_neg hlong, mbAppendData, if_neg hlong]
    rfl

/-- A read inside the line. -/
theorem appendData_inside {conn : ServerConnection H} {chunkHdr : MemBuf}
    (hw : AwaitsSize conn chunkHdr) (hfit : chunkHdr.dataLen + 1 < uintSize)
    (dpr : DataProcessingResult) {piece : Bytes} (hne : piece ≠ []) (hlf : lf ∉ piece) :
    appendData (fuel + 2) cfg ops (filled conn piece) dpr =
      if chunkHdr.dataLen + piece.length + 1 < uintSize
      then .done (lineAdded conn chunkHdr piece, dpr) else .fault .heapOverflow := by
  have hhead : appendHead cfg ops (filled conn piece) = .done (filled conn piece) := by
    have hidle : ¬ conn.rrs = .idle := by rw [hw.rrs]; nofun
    have hread : ¬ conn.rrs = .readHead := by rw [hw.rrs]; nofun
    simp [appendHead, filled, hidle, hread]
  have hbody : appendBody (fuel + 2) ops (filled conn piece) dpr =
      appendBodyData (fuel + 2) ops (filled conn piece) dpr := by
    have hlen : piece.length ≠ 0 := fun h => hne (List.eq_nil_of_length_eq_zero h)
    rw [appendBody, if_pos ⟨hw.rrs, hlen⟩]
  have hstate : (lineAdded conn chunkHdr piece).rrs = .readBody := hw.rrs
  have htrailer : appendTrailer cfg (lineAdded conn chunkHdr piece) =
      .done (lineAdded conn chunkHdr piece) := by
    rw [appendTrailer, if_neg fun h => by rw [hstate] at h; cases h.1]
    rfl
  rw [appendData]
  simp only [hhead, Program.done_bind, hbody, appendBodyData_inside hw hfit dpr hne hlf]
  by_cases hlong : chunkHdr.dataLen + piece.length + 1 < uintSize
  · rw [if_pos hlong]
    simp only [Program.done_bind, htrailer, hstate]
    rw [if_neg (by rintro ⟨-, h⟩; cases h)]
    rfl
  · rw [if_neg hlong]
    rfl

/-- The connection that waits goes on waiting. -/
theorem AwaitsSize.lineAdded {conn : ServerConnection H} {chunkHdr : MemBuf}
    (hw : AwaitsSize conn chunkHdr) (piece : Bytes) :
    AwaitsSize (lineAdded conn chunkHdr piece) ⟨chunkHdr.data ++ piece⟩ where
  rrs := hw.rrs
  counted := hw.counted
  chunkHdr_eq := rfl
  lineEnd := by
    have hlen := hw.lineEnd
    simp only [MemBuf.dataLen, List.length_append] at hlen ⊢
    omega

/-- What the size line makes of the connection, however it is cut. -/
theorem takeLine_eq (fuel : Nat) (cfg : Config) (ops : HandlerOps H)
    {conn : ServerConnection H} {chunkHdr : MemBuf}
    (hw : AwaitsSize conn chunkHdr) (hfit : chunkHdr.dataLen + 1 < uintSize)
    (dpr : DataProcessingResult) {pieces : List Bytes} {tail : Bytes} (rest : Bytes)
    (hpieces : ∀ p ∈ pieces, p ≠ [] ∧ lf ∉ p) (htail : lf ∉ tail) :
    takeLine (fuel + 2) cfg ops (tail ++ lf :: rest) pieces conn dpr =
      if chunkHdr.dataLen + (pieces.flatten ++ tail).length + 1 < uintSize
      then .done (startChunk (filled conn (tail ++ lf :: rest))
        ⟨chunkHdr.data ++ (pieces.flatten ++ tail)⟩, rest)
      else .fault .heapOverflow := by
  induction pieces generalizing conn chunkHdr dpr with
  | nil =>
    have hround : bodyRound ops (filled conn (tail ++ lf :: rest), dpr, tail ++ lf :: rest) =
        Program.ofExcept ((mbAppendData chunkHdr tail).map fun c =>
          .inl (startChunk (filled conn (tail ++ lf :: rest)) c, dpr, rest)) := by
      rw [bodyRound_line ops (hw.filled _) hfit dpr (by simp), splitAtByte_append rest htail]
    rw [takeLine, hround, List.flatten_nil, List.nil_append]
    by_cases hlong : chunkHdr.dataLen + tail.length + 1 < uintSize
    · rw [if_pos hlong, mbAppendData, if_pos hlong]; rfl
    · rw [if_neg hlong, mbAppendData, if_neg hlong]; rfl
  | cons piece pieces ih =>
    obtain ⟨hne, hlf⟩ := hpieces piece List.mem_cons_self
    rw [takeLine, appendData_inside hw hfit dpr hne hlf]
    by_cases hlong : chunkHdr.dataLen + piece.length + 1 < uintSize
    · have hlen : (⟨chunkHdr.data ++ piece⟩ : MemBuf).dataLen =
          chunkHdr.dataLen + piece.length := List.length_append
      have hrec := ih (hw.lineAdded piece) (by rw [hlen]; exact hlong) dpr
        fun p hp => hpieces p (.tail _ hp)
      have htotal : chunkHdr.dataLen + piece.length + (pieces.flatten ++ tail).length =
          chunkHdr.dataLen + ((piece :: pieces).flatten ++ tail).length := by
        simp only [List.flatten_cons, List.length_append]; omega
      rw [if_pos hlong]
      simp only [Program.done_bind, hrec, hlen, htotal]
      simp only [List.flatten_cons, List.append_assoc]
      rfl
    · rw [if_neg hlong, if_neg (by simp only [List.flatten_cons, List.length_append]; omega)]
      rfl

/-- The connection expects the announced number of bytes, and a trailer behind the last
chunk only. -/
structure ExpectsChunk (n : Nat) (conn : ServerConnection H) : Prop where
  body : 0 < n → conn.rrs = .readBody ∧ conn.bodyLen - conn.bodyReadLen = n
  trailer : conn.rrs = .readTrailer → n = 0

/-- The value of a size line. -/
theorem strtoul_sizeLine {size fin : Bytes} (hne : size ≠ [])
    (hsize : ∀ b ∈ size, isDigit 16 b = true) (hfin : fin = [] ∨ fin = [cr])
    (hfits : digitsVal 16 size < ulongSize) : strtoul 16 (size ++ fin) = digitsVal 16 size := by
  have hend : EndsNumber 16 (cstr fin) := by
    rcases hfin with rfl | rfl
    · exact nofun
    · intro b hb
      obtain rfl : cr = b := by simpa [cstr, cr, nul] using hb
      decide
  rw [strtoul_digits (by decide) hne hsize hend, if_neg (by omega)]

/-- What a size line makes of a connection is what the line says when its value fits into
32 bits. -/
theorem startChunk_expects_iff (conn : ServerConnection H) (hrrs : conn.rrs = .readBody)
    (hcount : conn.bodyReadLen = conn.bodyLen) {n : Nat} (hfits : conn.bodyLen + n < ulongSize)
    (chunkHdr : MemBuf) (hval : strtoul 16 (chunkHdr.data.drop 2) = n) :
    ExpectsChunk n (startChunk conn chunkHdr) ↔ n < uintSize := by
  have hstart : startChunk conn chunkHdr = if n % uintSize = 0
      then { conn with chunkHdr := some mbNew, rrs := .readTrailer }
      else { conn with
        chunkHdr := some mbNew, bodyLen := (conn.bodyLen + n % uintSize) % ulongSize } := by
    rw [startChunk, hval]
  have hmod : n % uintSize ≤ n := Nat.mod_le _ _
  have hsum : (conn.bodyLen + n % uintSize) % ulongSize = conn.bodyLen + n % uintSize :=
    Nat.mod_eq_of_lt (by omega)
  have hsmall : n < uintSize ↔ n % uintSize = n := by
    constructor
    · exact Nat.mod_eq_of_lt
    · intro h
      have hlt : n % uintSize < uintSize := Nat.mod_lt _ (by decide)
      omega
  rw [hstart, hsmall]
  by_cases hzero : n % uintSize = 0
  · rw [if_pos hzero, hzero]
    constructor
    · intro h
      exact (h.trailer rfl).symm
    · rintro rfl
      exact ⟨fun h => absurd h (lt_irrefl 0), fun _ => rfl⟩
  · rw [if_neg hzero, hsum]
    have hrest : conn.bodyLen + n % uintSize - conn.bodyReadLen = n % uintSize := by omega
    constructor
    · intro h
      rw [← hrest]
      exact (h.body (by omega)).2
    · intro h
      refine ⟨fun _ => ⟨hrrs, hrest.trans h⟩, fun ht => ?_⟩
      rw [show conn.rrs = .readTrailer from ht] at hrrs
      cases hrrs

/-- A size line is taken at its value exactly when the value fits into 32 bits, and so does
the length of the buffer that collects the line. -/
theorem chunk_size_taken_iff {conn : ServerConnection H} {chunkHdr : MemBuf}
    (hw : AwaitsSize conn chunkHdr) (hfresh : chunkHdr.dataLen = 2) (dpr : DataProcessingResult)
    (size fin : Bytes) (hne : size ≠ []) (hsize : ∀ b ∈ size, isDigit 16 b = true)
    (hfin : fin = [] ∨ fin = [cr]) (hfits : conn.bodyLen + digitsVal 16 size < 2 ^ 64)
    {pieces : List Bytes} {tail rest : Bytes} (hpieces : ∀ p ∈ pieces, p ≠ [])
    (hcut : pieces.flatten ++ tail = size ++ fin) :
    (∃ conn', takeLine (fuel + 2) cfg ops (tail ++ lf :: rest) pieces conn dpr =
        .done (conn', rest) ∧ ExpectsChunk (digitsVal 16 size) conn') ↔
      digitsVal 16 size < 2 ^ 32 ∧ (size ++ fin).length + 3 < 2 ^ 32 := by
  have hlf : lf ∉ pieces.flatten ++ tail := by
    rw [hcut]
    intro hm
    rcases List.mem_append.mp hm with hm | hm
    · exact ne_of_isDigit (by decide) (hsize lf hm) rfl
    · rcases hfin with rfl | rfl
      · cases hm
      · exact absurd (List.mem_singleton.mp hm) (by decide)
  have hinside : ∀ p ∈ pieces, p ≠ [] ∧ lf ∉ p := fun p hp =>
    ⟨hpieces p hp, fun hm => hlf (List.mem_append_left _ (List.mem_flatten.mpr ⟨p, hp, hm⟩))⟩
  have htake := takeLine_eq fuel cfg ops hw (by rw [hfresh]; decide) dpr rest hinside
    fun hm => hlf (List.mem_append_right _ hm)
  have hval : strtoul 16 ((chunkHdr.data ++ (pieces.flatten ++ tail)).drop 2) =
      digitsVal 16 size := by
    have hdrop : (chunkHdr.data ++ (pieces.flatten ++ tail)).drop 2 = size ++ fin := by
      rw [← hfresh, MemBuf.dataLen, List.drop_left, hcut]
    rw [hdrop]
    exact strtoul_sizeLine hne hsize hfin (show _ < 2 ^ 64 by omega)
  have hiff := startChunk_expects_iff (filled conn (tail ++ lf :: rest)) hw.rrs hw.counted
    hfits ⟨_⟩ hval
  have hlen : chunkHdr.dataLen + (pieces.flatten ++ tail).length + 1 =
      (size ++ fin).length + 3 := by
    rw [hfresh, hcut]; omega
  rw [htake, hlen]
  by_cases hlong : (size ++ fin).length + 3 < uintSize
  · rw [if_pos hlong]
    constructor
    · rintro ⟨conn', hdone, hexp⟩
      obtain ⟨rfl, -⟩ := Prod.mk.inj (Program.done.inj hdone)
      exact ⟨hiff.mp hexp, hlong⟩
    · rintro ⟨hn, -⟩
      exact ⟨_, rfl, hiff.mpr hn⟩
  · rw [if_neg hlong]
    constructor
    · rintro ⟨conn', hdone, -⟩
      cases hdone
    · rintro ⟨-, h⟩
      exact absurd h hlong

section Example

/-- A connection that has read the line end of the last header line. -/
def chunkedConn : ServerConnection RequestHandler :=
  { connNew 5 with rrs := .readBody, chunkHdr := some ⟨crlf⟩ }

theorem chunk_size_taken_iff_cut :
    (∃ conn', takeLine 2 bareConfig (reqhdlrOps 2 bareConfig) ([102, cr] ++ lf :: ascii "abc")
        [ascii "1"] chunkedConn dprInit = .done (conn', ascii "abc") ∧ ExpectsChunk 0x1f conn') ↔
      (0x1f < 2 ^ 32 ∧ 3 + 3 < 2 ^ 32) :=
  chunk_size_taken_iff ⟨rfl, rfl, rfl, le_refl 2⟩ rfl dprInit (ascii "1f") [cr]
    (by decide) (by decide +kernel) (.inr rfl) (by decide +kernel) (by decide) rfl

/-- The request line and the header of a request with a chunked body. -/
def chunkedHead : Bytes :=
  ascii "POST / HTTP/1.1" ++ crlf ++ ascii "Transfer-Encoding: chunked" ++ crlf ++ crlf

def chunkedTurn : Prog (ConnTurn RequestHandler) :=
  connProcessDataReady 9 bareConfig (reqhdlrOps 9 bareConfig) (connNew 5) drsNew false

/-- A chunk of 4 GiB is taken for the end of the body. -/
theorem chunk_size_wraps :
    ¬ ∀ (conn : ServerConnection RequestHandler) (chunkHdr : MemBuf),
      OpenConn 9 bareConfig (reqhdlrOps 9 bareConfig) conn → AwaitsSize conn chunkHdr →
      chunkHdr.dataLen = 2 → conn.bodyLen + digitsVal 16 (ascii "100000000") < 2 ^ 64 →
      ∃ conn', takeLine 9 bareConfig (reqhdlrOps 9 bareConfig) (ascii "100000000" ++ crlf) []
        conn dprInit = .done (conn', []) ∧
          ExpectsChunk (digitsVal 16 (ascii "100000000")) conn' := by
  intro hclaim
  have hturn : (playIn (sending 5 chunkedHead) chunkedTurn []).1.result?.map (fun t =>
      (t.result, t.conn.rrs, t.conn.chunkHdr, t.conn.bodyLen, t.conn.bodyReadLen)) =
      some (.busy, .readBody, some ⟨crlf⟩, 0, 0) := by decide +kernel
  obtain ⟨turn, hplay, hturn⟩ := Option.map_eq_some_iff.mp hturn
  simp only [Prod.mk.injEq] at hturn
  obtain ⟨hres, hrrs, hhdr, hlen, hread⟩ := hturn
  have hrun := playIn_returns (sending 5 chunkedHead) chunkedTurn [] hplay
  have hnew : OpenConn 9 bareConfig (reqhdlrOps 9 bareConfig) (connNew 5) := .accepted 5
  have hstay : turn.result ≠ .toClose := by rw [hres]; nofun
  have hopen : OpenConn 9 bareConfig (reqhdlrOps 9 bareConfig) turn.conn := hnew.served hrun hstay
  have hw : AwaitsSize turn.conn ⟨crlf⟩ := ⟨hrrs, hread.trans hlen.symm, hhdr, le_refl 2⟩
  obtain ⟨conn', htake, hexp⟩ := hclaim turn.conn ⟨crlf⟩ hopen hw rfl (by rw [hlen]; decide)
  have heq := takeLine_eq 7 bareConfig (reqhdlrOps 9 bareConfig) hw (by decide) dprInit
    [] (fun p hp => absurd hp List.not_mem_nil)
    (show lf ∉ ascii "100000000" ++ [cr] by decide)
  have hdone := heq.symm.trans htake
  rw [if_pos (by decide)] at hdone
  obtain ⟨rfl, -⟩ := Prod.mk.inj (Program.done.inj hdone)
  have hiff := startChunk_expects_iff (filled turn.conn (ascii "100000000" ++ crlf)) hrrs
    (hread.trans hlen.symm)
    (show turn.conn.bodyLen + digitsVal 16 (ascii "100000000") < 2 ^ 64 by rw [hlen]; decide)
    ⟨crlf ++ (ascii "100000000" ++ [cr])⟩ (by decide +kernel)
  exact absurd (hiff.mp hexp) (by decide)

end Example

end FilemanagerHttpd.Audit
