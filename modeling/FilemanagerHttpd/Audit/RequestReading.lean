import FilemanagerHttpd.Audit.SocketSupply
import FilemanagerHttpd.Audit.Texts

/-!
# What a call of `appendData` does to the bytes ahead

The header and the trailer take a byte at least. The body takes a byte, or waits for the handler,
or is complete.
-/

namespace FilemanagerHttpd.Audit

open Library Server

variable {H : Type} {Fit : H → Prop} {sock : Fd} {cfg : Config} {ops : HandlerOps H}
  {conn : ServerConnection H} {data : Bytes} {left : Nat}

section HeaderLines

theorem stops {α : Type} {Q : α → Prop} {e : Except Fault α} (h : Sound Wraps Q e) :
    Sound Stop Q e := h.mono stop_of_wraps fun _ hQ => hQ

/-- The faults of a header that is being read. -/
def headerFault : Fault → Bool
  | .heapOverflow | .exited | .indexOutOfRange .credential => true
  | _ => false

theorem headerFault_of_wraps {α : Type} {Q : α → Prop} {e : Except Fault α}
    (h : Sound Wraps Q e) : Sound (headerFault · = true) Q e :=
  h.mono (fun _ hf => by rw [hf]; rfl) fun _ hQ => hQ

theorem findCredential_faults (userName : Bytes) (creds : List Bytes) :
    Sound (headerFault · = true) Any (findCredential userName creds) := by
  induction creds with
  | nil => trivial
  | cons cred creds ih =>
    unfold findCredential
    refine .ite (.ite (rfl : headerFault (.indexOutOfRange .credential) = true) ?_) ih
    exact .ite trivial ih

theorem configGetDigestAuthCredential_faults (userName : Bytes) :
    Sound (headerFault · = true) Any (configGetDigestAuthCredential cfg userName) := by
  refine .ite trivial ((findCredential_faults userName cfg.credentials).bind fun found _ => ?_)
  split
  · trivial
  · refine .ite ?_ trivial
    refine (headerFault_of_wraps (mbAppendData_wraps _ _)).bind fun _ _ => ?_
    refine (headerFault_of_wraps (mbAppendStr_wraps _ _)).bind fun _ _ => ?_
    exact (headerFault_of_wraps (mbAppendStr_wraps _ _)).bind fun _ _ => trivial

theorem digestResponse_faults (method : Bytes) (d : DigestParams) :
    Sound (headerFault · = true) Any (digestResponse cfg method d) := by
  refine (headerFault_of_wraps (mbAppendData_wraps _ _)).bind fun _ _ => ?_
  refine (headerFault_of_wraps (mbAppendStr_wraps _ _)).bind fun _ _ => ?_
  refine (headerFault_of_wraps (mbAppendData_wraps _ _)).bind fun _ _ => ?_
  refine (headerFault_of_wraps (mbAppendStr_wraps _ _)).bind fun _ _ => ?_
  refine (headerFault_of_wraps (mbAppendData_wraps _ _)).bind fun _ _ => ?_
  refine (headerFault_of_wraps (mbAppendStr_wraps _ _)).bind fun _ _ => ?_
  refine (headerFault_of_wraps (mbAppendData_wraps _ _)).bind fun _ _ => ?_
  refine (headerFault_of_wraps (mbAppendStr_wraps _ _)).bind fun _ _ => ?_
  refine (headerFault_of_wraps (mbAppendStrL_wraps _ _)).bind fun _ _ => ?_
  refine (headerFault_of_wraps (mbAppendData_wraps _ _)).bind fun _ _ => ?_
  refine (headerFault_of_wraps (mbAppendStr_wraps _ _)).bind fun response _ => ?_
  refine (configGetDigestAuthCredential_faults d.username).bind fun found _ => ?_
  cases found with
  | none => trivial
  | some ha1 =>
    have hset : Sound (headerFault · = true) Any (mbSetData response 0 (ha1.take 32)) :=
      .ite (rfl : headerFault .exited = true) trivial
    exact hset.bind fun _ _ => trivial

theorem reqhdrAddLine_faults (req : RequestHeader) (line : Bytes) :
    Sound (headerFault · = true) Any (reqhdrAddLine cfg req line) := by
  have hauth : ∀ value method, Sound (headerFault · = true) Any (authIsClientAuthorized cfg value method) := by
    intro value method
    unfold authIsClientAuthorized
    split
    · trivial
    · refine .ite trivial ?_
      split
      · trivial
      · exact digestResponse_faults _ _
  unfold reqhdrAddLine
  split
  · trivial
  · have hcheck : ∀ name value, Sound (headerFault · = true) Any (checkAuthorization cfg req name value) := by
      intro name value
      exact .ite ((hauth _ _).bind fun _ _ => trivial) trivial
    refine (hcheck _ _).bind fun _ _ => .ite trivial ?_
    exact (rfl : headerFault .heapOverflow = true)

theorem reqhdrAppendLoop_faults (n : Nat) (req : RequestHeader) (bol : Bytes) :
    Sound (headerFault · = true) Any (reqhdrAppendLoop cfg n req bol) := by
  induction n generalizing req bol with
  | zero => trivial
  | succ n ih =>
    unfold reqhdrAppendLoop
    refine .ite trivial ?_
    split
    · exact (headerFault_of_wraps (extendLine_wraps _ _)).bind fun _ _ => trivial
    · exact (headerFault_of_wraps (extendLine_wraps _ _)).bind fun _ _ => .ite (ih _ _) (ih _ _)
    · exact (headerFault_of_wraps (extendLine_wraps _ _)).bind fun _ _ => trivial
    · refine (headerFault_of_wraps (extendLine_wraps _ _)).bind fun _ _ => .ite trivial ?_
      exact (reqhdrAddLine_faults _ _).bind fun _ _ => ih _ _

theorem reqhdrAppendData_faults (req : RequestHeader) (data : Bytes) :
    Sound (headerFault · = true) Any (reqhdrAppendData cfg req data) := by
  unfold reqhdrAppendData
  exact (reqhdrAppendLoop_faults _ _ _).bind fun _ _ => trivial

theorem reqhdrAppendData_stop (req : RequestHeader) (data : Bytes) :
    Sound Stop Any (reqhdrAppendData cfg req data) := by
  refine (reqhdrAppendData_faults req data).mono (fun f hf => ?_) fun _ h => h
  refine ⟨?_, ?_⟩ <;> rintro rfl <;> cases hf

theorem length_splitAtByte {c : Byte} {s piece rest : Bytes}
    (h : splitAtByte c s = some (piece, rest)) : rest.length < s.length := by
  obtain ⟨-, rfl⟩ := splitAtByte_eq h
  simp only [List.length_append, List.length_cons]
  omega

/-- The header ends behind a line end. -/
theorem reqhdrAppendLoop_rest {n : Nat} {req req' : RequestHeader} {bol rest : Bytes}
    (h : reqhdrAppendLoop cfg n req bol = .ok (req', some rest)) :
    rest.length < bol.length := by
  induction n generalizing req bol with
  | zero => cases h
  | succ n ih =>
    rw [reqhdrAppendLoop] at h
    split at h
    · cases h
    split at h
    · obtain ⟨line, -, h⟩ := bind_ok h
      cases h
    · rename_i piece tail _ hsplit
      obtain ⟨line, -, h⟩ := bind_ok h
      have hshort := length_splitAtByte hsplit
      dsimp only at h
      split at h
      · exact (ih h).trans hshort
      · exact (ih h).trans hshort
    · obtain ⟨line, -, h⟩ := bind_ok h
      cases h
    · rename_i piece tail _ hsplit
      obtain ⟨line, -, h⟩ := bind_ok h
      have hshort := length_splitAtByte hsplit
      split at h
      · cases h
        exact hshort
      · obtain ⟨req₁, -, h⟩ := bind_ok h
        exact (ih h).trans hshort

theorem reqhdrAppendData_offset {req req' : RequestHeader} {offset : Nat}
    (h : reqhdrAppendData cfg req data = .ok (req', some offset)) : 0 < offset := by
  obtain ⟨⟨req₁, rest⟩, hloop, h⟩ := bind_ok h
  cases rest with
  | none => cases h
  | some rest =>
    have hrest := reqhdrAppendLoop_rest hloop
    have heq : data.length - rest.length = offset := by
      cases h
      rfl
    omega

end HeaderLines

section Head

theorem AtBytes.shorter {rest : Bytes} (h : AtBytes Fit conn data left)
    (hle : rest.length ≤ data.length) : AtBytes Fit conn rest left where
  size := h.size
  filled := h.filled
  inside := hle.trans h.inside
  body := h.body
  awake := h.awake
  fresh := h.fresh
  bounded := by
    have hb := h.bounded
    omega
  fit := h.fit

theorem AtBytes.header (h : AtBytes Fit conn data left) (header : Option RequestHeader) :
    AtBytes Fit { conn with header } data left :=
  ⟨h.size, h.filled, h.inside, h.body, h.awake, h.fresh, h.bounded, h.fit⟩

/-- Header lines have been taken. -/
structure LinesTaken (Fit : H → Prop) (conn c : ServerConnection H) (left : Nat) : Prop
    extends InSupply Fit c left where
  rrs : c.rrs = conn.rrs
  handler : c.handler = conn.handler
  moved : bytesAhead c < bytesAhead conn

theorem appendHeaderData_ends (h : InSupply Fit conn left) (hawake : conn.rrs ≠ .idle)
    (hsize : 0 < conn.readSize) :
    Ends sock (appendHeaderData cfg conn) (fun r t => LinesTaken Fit conn r.1 t) left := by
  have hahead : 0 < bytesAhead conn := by
    have hlt := h.ahead hsize
    unfold bytesAhead
    omega
  have htaken : ∀ (header : RequestHeader) (rest : Bytes), rest.length < bytesAhead conn →
      LinesTaken Fit conn (ServerConnection.keep { conn with header := some header } rest)
        left := by
    intro header rest hrest
    have hat : AtBytes Fit { conn with header := some header } rest left :=
      ((h.atBytes hawake).header (some header)).shorter (by rw [h.length_unread]; omega)
    have hlen := bytesAhead_keep hat
    refine ⟨hat.keep, ?_, ?_, by rw [hlen]; exact hrest⟩
    · unfold ServerConnection.keep
      split <;> rfl
    · unfold ServerConnection.keep
      split <;> rfl
  unfold appendHeaderData
  refine .seq (R := fun a t => reqhdrAppendData cfg conn.hdr conn.unread = .ok a ∧ t = left)
    (.lift (reqhdrAppendData_stop _ _) fun a ha _ => ⟨ha, rfl⟩) ?_
  rintro ⟨header, offset⟩ t - ⟨hread, rfl⟩
  refine .perform fun _ u hu => ?_
  cases offset with
  | none =>
    refine .pure { htaken header [] hahead with toInSupply := ?_ }
    exact (htaken header [] hahead).less hu.le
  | some offset =>
    have hpos := reqhdrAppendData_offset hread
    have hrest : (conn.unread.drop offset).length < bytesAhead conn := by
      rw [List.length_drop, h.length_unread]
      omega
    refine .pure { htaken header _ hrest with toInSupply := ?_ }
    exact (htaken header _ hrest).less hu.le

/-- What a connection needs of its handlers: they take bytes of the body or wait, and all their
functions return. -/
structure TakesBody (Fit : H → Prop) (sock : Fd) (ops : HandlerOps H) : Prop where
  new : ∀ header peer left, Ends sock (ops.new header peer) (fun hdlr _ => Fit hdlr) left
  processData : ∀ hdlr data dpr left, Fit hdlr → data.length ≤ readBufferSize →
    Ends sock (ops.processData hdlr data dpr) (fun r _ => Fit r.1 ∧ r.2.2 ≤ data.length ∧
      (r.2.2 < data.length → r.2.1.reqState ≠ .ready)) left
  requestReadCompleted : ∀ hdlr header left,
    Ends sock (ops.requestReadCompleted hdlr header) (fun _ _ => True) left
  progressResponse : ∀ hdlr fd dpr left,
    Ends sock (ops.progressResponse hdlr fd dpr) (fun r _ => Fit hdlr → Fit r.1) left
  free : ∀ hdlr left, Ends sock (ops.free hdlr) (fun _ _ => True) left

/-- A complete request header makes the handler and says how the body is counted. -/
theorem onFinishedHeader_ends (hops : TakesBody Fit sock ops) (h : InSupply Fit conn left)
    (hhead : conn.rrs = .readHead) (header : RequestHeader) :
    Ends sock (onFinishedHeader ops conn header) (fun c t => InSupply Fit c t ∧
      c.rrs ≠ .idle ∧ c.rrs ≠ .readHead ∧ c.handler.isSome = true ∧
      bytesAhead c = bytesAhead conn) left := by
  obtain ⟨hchunk, hbody, hread⟩ := h.fresh hhead
  unfold onFinishedHeader
  refine .perform fun peer t ht => ?_
  refine .seq (hops.new header peer t) fun hdlr u hu hfit => ?_
  refine .perform fun _ v hv => ?_
  have hle : v ≤ left := (hv.le.trans hu).trans ht.le
  have hsupply := h.less hle
  have hfits : ∀ hdlr', some hdlr = some hdlr' → Fit hdlr' := by
    intro hdlr' heq
    cases heq
    exact hfit
  refine .ite (fun _ => ?_) fun _ => ?_
  · refine .seq (Ends.wraps (mbNewWithStr_wraps crlf)) fun chunkHdr w hw hmb => ?_
    refine .pure ⟨?_, nofun, nofun, rfl, rfl⟩
    rw [hmb.2]
    exact ⟨⟨h.offset, h.size, h.ahead, h.body, nofun⟩, h.filled, nofun, hsupply.bounded,
      fun _ => hfits⟩
  · have hstate : ∀ n : Nat,
        (if 0 < n then RequestReadState.readBody else .readFinished) ≠ .idle ∧
        (if 0 < n then RequestReadState.readBody else .readFinished) ≠ .readHead := by
      intro n
      by_cases hn : 0 < n
      · rw [if_pos hn]
        exact ⟨nofun, nofun⟩
      · rw [if_neg hn]
        exact ⟨nofun, nofun⟩
    refine .pure ⟨?_, (hstate _).1, (hstate _).2, rfl, rfl⟩
    refine ⟨⟨h.offset, h.size, h.ahead, ?_, fun hi => absurd hi (hstate _).1⟩, h.filled,
      fun hi => absurd hi (hstate _).2, hsupply.bounded, fun _ => hfits⟩
    show conn.bodyReadLen ≤ _
    rw [hread]
    exact Nat.zero_le _

/-- The part of a call that reads the header. -/
structure HeadDone (Fit : H → Prop) (conn c : ServerConnection H) (left : Nat) : Prop
    extends InSupply Fit c left where
  awake : c.rrs ≠ .idle
  handler : c.rrs ≠ .readHead → c.handler.isSome = true
  moved : bytesAhead c < bytesAhead conn ∨
    c = conn ∧ (conn.rrs = .readBody ∨ conn.rrs = .readTrailer)

theorem appendHead_ends (hops : TakesBody Fit sock ops) (h : InSupply Fit conn left)
    (hlive : Live conn) (hsize : 0 < conn.readSize) (hgo : conn.rrs ≠ .readFinished) :
    Ends sock (appendHead cfg ops conn) (HeadDone Fit conn) left := by
  have hhead : ∀ k : ServerConnection H × Bool → Prog (ServerConnection H),
      (∀ c, k (c, true) = onFinishedHeader ops c c.hdr) → (∀ c, k (c, false) = pure c) →
      ∀ c : ServerConnection H, InSupply Fit c left → c.rrs = .readHead → 0 < c.readSize →
      bytesAhead c = bytesAhead conn →
      Ends sock (appendHeaderData cfg c >>= k) (HeadDone Fit conn) left := by
    intro k hdone hopen c hc hrrs hpos hsame
    refine .seq (appendHeaderData_ends hc (by simp [hrrs]) hpos) ?_
    rintro ⟨c', done⟩ t - htaken
    have hrrs' : c'.rrs = .readHead := htaken.rrs.trans hrrs
    have hmoved : bytesAhead c' < bytesAhead conn := hsame ▸ htaken.moved
    cases done with
    | false =>
      rw [hopen]
      refine .pure ⟨htaken.toInSupply, by simp [hrrs'], fun hne => ?_, .inl hmoved⟩
      exact absurd hrrs' hne
    | true =>
      rw [hdone]
      refine (onFinishedHeader_ends hops htaken.toInSupply hrrs' _).mono ?_
      rintro c'' u - ⟨hin, hidle, hread, hsome, hahead⟩
      exact ⟨hin, hidle, fun _ => hsome, .inl (by rw [hahead]; exact hmoved)⟩
  unfold appendHead
  by_cases hidle : conn.rrs = .idle
  · obtain ⟨-, hhdlr, hchunk, hbody, hread⟩ := h.idle hidle
    simp only [if_pos hidle, if_true]
    refine hhead _ (fun _ => rfl) (fun _ => rfl) _ ?_ rfl hsize rfl
    exact ⟨⟨h.offset, h.size, h.ahead, h.body, fun hne => by cases hne⟩, h.filled,
      fun _ => ⟨hchunk, hbody, hread⟩, h.bounded, fun hne => by cases hne⟩
  simp only [if_neg hidle]
  refine .ite (fun hread => hhead _ (fun _ => rfl) (fun _ => rfl) conn h hread hsize rfl)
    fun hread => .pure ?_
  have hrest : conn.rrs = .readBody ∨ conn.rrs = .readTrailer := by
    cases hrrs : conn.rrs with
    | idle => exact absurd hrrs hidle
    | readHead => exact absurd hrrs hread
    | readBody => exact .inl rfl
    | readTrailer => exact .inr rfl
    | readFinished => exact absurd hrrs hgo
  exact ⟨h, hidle, fun _ => hlive hrest, .inr ⟨rfl, hrest⟩⟩

end Head

section Body

variable {dpr : DataProcessingResult}

/-- The part of the buffer that is offered: not empty, and within the body or the chunk. -/
theorem bodyBytesAhead_bounds (h : AtBytes Fit conn data left)
    (hlt : conn.bodyReadLen < conn.bodyLen) (hne : data ≠ []) :
    0 < bodyBytesAhead conn data ∧ bodyBytesAhead conn data ≤ data.length ∧
      conn.bodyReadLen + bodyBytesAhead conn data ≤ conn.bodyLen := by
  have hpos : 0 < data.length := List.length_pos_iff.mpr hne
  have hb := h.bounded
  have hwrap : (conn.bodyReadLen + data.length) % ulongSize = conn.bodyReadLen + data.length := by
    apply Nat.mod_eq_of_lt
    unfold ulongSize
    unfold supplyBound at hb
    omega
  unfold bodyBytesAhead
  rw [hwrap]
  split <;> omega

/-- What offering body bytes leaves. -/
structure Offered (Fit : H → Prop) (conn : ServerConnection H) (data : Bytes)
    (r : ServerConnection H × DataProcessingResult × Bytes × Bool) (left : Nat) : Prop where
  bytes : AtBytes Fit r.1 r.2.2.1 left
  handler : r.1.handler.isSome = true
  rrs : r.1.rrs = conn.rrs
  le : r.2.2.1.length ≤ data.length
  goesOn : r.2.2.2 = true → r.2.2.1.length < data.length ∨ r.1.bodyReadLen = r.1.bodyLen
  waits : r.2.2.2 = false → r.2.1.reqState ≠ .ready

theorem offerBody_ends (hops : TakesBody Fit sock ops) (h : AtBytes Fit conn data left)
    (hrrs : conn.rrs = .readBody) (hsome : conn.handler.isSome = true) (hne : data ≠ []) :
    Ends sock (offerBody ops conn dpr data) (Offered Fit conn data) left := by
  unfold offerBody
  refine .ite (fun hlt => ?_) fun hge => ?_
  · obtain ⟨hdlr, hhdlr⟩ := Option.isSome_iff_exists.mp hsome
    have hderef : Sound Stop (· = hdlr) (derefHandler conn) := by
      rw [derefHandler, hhdlr]
      rfl
    obtain ⟨hpos, hle, hbody⟩ := bodyBytesAhead_bounds h hlt hne
    have hin := h.inside
    have hsize := h.size
    have hb := h.bounded
    have htake : (data.take (bodyBytesAhead conn data)).length = bodyBytesAhead conn data :=
      List.length_take_of_le hle
    refine .seq (R := fun a t => a = hdlr ∧ t = left)
      (.lift hderef fun a _ ha => ⟨ha, rfl⟩) ?_
    rintro a t - ⟨rfl, rfl⟩
    refine .seq (hops.processData a _ dpr t (h.fit hrrs a hhdlr) (by omega)) ?_
    rintro ⟨hdlr', dpr', processed⟩ u hu ⟨hfit, htaken, hwaits⟩
    rw [htake] at htaken hwaits
    dsimp only at hfit htaken hwaits
    refine .perform fun _ v hv => .pure ?_
    have hvu := hv.le
    have hwrap : (conn.bodyReadLen + processed) % ulongSize = conn.bodyReadLen + processed := by
      apply Nat.mod_eq_of_lt
      unfold ulongSize
      unfold supplyBound at hb
      omega
    have hdrop : (data.drop processed).length = data.length - processed := List.length_drop
    refine ⟨⟨hsize, h.filled, ?_, ?_, h.awake, ?_, ?_, ?_⟩, rfl, rfl, ?_, ?_, ?_⟩
    · show (data.drop processed).length ≤ conn.readSize
      omega
    · show (conn.bodyReadLen + processed) % ulongSize ≤ conn.bodyLen
      omega
    · intro hhead
      rw [show conn.rrs = .readHead from hhead] at hrrs
      cases hrrs
    · show (conn.bodyReadLen + processed) % ulongSize + (data.drop processed).length + v < _
      omega
    · intro _ hdlr'' heq
      cases heq
      exact hfit
    · show (data.drop processed).length ≤ data.length
      omega
    · intro hall
      have hall' : bodyBytesAhead conn data ≤ processed := of_decide_eq_true hall
      left
      show (data.drop processed).length < data.length
      omega
    · intro hpart
      exact hwaits (Nat.lt_of_not_le (of_decide_eq_false hpart))
  · have heq : conn.bodyReadLen = conn.bodyLen := le_antisymm h.body (Nat.le_of_not_lt hge)
    exact .pure ⟨h, hsome, rfl, le_refl _, fun _ => .inr heq, nofun⟩

theorem AtBytes.startChunk (h : AtBytes Fit conn data left) (hrrs : conn.rrs = .readBody)
    (hcounted : conn.bodyReadLen = conn.bodyLen) (chunkHdr : MemBuf) :
    AtBytes Fit (startChunk conn chunkHdr) data left := by
  have hb := h.bounded
  unfold Server.startChunk
  dsimp only
  split
  · exact ⟨h.size, h.filled, h.inside, h.body, nofun, nofun, h.bounded, nofun⟩
  · refine ⟨h.size, h.filled, h.inside, ?_, h.awake, fun hhead => ?_, h.bounded, h.fit⟩
    · -- the counter is far from its end: the bytes of the chunks before have been read
      have hadd : strtoul 16 (chunkHdr.data.drop 2) % uintSize < uintSize :=
        Nat.mod_lt _ (by decide)
      show conn.bodyReadLen ≤ (conn.bodyLen + strtoul 16 (chunkHdr.data.drop 2) % uintSize) %
        ulongSize
      rw [Nat.mod_eq_of_lt]
      · omega
      · unfold uintSize at hadd ⊢
        unfold ulongSize
        unfold supplyBound at hb
        omega
    · rw [show conn.rrs = .readHead from hhead] at hrrs
      cases hrrs

/-- What is done with the bytes behind a complete body or chunk. -/
structure Completed (Fit : H → Prop) (conn : ServerConnection H) (data : Bytes)
    (r : ServerConnection H × Bytes) (left : Nat) : Prop where
  bytes : AtBytes Fit r.1 r.2 left
  handler : r.1.handler = conn.handler
  le : r.2.length ≤ data.length

/-- The size line takes a byte at least. -/
theorem readChunkHdr_ends (h : AtBytes Fit conn data left) (hrrs : conn.rrs = .readBody)
    (hcounted : conn.bodyReadLen = conn.bodyLen) (chunkHdr : MemBuf) :
    Sound Stop (fun r => Completed Fit conn data r left ∧ (data ≠ [] → r.2.length < data.length))
      (readChunkHdr conn chunkHdr data) := by
  have hdrop : (data.drop (2 - chunkHdr.dataLen)).length ≤ data.length := by
    rw [List.length_drop]
    omega
  refine (stops (mbAppendData_wraps _ _)).bind fun c _ => ?_
  split
  · refine (stops (mbAppendData_wraps _ _)).bind fun c _ => ⟨⟨?_, rfl, Nat.zero_le _⟩, ?_⟩
    · have hnil : AtBytes Fit conn [] left := h.shorter (Nat.zero_le _)
      exact ⟨hnil.size, hnil.filled, hnil.inside, hnil.body, hnil.awake,
        fun hhead => absurd (hrrs.symm.trans hhead) nofun, hnil.bounded, hnil.fit⟩
    · exact fun hne => List.length_pos_iff.mpr hne
  · rename_i piece rest hsplit
    have hshort : rest.length < data.length := (length_splitAtByte hsplit).trans_le hdrop
    refine (stops (mbAppendData_wraps _ _)).bind fun c _ => ⟨⟨?_, ?_, hshort.le⟩, fun _ => hshort⟩
    · exact (h.shorter hshort.le).startChunk hrrs hcounted c
    · unfold startChunk
      dsimp only
      split <;> rfl

theorem bodyComplete_ends (h : AtBytes Fit conn data left) (hrrs : conn.rrs = .readBody) :
    Sound Stop (fun r => Completed Fit conn data r left ∧
      (conn.bodyReadLen = conn.bodyLen → data ≠ [] →
        r.2.length < data.length ∨ r.1.rrs = .readFinished)) (bodyComplete conn data) := by
  unfold bodyComplete
  by_cases hcounted : conn.bodyReadLen = conn.bodyLen
  · rw [if_pos hcounted]
    split
    · rename_i chunkHdr _
      refine (readChunkHdr_ends h hrrs hcounted chunkHdr).mono (fun _ hf => hf) fun r hr => ?_
      exact ⟨hr.1, fun _ hne => .inl (hr.2 hne)⟩
    · exact ⟨⟨⟨h.size, h.filled, h.inside, h.body, nofun, nofun, h.bounded, nofun⟩, rfl,
        le_refl _⟩, fun _ _ => .inr rfl⟩
  · rw [if_neg hcounted]
    exact ⟨⟨h, rfl, le_refl _⟩, fun heq => absurd heq hcounted⟩

/-- Between the rounds of `appendBodyData` on `n` bytes. -/
structure InBody (Fit : H → Prop) (n : Nat)
    (x : ServerConnection H × DataProcessingResult × Bytes) (left : Nat) : Prop where
  bytes : AtBytes Fit x.1 x.2.2 left
  handler : x.1.handler.isSome = true
  le : x.2.2.length ≤ n
  moved : x.2.2.length < n ∨ x.1.rrs = .readFinished ∨ x.1.rrs = .readBody

/-- The bytes ahead, and whether the body goes on. -/
def bodyMeasure (x : ServerConnection H × DataProcessingResult × Bytes) : Nat :=
  2 * x.2.2.length + if x.1.rrs = .readBody then 1 else 0

/-- What is left of `n` bytes: less, or the handler is waited for, or the request is complete. -/
structure Progress (Fit : H → Prop) (n : Nat) (r : ServerConnection H × DataProcessingResult)
    (left : Nat) : Prop extends InSupply Fit r.1 left where
  awake : r.1.rrs ≠ .idle
  handler : r.1.rrs ≠ .readHead → r.1.handler.isSome = true
  le : bytesAhead r.1 ≤ n
  moved : bytesAhead r.1 < n ∨ r.2.reqState ≠ .ready ∨ r.1.rrs = .readFinished

theorem InBody.progress {n : Nat} {x : ServerConnection H × DataProcessingResult × Bytes}
    (h : InBody Fit n x left)
    (hmoved : x.2.2.length < n ∨ x.2.1.reqState ≠ .ready ∨ x.1.rrs = .readFinished) :
    Progress Fit n (x.1.keep x.2.2, x.2.1) left := by
  have hahead := bytesAhead_keep h.bytes
  have hfields : (x.1.keep x.2.2).rrs = x.1.rrs ∧ (x.1.keep x.2.2).handler = x.1.handler := by
    unfold ServerConnection.keep
    split <;> exact ⟨rfl, rfl⟩
  refine ⟨h.bytes.keep, ?_, fun _ => ?_, ?_, ?_⟩
  · rw [hfields.1]
    exact h.bytes.awake
  · rw [hfields.2]
    exact h.handler
  · rw [hahead]
    exact h.le
  · rw [hahead, hfields.1]
    exact hmoved

theorem bodyRound_ends (hops : TakesBody Fit sock ops) {n : Nat} (hn : 0 < n)
    {x : ServerConnection H × DataProcessingResult × Bytes} (h : InBody Fit n x left) :
    Ends sock (bodyRound ops x) (AfterRound
      (fun y t => InBody Fit n y t ∧ bodyMeasure y < bodyMeasure x) (Progress Fit n)) left := by
  obtain ⟨conn, dpr, data⟩ := x
  obtain ⟨hbytes, hsome, hle, hmoved⟩ := h
  dsimp only at hbytes hsome hle hmoved
  refine .ite (fun hstop => .pure ?_) fun hgo => ?_
  · refine InBody.progress (x := (conn, dpr, data)) ⟨hbytes, hsome, hle, hmoved⟩ ?_
    rcases hstop with hrrs | hnil
    · exact hmoved.imp_right fun hm => .inr (hm.resolve_right hrrs)
    · exact .inl (by rw [hnil]; exact hn)
  obtain ⟨hrrs, hne⟩ := not_or.mp hgo
  have hrrs : conn.rrs = .readBody := not_not.mp hrrs
  refine .seq (offerBody_ends hops hbytes hrrs hsome hne) ?_
  rintro ⟨conn₁, dpr₁, data₁, goOn⟩ t ht hoff
  have hle₁ : data₁.length ≤ data.length := hoff.le
  have hrrs₁ : conn₁.rrs = .readBody := hoff.rrs.trans hrrs
  cases goOn with
  | false =>
    refine .pure (InBody.progress (x := (conn₁, dpr₁, data₁)) ⟨hoff.bytes, hoff.handler,
      hle₁.trans hle, .inr (.inr hrrs₁)⟩ (.inr (.inl (hoff.waits rfl))))
  | true =>
    refine .seq (R := fun r u => Completed Fit conn₁ data₁ r u ∧ (conn₁.bodyReadLen =
      conn₁.bodyLen → data₁ ≠ [] → r.2.length < data₁.length ∨ r.1.rrs = .readFinished))
      (.lift (bodyComplete_ends hoff.bytes hrrs₁) fun _ _ hr => hr) ?_
    rintro ⟨conn₂, data₂⟩ u - ⟨hcomp, hstep⟩
    have hle₂ : data₂.length ≤ data₁.length := hcomp.le
    have hstep₂ : data₂.length < data.length ∨ conn₂.rrs = .readFinished := by
      rcases hoff.goesOn rfl with hlt | hcounted
      · exact .inl (hle₂.trans_lt hlt)
      · by_cases hnil : data₁ = []
        · have hpos : 0 < data.length := List.length_pos_iff.mpr hne
          rw [hnil] at hle₂
          exact .inl (hle₂.trans_lt hpos)
        · exact (hstep hcounted hnil).imp_left fun hlt => hlt.trans_le hle₁
    refine .pure ⟨⟨hcomp.bytes, ?_, ?_, ?_⟩, ?_⟩
    · show conn₂.handler.isSome = true
      rw [show conn₂.handler = conn₁.handler from hcomp.handler]
      exact hoff.handler
    · exact hle₂.trans (hle₁.trans hle)
    · exact hstep₂.imp (fun hlt => hlt.trans_le hle) .inl
    · show 2 * data₂.length + (if conn₂.rrs = .readBody then 1 else 0) <
        2 * data.length + if conn.rrs = .readBody then 1 else 0
      rw [if_pos hrrs]
      rcases hstep₂ with hlt | hfin
      · split <;> omega
      · rw [if_neg (by rw [hfin]; nofun)]
        omega

theorem appendBodyData_ends (hops : TakesBody Fit sock ops) {fuel : Nat}
    (hfuel : 2 * readBufferSize + 1 < fuel) (h : InSupply Fit conn left)
    (hrrs : conn.rrs = .readBody) (hsome : conn.handler.isSome = true) (hsize : 0 < conn.readSize) :
    Ends sock (appendBodyData fuel ops conn dpr) (Progress Fit (bytesAhead conn)) left := by
  have hpos : 0 < bytesAhead conn := by
    have hlt := h.ahead hsize
    unfold bytesAhead
    omega
  have hawake : conn.rrs ≠ .idle := by
    rw [hrrs]
    nofun
  refine wp_iterate_measure (I := InBody Fit (bytesAhead conn)) bodyMeasure
    (fun x t hx => bodyRound_ends hops hpos hx) fuel ?_ ?_
  · exact ⟨h.atBytes hawake, hsome, le_of_eq h.length_unread, .inr (.inr hrrs)⟩
  · show 2 * conn.unread.length + (if conn.rrs = .readBody then 1 else 0) < fuel
    have hin := h.size
    rw [h.length_unread, if_pos hrrs]
    unfold bytesAhead
    omega

end Body

section Data

variable {dpr : DataProcessingResult}

/-- The part of a call that reads the body; a trailer may be next. -/
structure BodyDone (Fit : H → Prop) (conn c : ServerConnection H)
    (r : ServerConnection H × DataProcessingResult) (left : Nat) : Prop
    extends InSupply Fit r.1 left where
  awake : r.1.rrs ≠ .idle
  handler : r.1.rrs ≠ .readHead → r.1.handler.isSome = true
  le : bytesAhead r.1 ≤ bytesAhead c
  moved : (bytesAhead r.1 < bytesAhead conn ∨ r.2.reqState ≠ .ready ∨ r.1.rrs = .readFinished) ∨
    r.1 = conn ∧ conn.rrs = .readTrailer

theorem HeadDone.le {c : ServerConnection H} (h : HeadDone Fit conn c left) :
    bytesAhead c ≤ bytesAhead conn := by
  rcases h.moved with hlt | ⟨heq, -⟩
  · exact hlt.le
  · rw [heq]

theorem appendBody_ends (hops : TakesBody Fit sock ops) {fuel : Nat}
    (hfuel : 2 * readBufferSize + 1 < fuel) (hsize : 0 < conn.readSize)
    {c : ServerConnection H} (h : HeadDone Fit conn c left) :
    Ends sock (appendBody fuel ops c dpr) (BodyDone Fit conn c) left := by
  refine .ite (fun hbody => ?_) fun hno => .pure ⟨h.toInSupply, h.awake, h.handler, le_refl _, ?_⟩
  · have hsome : c.handler.isSome = true := h.handler (by rw [hbody.1]; nofun)
    refine (appendBodyData_ends hops hfuel h.toInSupply hbody.1 hsome
      (Nat.pos_of_ne_zero hbody.2)).mono fun r t _ hr => ?_
    exact ⟨hr.toInSupply, hr.awake, hr.handler, hr.le,
      .inl (hr.moved.imp_left fun hlt => hlt.trans_le h.le)⟩
  · rcases h.moved with hlt | ⟨rfl, hbody | htrailer⟩
    · exact .inl (.inl hlt)
    · exact absurd ⟨hbody, hsize.ne'⟩ hno
    · exact .inr ⟨rfl, htrailer⟩

theorem appendTrailer_ends (hsize : 0 < conn.readSize) {c : ServerConnection H}
    {r : ServerConnection H × DataProcessingResult} (hle : bytesAhead c ≤ bytesAhead conn)
    (h : BodyDone Fit conn c r left) :
    Ends sock (appendTrailer cfg r.1) (fun c' t => Progress Fit (bytesAhead conn) (c', r.2) t ∧
      bytesAhead c' ≤ bytesAhead c) left := by
  obtain ⟨c₁, dpr⟩ := r
  have hle₁ : bytesAhead c₁ ≤ bytesAhead c := h.le
  refine .ite (fun htrailer => ?_) fun hno => .pure ⟨⟨h.toInSupply, h.awake, h.handler,
    hle₁.trans hle, ?_⟩, hle₁⟩
  · obtain ⟨hrrs, hpos⟩ := htrailer
    have hsome : c₁.handler.isSome = true := h.handler (by rw [hrrs]; nofun)
    refine .seq (appendHeaderData_ends h.toInSupply h.awake (Nat.pos_of_ne_zero hpos)) ?_
    rintro ⟨c', done⟩ t - htaken
    have hmoved : bytesAhead c' < bytesAhead c₁ := htaken.moved
    have hrrs' : c'.rrs = .readTrailer := htaken.rrs.trans hrrs
    have hsome' : c'.handler.isSome = true := by
      rw [show c'.handler = c₁.handler from htaken.handler]
      exact hsome
    have hless : bytesAhead c' < bytesAhead conn := hmoved.trans_le (hle₁.trans hle)
    cases done with
    | false =>
      exact .pure ⟨⟨htaken.toInSupply, by rw [hrrs']; nofun, fun _ => hsome', hless.le,
        .inl hless⟩, (hmoved.trans_le hle₁).le⟩
    | true =>
      refine .pure ⟨⟨?_, nofun, fun _ => hsome', hless.le, .inl hless⟩, (hmoved.trans_le hle₁).le⟩
      exact ⟨⟨htaken.offset, htaken.size, htaken.ahead, htaken.body, nofun⟩, htaken.filled, nofun,
        htaken.bounded, nofun⟩
  · rcases h.moved with hmoved | ⟨rfl, htrailer⟩
    · exact hmoved
    · exact absurd ⟨htrailer, hsize.ne'⟩ hno

/-- A call of `appendData` on bytes that are ahead. An idle connection takes some of them. -/
theorem appendData_ends (hops : TakesBody Fit sock ops) {fuel : Nat}
    (hfuel : 2 * readBufferSize + 1 < fuel) (h : InSupply Fit conn left) (hlive : Live conn)
    (hsize : 0 < conn.readSize) (hgo : conn.rrs ≠ .readFinished) :
    Ends sock (appendData fuel cfg ops conn dpr) (fun r t => Progress Fit (bytesAhead conn) r t ∧
      (conn.rrs = .idle → bytesAhead r.1 < bytesAhead conn)) left := by
  refine .seq (appendHead_ends hops h hlive hsize hgo) fun c t _ hc => ?_
  refine .seq (appendBody_ends hops hfuel hsize hc) ?_
  rintro ⟨c₁, dpr₁⟩ u - hbody
  refine .seq (appendTrailer_ends hsize hc.le hbody) fun c₂ v _ hr => ?_
  obtain ⟨hprogress, hle⟩ := hr
  have hidle : conn.rrs = .idle → bytesAhead c₂ < bytesAhead conn := by
    intro hi
    rcases hc.moved with hlt | ⟨rfl, -⟩
    · exact hle.trans_lt hlt
    · exact absurd hi hc.awake
  refine .ite (fun hfin => ?_) fun _ => .pure ⟨hprogress, hidle⟩
  have hrrs : c₂.rrs = .readFinished := hfin.2
  obtain ⟨hdlr, hhdlr⟩ := Option.isSome_iff_exists.mp
    (hprogress.handler (by show c₂.rrs ≠ _; rw [hrrs]; nofun))
  have hderef : Sound Stop (· = hdlr) (derefHandler c₂) := by
    rw [derefHandler, hhdlr]
    rfl
  refine .perform fun _ w hw => ?_
  refine .seq (.lift (Q := fun _ w' => w' = w) hderef fun _ _ _ => rfl) ?_
  rintro hdlr' w' - rfl
  refine .seq (hops.requestReadCompleted hdlr' c₂.hdr w') fun hdlr'' z hz _ => .pure ⟨?_, hidle⟩
  have hin := hprogress.toInSupply.less (hz.trans hw.le)
  refine ⟨⟨⟨hin.offset, hin.size, hin.ahead, hin.body, ?_⟩, hin.filled, hin.fresh, hin.bounded, ?_⟩,
    hprogress.awake, fun _ => rfl, hprogress.le, hprogress.moved⟩
  · exact fun hi => absurd hi hprogress.awake
  · intro hb
    rw [show c₂.rrs = .readBody from hb] at hrrs
    cases hrrs

end Data

end FilemanagerHttpd.Audit
