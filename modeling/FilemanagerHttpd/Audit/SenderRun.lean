import FilemanagerHttpd.Audit.SenderLoops
import FilemanagerHttpd.Library.Chunked

/-!
# One call of `rsndr_send`

What has been sent and what is pending always make up what has been produced. A
property of the produced bytes that every refill of the buffer keeps is therefore
kept by the whole call, wherever it stops.
-/

namespace FilemanagerHttpd.Audit

open Library Server

/-- The part of the body buffer that is to be sent. -/
def ResponseSender.bodyData (r : ResponseSender) : Bytes :=
  match r.body with
  | none => []
  | some b => b.data.take r.dataSize

/-- What the sender holds ready for the socket. -/
def pending (r : ResponseSender) : Bytes :=
  match r.header with
  | some hd => hd.data.drop r.dataOffset ++ ResponseSender.bodyData r
  | none => (ResponseSender.bodyData r).drop r.dataOffset

/-- There is a body, and offset and size lie inside the buffers. -/
structure InBounds (r : ResponseSender) : Prop where
  has_body : r.body.isSome
  size_le : ∀ b, r.body = some b → r.dataSize ≤ b.dataLen
  header_le : ∀ hd, r.header = some hd → r.dataOffset ≤ hd.dataLen
  offset_le : r.header = none → ∀ b, r.body = some b → r.dataOffset ≤ r.dataSize

theorem InBounds.ofBody {b : MemBuf} {fd : Option Fd} {size off : Nat} {n : Int}
    (hoff : off ≤ size) (hsize : size ≤ b.dataLen) :
    InBounds ⟨none, some b, fd, size, off, n⟩ := by
  refine ⟨rfl, fun x hx => ?_, nofun, fun _ _ _ => hoff⟩
  obtain rfl : b = x := by simpa using hx
  exact hsize

/-- A property of the bytes produced so far, the reads so far, the number of bytes left
and the descriptor. -/
def Production := Bytes → List ReadResult → Int → Option Fd → Prop

/-- Every refill of the buffer keeps the property. -/
def RefillKeeps (sock : Fd) (file : Option Fd) (J : Production) : Prop :=
  ∀ (r : ResponseSender) (body : MemBuf) (dpr : DataProcessingResult) (P : Bytes)
    (R : List ReadResult) (h : History),
    r.header = none → r.body = some body → r.nbytes ≠ 0 → J P R r.nbytes r.fileDesc →
    wp posix .none (fillBuffer r body dpr) (fun x h' => ∃ reads,
      Transfer sock file h h' [] reads ∧ InBounds x.1 ∧ x.1.header = none ∧
        J (P ++ pending x.1) (R ++ reads) x.1.nbytes x.1.fileDesc) h

section

variable {sock : Fd} {file : Option Fd} {J : Production}

/-- The state of a sender between two of its steps. -/
structure Sending (sock : Fd) (file : Option Fd) (J : Production) (P : Bytes)
    (R : List ReadResult) (h : History) (r : ResponseSender) (h' : History) : Prop where
  inBounds : InBounds r
  produced : ∃ sent reads, Transfer sock file h h' sent reads ∧
    J (P ++ sent ++ pending r) (R ++ reads) r.nbytes r.fileDesc

/-- The sender has nothing left to send. -/
def Exhausted (r : ResponseSender) : Prop := pending r = [] ∧ r.nbytes = 0

theorem writeFailed_close {e : Errno} {dpr : DataProcessingResult}
    (hfin : (writeFailed e sock dpr).2 = true) : (writeFailed e sock dpr).1.closeConn = true := by
  unfold writeFailed at hfin ⊢
  split at hfin
  · cases hfin
  · rename_i he; rw [if_neg he]; rfl

theorem pending_body (body : MemBuf) (fd : Option Fd) (size off : Nat) (n : Int) :
    pending ⟨none, some body, fd, size, off, n⟩ = (body.data.take size).drop off := rfl

theorem sendBody_keeps (hJ : RefillKeeps sock file J) (fuel : Nat) (P : Bytes)
    (R : List ReadResult) {r : ResponseSender} (dpr : DataProcessingResult) {h h₁ : History}
    (hr : r.header = none) (hs : Sending sock file J P R h r h₁) :
    wp posix .none (sendBody fuel sock r dpr) (fun x h' => Sending sock file J P R h x.1 h' ∧
      (x.2.2 = true → x.2.1.closeConn = false → Exhausted x.1)) h₁ := by
  refine wp_iterate (I := fun (x : ResponseSender × DataProcessingResult) h' =>
    x.1.header = none ∧ Sending sock file J P R h x.1 h') (fun _ => trivial) ?_ fuel ⟨hr, hs⟩
  rintro ⟨⟨header, body, fd, size, off, n⟩, dpr⟩ h₂ ⟨hr, hs⟩
  obtain rfl : header = none := hr
  cases body with
  | none => exact absurd hs.inBounds.has_body (by simp)
  | some body =>
    obtain ⟨hin, sent, reads, ht, hP⟩ := hs
    have hsize : size ≤ body.dataLen := hin.size_le body rfl
    have hlen : (body.data.take size).length = size := by
      rw [List.length_take]; exact Nat.min_eq_left hsize
    have hoff : off ≤ (body.data.take size).length := by
      rw [hlen]; exact hin.offset_le rfl body rfl
    refine wp_seq (writeLoop_transfer fuel sock file hoff h₂) ?_
    rintro ⟨off', e⟩ h₃ ⟨sent', ht', hle, hsent', hdone⟩
    simp only at hle hsent' hdone
    have ht₂ : Transfer sock file h h₃ (sent ++ sent') reads := by simpa using ht.trans ht'
    -- what the loop has sent was pending before
    have hprod : J (P ++ (sent ++ sent') ++ pending ⟨none, some body, fd, size, off', n⟩)
        (R ++ reads) n fd := by
      rw [pending_body, ← List.append_assoc, List.append_assoc, hsent']
      exact hP
    have hin' : InBounds ⟨none, some body, fd, size, off', n⟩ := .ofBody (hlen ▸ hle) hsize
    cases e with
    | some e =>
      refine ⟨⟨hin', _, _, ht₂, hprod⟩, fun hfin hclose => ?_⟩
      exact absurd ((writeFailed_close hfin).symm.trans hclose) (by decide)
    | none =>
      have hnil : pending ⟨none, some body, fd, size, off', n⟩ = [] := by
        rw [pending_body, hdone rfl, List.drop_length]
      by_cases hn : n = 0
      · simp only [hn, if_true]
        subst hn
        exact ⟨⟨hin', _, _, ht₂, hprod⟩, fun _ _ => ⟨hnil, rfl⟩⟩
      · simp only [hn, if_false]
        rw [hnil, List.append_nil] at hprod
        refine wp_seq (hJ _ body dpr _ _ h₃ rfl rfl hn hprod) ?_
        rintro ⟨r', dpr'⟩ h₄ ⟨reads', ht₄, hin₄, hr₄, hJ₄⟩
        have hs₄ : Sending sock file J P R h r' h₄ := by
          refine ⟨hin₄, sent ++ sent', reads ++ reads', by simpa using ht₂.trans ht₄, ?_⟩
          rw [← List.append_assoc R]; exact hJ₄
        by_cases hz : r'.dataSize = 0
        · simp only [hz, if_true]
          exact ⟨hs₄, fun hf => by cases hf⟩
        · simp only [hz, if_false]
          exact ⟨hr₄, hs₄⟩

theorem rsndrSend_keeps (hJ : RefillKeeps sock file J) (fuel : Nat) (P : Bytes)
    (R : List ReadResult) {r : ResponseSender} (dpr : DataProcessingResult) {h : History}
    (hin : InBounds r) (hP : J (P ++ pending r) R r.nbytes r.fileDesc) :
    wp posix .none (rsndrSend fuel r sock dpr) (fun x h' => Sending sock file J P R h x.1 h' ∧
      (x.2.2 = true → x.2.1.closeConn = false → Exhausted x.1)) h := by
  have hstart : Sending sock file J P R h r h := ⟨hin, [], [], .refl, by simpa using hP⟩
  obtain ⟨header, body, fd, size, off, n⟩ := r
  cases header with
  | none => exact sendBody_keeps hJ fuel P R dpr rfl hstart
  | some header =>
    refine wp_seq (writeLoop_transfer fuel sock file (hin.header_le header rfl) h) ?_
    rintro ⟨off', e⟩ h₁ ⟨sent, ht, hle, hsent, hdone⟩
    simp only at hle hsent hdone
    have hprod : J (P ++ sent ++ pending ⟨some header, body, fd, size, off', n⟩) R n fd := by
      have hpend : pending ⟨some header, body, fd, size, off, n⟩ =
          sent ++ pending ⟨some header, body, fd, size, off', n⟩ := by
        simp only [pending]; rw [← List.append_assoc, hsent]; rfl
      rw [hpend, ← List.append_assoc] at hP
      exact hP
    cases e with
    | some e =>
      refine ⟨⟨⟨hin.has_body, hin.size_le, fun hd hhd => ?_, nofun⟩, sent, [], ht,
        by simpa using hprod⟩, fun hfin hclose => ?_⟩
      · obtain rfl : header = hd := by simpa using hhd
        exact hle
      · exact absurd ((writeFailed_close hfin).symm.trans hclose) (by decide)
    | none =>
      refine sendBody_keeps hJ fuel P R dpr rfl ⟨⟨hin.has_body, hin.size_le, nofun,
        fun _ _ _ => Nat.zero_le _⟩, sent, [], ht, ?_⟩
      have hnext : pending ⟨some header, body, fd, size, off', n⟩ =
          pending ⟨none, body, fd, size, 0, n⟩ := by
        simp only [pending, hdone rfl, List.drop_length, List.nil_append, List.drop_zero,
          ResponseSender.bodyData]
      rw [hnext] at hprod
      simpa using hprod

end

/-- What the sender reckons with, from the answer of `fstat`. -/
def bytesOfStat : Except Errno FileStat → Int
  | .ok st => if st.isReg then st.size else -1
  | .error _ => 0

/-- The number of file bytes that the events of `rsndr_new` announce. -/
def BytesAnnounced (file : Option Fd) (new : History) (n : Int) : Prop :=
  match file with
  | none => n = 0
  | some fd => ∃ r, (⟨.fstat fd, r⟩ : Event) ∈ new ∧ n = bytesOfStat r

/-- The first piece of a body: itself, or a chunk of it. -/
def startOfBody (n : Int) (content : Bytes) : Bytes :=
  if n = -1 then if content = [] then [] else Chunked.chunk content else content

theorem nul_not_mem_lengthLine (bodyLen : Nat) (n : Int) : nul ∉ lengthLine bodyLen n := by
  unfold lengthLine
  split
  · have hd := nul_not_mem_digits (by decide : 1 < 10) (by decide) (bodyLen + n.toNat)
    simp only [List.mem_append, not_or]
    exact ⟨⟨by decide, hd⟩, by decide⟩
  · decide

theorem nul_not_mem_chunkSizeLine (n : Nat) : nul ∉ chunkSizeLine n := by
  have hd := nul_not_mem_digits (by decide : 1 < 16) (le_refl 16) n
  simp only [chunkSizeLine, hexadecimal, List.mem_append, not_or]
  exact ⟨hd, by decide⟩

theorem fileBytesToSend_spec (body : MemBuf) (file : Option Fd) (h : History) :
    wp posix .none (fileBytesToSend (some body) file) (fun n h' => ∃ new, h' = new ++ h ∧
      (n = -1 ∨ 0 ≤ n) ∧ (file = none → n = 0) ∧
        ∀ e ∈ new, ∀ fd r, file = some fd → e = ⟨.fstat fd, r⟩ → n = bytesOfStat r) h := by
  unfold fileBytesToSend
  cases file with
  | none => exact ⟨[], rfl, .inr (le_refl 0), fun _ => rfl, by simp⟩
  | some fd =>
    simp only [perform_bind, wp_perform]
    refine ⟨trivial, fun r _ => ?_⟩
    have hr : ∀ e ∈ [(⟨.fstat fd, r⟩ : Event)], ∀ fd' r', some fd = some fd' →
        e = ⟨.fstat fd', r'⟩ → bytesOfStat r = bytesOfStat r' := by
      rintro e he fd' r' hfd rfl
      simp only [List.mem_singleton, Event.mk.injEq, Sys.fstat.injEq] at he
      obtain ⟨rfl, he⟩ := he
      rw [eq_of_heq he]
    cases r with
    | ok st =>
      refine ⟨[⟨.fstat fd, .ok st⟩], rfl, ?_, nofun, hr⟩
      cases st.isReg
      · exact .inl rfl
      · exact .inr (Int.natCast_nonneg _)
    | error e => exact ⟨[⟨.fstat fd, .error e⟩], rfl, .inr (le_refl 0), nofun, hr⟩

theorem closeIf_spec (cond : Bool) (file : Option Fd) (h : History) :
    wp posix .none (closeIf cond file) (fun fd h' => ∃ new, h' = new ++ h ∧
      (∀ e ∈ new, ∃ fd, e = ⟨.close fd, ()⟩) ∧ fd = if cond then none else file) h := by
  unfold closeIf
  cases cond with
  | false => exact ⟨[], rfl, by simp, rfl⟩
  | true =>
    cases file with
    | none => exact ⟨[], rfl, by simp, rfl⟩
    | some fd =>
      simp only [if_true, closeFd, perform_bind, wp_perform]
      exact ⟨trivial, fun _ _ => ⟨[⟨.close fd, ()⟩], rfl, by simp, rfl⟩⟩

/-- A new sender has the header with the length line, the empty line and the first piece
of the body pending. -/
theorem rsndrNew_spec (header body : MemBuf) (file : Option Fd) (h : History) :
    wp posix .none (rsndrNew header (some body) file) (fun r h' => ∃ new, h' = new ++ h ∧
      InBounds r ∧ (∀ n, BytesAnnounced file new n → n = r.nbytes) ∧
        r.fileDesc = (if r.nbytes = 0 then none else file) ∧
        pending r = header.data ++ lengthLine body.dataLen r.nbytes ++ crlf ++
          startOfBody r.nbytes body.data) h := by
  unfold rsndrNew
  refine wp_seq (fileBytesToSend_spec body file h) ?_
  rintro n _ ⟨new, rfl, hn, hnone, hstat⟩
  -- the only `fstat` of the run is the one above
  have hann : ∀ new', (∀ e ∈ new', e ∈ new ∨ ∃ fd, e = ⟨.close fd, ()⟩) →
      ∀ n', BytesAnnounced file new' n' → n' = n := by
    intro new' hsub n' hn'
    cases file with
    | none => rw [hnone rfl]; exact hn'
    | some fd =>
      obtain ⟨r, hr, rfl⟩ := hn'
      rcases hsub _ hr with hr | ⟨fd', he⟩
      · exact (hstat _ hr fd r rfl rfl).symm
      · simp at he
  refine wp_seq (wp_lift (Q := fun hd h' => h' = new ++ h ∧
    hd.data = header.data ++ lengthLine body.dataLen n) (fun _ => trivial) fun hd hhd =>
      ⟨rfl, mbAppendStr_ok (nul_not_mem_lengthLine _ _) hhd⟩) ?_
  rintro hd _ ⟨rfl, hhd⟩
  refine wp_seq (closeIf_spec (n = 0) file (new ++ h)) ?_
  rintro fd _ ⟨closed, rfl, hsub, rfl⟩
  obtain ⟨new', hnew', hsub'⟩ : ∃ new', closed ++ (new ++ h) = new' ++ h ∧
      ∀ e ∈ new', e ∈ new ∨ ∃ fd, e = ⟨.close fd, ()⟩ :=
    ⟨closed ++ new, (List.append_assoc _ _ _).symm, fun e he =>
      (List.mem_append.mp he).symm.imp_right (hsub e)⟩
  rw [hnew']
  simp only [decide_eq_true_eq]
  refine wp_seq (wp_lift (Q := fun hd' h' => h' = new' ++ h ∧ hd'.data = hd.data ++ crlf)
    (fun _ => trivial) fun hd' hhd' => ⟨rfl, mbAppendStr_ok (by decide) hhd'⟩) ?_
  rintro hd' _ ⟨rfl, hhd'⟩
  by_cases hchunk : n = -1 ∧ 0 < body.dataLen
  · rw [if_pos hchunk]
    obtain ⟨rfl, hlen⟩ := hchunk
    refine wp_seq (wp_lift (Q := fun hd₂ h' => h' = new' ++ h ∧
      hd₂.data = hd'.data ++ chunkSizeLine body.dataLen) (fun _ => trivial) fun hd₂ hhd₂ =>
        ⟨rfl, mbAppendStr_ok (nul_not_mem_chunkSizeLine _) hhd₂⟩) ?_
    rintro hd₂ _ ⟨rfl, hhd₂⟩
    refine wp_seq (wp_lift (Q := fun b h' => h' = new' ++ h ∧ b.data = body.data ++ crlf)
      (fun _ => trivial) fun b hb => ⟨rfl, mbAppendStr_ok (by decide) hb⟩) ?_
    rintro b _ ⟨rfl, hb⟩
    refine ⟨new', rfl, ⟨rfl, ?_, ?_, fun hnone => by cases hnone⟩, hann new' hsub', rfl, ?_⟩
    · intro x hx
      obtain rfl : b = x := by simpa using hx
      exact le_refl _
    · intro x _; exact Nat.zero_le _
    · have hne : body.data ≠ [] := List.ne_nil_of_length_pos hlen
      have ht : b.data.take b.dataLen = body.data ++ crlf := by
        rw [MemBuf.dataLen, List.take_length, hb]
      simp only [pending, ResponseSender.bodyData, List.drop_zero, ht, hhd₂, hhd', hhd,
        startOfBody, if_true, if_neg hne, Chunked.chunk, List.append_assoc]
      rfl
  · rw [if_neg hchunk]
    refine ⟨new', rfl, ⟨rfl, ?_, ?_, fun hnone => by cases hnone⟩, hann new' hsub', rfl, ?_⟩
    · intro x hx
      obtain rfl : body = x := by simpa using hx
      exact le_refl _
    · intro x _; exact Nat.zero_le _
    · have ht : body.data.take body.dataLen = body.data := List.take_length
      have hstart : startOfBody n body.data = body.data := by
        unfold startOfBody
        by_cases hn1 : n = -1
        · have hnil : body.data = [] := by
            have : ¬ 0 < body.dataLen := fun hp => hchunk ⟨hn1, hp⟩
            exact List.eq_nil_of_length_eq_zero (by rw [MemBuf.dataLen] at this; omega)
          simp [hn1, hnil]
        · rw [if_neg hn1]
      simp only [pending, ResponseSender.bodyData, List.drop_zero, ht, hhd', hhd, hstart]

/-- Calls of `rsndr_send` one after the other, up to one that ends with the given results.
Between them the server may do anything else; `log` has the events of the calls alone. -/
inductive SendCalls (sock : Fd) : ResponseSender → History → ResponseSender →
    DataProcessingResult → Bool → Prop
  | last {fuel : Nat} {r r' : ResponseSender} {dpr dpr' : DataProcessingResult} {fin : Bool}
      {h new : History} :
      Runs posix (rsndrSend fuel r sock dpr) h (.done (r', dpr', fin)) (new ++ h) →
      SendCalls sock r new r' dpr' fin
  | more {fuel : Nat} {r r₁ r' : ResponseSender} {dpr dpr₁ dpr' : DataProcessingResult}
      {fin : Bool} {h new log : History} :
      Runs posix (rsndrSend fuel r sock dpr) h (.done (r₁, dpr₁, false)) (new ++ h) →
      SendCalls sock r₁ log r' dpr' fin → SendCalls sock r (log ++ new) r' dpr' fin

/-- A production that every refill keeps is kept by all calls. -/
theorem SendCalls.keeps {sock : Fd} {file : Option Fd} {J : Production}
    (hJ : RefillKeeps sock file J) {r r' : ResponseSender} {dpr' : DataProcessingResult}
    {fin : Bool} {log : History} (hc : SendCalls sock r log r' dpr' fin) {P : Bytes}
    {R : List ReadResult} (hin : InBounds r) (hP : J (P ++ pending r) R r.nbytes r.fileDesc) :
    InBounds r' ∧ J (P ++ sentTo sock log ++ pending r') (R ++ readsFromOpt file log)
      r'.nbytes r'.fileDesc ∧ (fin = true → dpr'.closeConn = false → Exhausted r') := by
  induction hc generalizing P R with
  | last hr =>
    obtain ⟨⟨hin', sent, reads, ht, hJ'⟩, hex⟩ := wp_result (rsndrSend_keeps hJ _ P R _ hin hP) hr
    obtain ⟨rfl, rfl⟩ := ht.of_append
    exact ⟨hin', hJ', hex⟩
  | more hr _ ih =>
    obtain ⟨⟨hin', sent, reads, ht, hJ'⟩, -⟩ := wp_result (rsndrSend_keeps hJ _ P R _ hin hP) hr
    obtain ⟨rfl, rfl⟩ := ht.of_append
    obtain ⟨hin₂, hJ₂, hex⟩ := ih hin' hJ'
    refine ⟨hin₂, ?_, hex⟩
    have hreads : ∀ a b,
        readsFromOpt file (a ++ b) = readsFromOpt file b ++ readsFromOpt file a := by
      intro a b
      cases file with
      | none => rfl
      | some fd => exact readsFrom_append fd a b
    rw [sentTo_append, hreads, ← List.append_assoc P, ← List.append_assoc R]
    exact hJ₂

end FilemanagerHttpd.Audit
