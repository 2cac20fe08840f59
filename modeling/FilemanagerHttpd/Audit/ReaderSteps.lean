import FilemanagerHttpd.Audit.ConnectionWork
import FilemanagerHttpd.Audit.RequestReader

/-!
# What a connection does with what it has read

The bytes that a connection has read are processed in steps of the reader, and the reads of the
socket and the notes are what these steps show. The handlers read nothing from the socket.
-/

namespace FilemanagerHttpd.Audit

open Library Server

variable {cfg : Config} {H : Type} {ops : HandlerOps H} {α β : Type}

/-- Not to read from a socket. -/
def sparing (sock : Fd) : Duty sys Fault History :=
  ⟨fun c _ => ∀ n, c ≠ .read sock n, fun _ _ => True⟩

/-- What the reading needs of the handlers, beside their contract: they take no more of the body
than they are offered, and the answer does not read from the socket. -/
structure ReadContract (K : HandlerContract cfg ops) : Prop where
  takes : ∀ hdlr data dpr, Yields (fun r => r.2.2 ≤ data.length) (ops.processData hdlr data dpr)
  apart : ∀ {st hdlr sock rest h} dpr, sock ≠ 0 → K.Allowed st hdlr →
    descriptors.Holds (K.fds hdlr + ({sock} + rest)) h →
    wp posix (sparing sock) (ops.progressResponse hdlr sock dpr) (fun _ _ => True) h

section Quiet

variable {sock : Fd} {h₀ h t : History} {c : Sys}

theorem readLabel_quiet (hc : connNote c = false) (hread : ∀ n, c ≠ .read sock n)
    (r : c.Answer) : readLabel sock ⟨c, r⟩ = [] := by
  cases c with
  | read fd n =>
    have hne : fd ≠ sock := fun he => hread n (by rw [he])
    rcases r with (_ | ⟨b, data⟩) | e
    · rfl
    · exact if_neg hne
    · rfl
  | note n =>
    cases n with
    | listing => rfl
    | _ => cases hc
  | _ => rfl

theorem heard_quiet (hc : connNote c = false) (hread : ∀ n, c ≠ .read sock n) (r : c.Answer)
    (h : History) : heard sock (⟨c, r⟩ :: h) = heard sock h := by
  rw [heard_cons, readLabel_quiet hc hread, List.append_nil]

/-- What works beside a socket does not read from it. -/
theorem works_spares {st : LoginState} {own rest : Multiset Fd} {p : Prog α}
    {Q : α → Multiset Fd → History → Prop} (hzero : sock ≠ 0) (hp : Works cfg st own p Q h)
    (hh : descriptors.Holds (own + ({sock} + rest)) h) :
    wp posix (sparing sock) p
      (fun a t => ∃ o, Q a o t ∧ descriptors.Holds (o + ({sock} + rest)) t) h := by
  refine wp_weaken (hp _ hh) ?_ (fun _ _ _ => trivial) fun _ _ hQ => hQ
  rintro c t ⟨-, hproper⟩ n rfl
  have hused : sock ∈ descriptorsUsed (.read sock n) := by
    rw [descriptorsUsed, if_neg hzero]
    exact Multiset.mem_singleton_self sock
  exact (hproper.uses_held sock hused).2
    (Multiset.mem_add.mpr (.inl (Multiset.mem_singleton_self sock)))

/-- A handler that works and does not read from the socket shows nothing of it. -/
theorem works_apart {st : LoginState} {own rest : Multiset Fd} {p : Prog α}
    {Q : α → Multiset Fd → History → Prop} (hs : h₀ <:+ h) (hp : Works cfg st own p Q h)
    (hreads : wp posix (sparing sock) p (fun _ _ => True) h)
    (hh : descriptors.Holds (own + rest) h) :
    Leaves h₀ p (fun a t => (∃ o, Q a o t ∧ descriptors.Holds (o + rest) t) ∧
      heard sock t = heard sock h) h := by
  have hkept := wp_keeps (E := .none) (I := fun t => h₀ <:+ t ∧ heard sock t = heard sock h)
    ?_ (fun _ _ _ _ => trivial) (fun _ _ _ _ => trivial) ⟨hs, rfl⟩ (wp_and (hp _ hh) hreads)
  · refine wp_mono hkept ?_
    rintro a t ⟨⟨hQ, -⟩, ht, hsame⟩
    exact ⟨ht, hQ, hsame⟩
  · rintro c t r _ ⟨⟨hcall, -⟩, hread⟩ ⟨ht, hsame⟩ ⟨-, rfl⟩
    exact ⟨ht.trans (List.suffix_cons _ t), (heard_quiet hcall.no_note hread r t).trans hsame⟩

/-- A handler that works beside a socket shows nothing of it. -/
theorem works_quiet {st : LoginState} {own rest : Multiset Fd} {p : Prog α}
    {Q : α → Multiset Fd → History → Prop} (hzero : sock ≠ 0)
    (hs : h₀ <:+ h) (hp : Works cfg st own p Q h)
    (hh : descriptors.Holds (own + ({sock} + rest)) h) :
    Leaves h₀ p (fun a t => (∃ o, Q a o t ∧ descriptors.Holds (o + ({sock} + rest)) t) ∧
      heard sock t = heard sock h) h :=
  works_apart hs hp (wp_mono (works_spares hzero hp hh) fun _ _ _ => trivial) hh

end Quiet

/-- The reader has come from `s₀`, where the history was `h₀`, to `s`. -/
def Reached (cfg : Config) (sock : Fd) (s₀ : ReadState) (h₀ : History) (s : ReadState)
    (h : History) : Prop :=
  ∃ shown, heard sock h = heard sock h₀ ++ shown ∧ Traced (ReadStep cfg) s₀ shown s

theorem Reached.step {sock : Fd} {s₀ s s' : ReadState} {h₀ h h' : History} {new : List ReadLabel}
    (hr : Reached cfg sock s₀ h₀ s h) (hstep : ReadStep cfg s new s')
    (hheard : heard sock h' = heard sock h ++ new) : Reached cfg sock s₀ h₀ s' h' := by
  obtain ⟨shown, hh, htraced⟩ := hr
  refine ⟨shown ++ new, ?_, htraced.snoc hstep⟩
  rw [hheard, hh, List.append_assoc]

theorem Reached.silent {sock : Fd} {s₀ s s' : ReadState} {h₀ h : History}
    (hr : Reached cfg sock s₀ h₀ s h) (hstep : ReadStep cfg s [] s') :
    Reached cfg sock s₀ h₀ s' h := hr.step hstep (List.append_nil _).symm

theorem Reached.quiet {sock : Fd} {s₀ s : ReadState} {h₀ h h' : History}
    (hr : Reached cfg sock s₀ h₀ s h) (hheard : heard sock h' = heard sock h) :
    Reached cfg sock s₀ h₀ s h' := by
  obtain ⟨shown, hh, htraced⟩ := hr
  exact ⟨shown, hheard.trans hh, htraced⟩

section States

/-- The reader in a connection that has the bytes `ahead` still to process. -/
def readState (conn : ServerConnection H) (ahead : Bytes) (owed : Bool) : ReadState :=
  ⟨conn.rrs, conn.hdr, conn.chunkHdr, conn.bodyLen, conn.bodyReadLen, ahead, owed⟩

/-- The bytes are the last ones of the buffer. -/
structure BufferEnd (conn : ServerConnection H) (ahead : Bytes) : Prop where
  filled : conn.readSize ≤ conn.readBuffer.length
  fresh : conn.readSize = 0 → conn.readOffset = 0
  tail : ahead <:+ conn.readBuffer.take conn.readSize

variable {conn : ServerConnection H} {ahead : Bytes}

theorem bufferEnd_unread (hfilled : conn.readSize ≤ conn.readBuffer.length)
    (hfresh : conn.readSize = 0 → conn.readOffset = 0) : BufferEnd conn conn.unread :=
  ⟨hfilled, hfresh, List.drop_suffix _ _⟩

theorem BufferEnd.later {ahead' : Bytes} (hb : BufferEnd conn ahead) (hs : ahead' <:+ ahead) :
    BufferEnd conn ahead' := ⟨hb.filled, hb.fresh, hs.trans hb.tail⟩

theorem BufferEnd.drop (hb : BufferEnd conn ahead) (n : Nat) : BufferEnd conn (ahead.drop n) :=
  hb.later (List.drop_suffix n ahead)

/-- What is kept of the buffer is what is ahead. -/
theorem unread_keep (hb : BufferEnd conn ahead) : (conn.keep ahead).unread = ahead := by
  obtain ⟨taken, htail⟩ := hb.tail
  replace htail := htail.symm
  have hlen : conn.readSize = taken.length + ahead.length := by
    rw [← List.length_append, ← htail, List.length_take, Nat.min_eq_left hb.filled]
  unfold ServerConnection.keep ServerConnection.unread
  split
  · rename_i hnil
    rw [hnil]
    rfl
  · show (conn.readBuffer.take conn.readSize).drop (conn.readSize - ahead.length) = ahead
    rw [htail, hlen, Nat.add_sub_cancel, List.drop_left]

theorem readState_keep (conn : ServerConnection H) (kept ahead : Bytes) (owed : Bool) :
    readState (conn.keep kept) ahead owed = readState conn ahead owed := by
  unfold ServerConnection.keep
  split
  · rfl
  · rfl

theorem bufferEnd_keep (hb : BufferEnd conn ahead) :
    BufferEnd (conn.keep ahead) (conn.keep ahead).unread := by
  unfold ServerConnection.keep
  split
  · exact bufferEnd_unread (Nat.zero_le _) fun _ => rfl
  · rename_i hne
    refine bufferEnd_unread hb.filled fun hzero => absurd ?_ hne
    have hnil := hb.tail
    rw [show conn.readSize = 0 from hzero, List.take_zero] at hnil
    exact List.eq_nil_of_suffix_nil hnil

end States

/-- A connection that reads, beside what else is open: what it owns, and where the reader is. -/
structure Hears (K : HandlerContract cfg ops) (rest : Multiset Fd) (s₀ : ReadState) (h₀ : History)
    (conn : ServerConnection H) (ahead : Bytes) (owed : Bool) (h : History) : Prop
    extends ConnAllowed K conn, BufferEnd conn ahead where
  blank : conn.rrs = .idle ∨ conn.rrs = .readHead → conn.bodyReadLen = 0
  socket : conn.socketFd ≠ 0
  holds : descriptors.Holds (connFds K.fds conn + rest) h
  reached : Reached cfg conn.socketFd s₀ h₀ (readState conn ahead owed) h

/-- A body that is not chunked is complete when its last byte is taken. -/
structure Settled (K : HandlerContract cfg ops) (rest : Multiset Fd) (s₀ : ReadState)
    (h₀ : History) (conn : ServerConnection H) (ahead : Bytes) (owed : Bool) (h : History) : Prop
    extends Hears K rest s₀ h₀ conn ahead owed h where
  counted : conn.rrs = .readBody → conn.chunkHdr = none → ahead = [] →
    conn.bodyReadLen ≠ conn.bodyLen

/-- A connection between the steps of its turn. -/
abbrev Hearing (K : HandlerContract cfg ops) (rest : Multiset Fd) (s₀ : ReadState) (h₀ : History)
    (conn : ServerConnection H) (h : History) : Prop :=
  Settled K rest s₀ h₀ conn conn.unread false h

/-- What has been read of a request is owed to its handler when it is complete. -/
def owing (conn : ServerConnection H) : Bool := conn.rrs == .readFinished

/-- A connection behind a step of `appendData`. -/
abbrev HasRead (K : HandlerContract cfg ops) (rest : Multiset Fd) (s₀ : ReadState) (h₀ : History)
    (conn : ServerConnection H) (h : History) : Prop :=
  Settled K rest s₀ h₀ conn conn.unread (owing conn) h

section Steps

variable {K : HandlerContract cfg ops} {rest : Multiset Fd} {s₀ : ReadState} {h₀ h t : History}
  {conn : ServerConnection H} {ahead : Bytes} {owed : Bool}

theorem readBody_begun (hbody : conn.rrs = .readBody) : Begun conn := by
  rw [Begun, hbody]
  exact ⟨(fun he => by cases he), fun he => by cases he⟩

theorem readFinished_begun (hfin : conn.rrs = .readFinished) : Begun conn := by
  rw [Begun, hfin]
  exact ⟨(fun he => by cases he), fun he => by cases he⟩

/-- A call that opens and closes nothing. -/
theorem holds_call {own : Multiset Fd} {c : Sys} {r : c.Answer}
    (hh : descriptors.Holds own h) (hlawful : Lawful h c r) (hcloses : descriptorsClosed c = 0)
    (hopens : (⟨c, r⟩ : Event).opens = []) : descriptors.Holds own (⟨c, r⟩ :: h) := by
  have hgives : own = descriptorsClosed c + own := by rw [hcloses, zero_add]
  have hstep := hh.step (c := c) ⟨hlawful, rfl⟩ hgives
  have htakes : descriptors.takes c r = 0 := by
    show (((⟨c, r⟩ : Event).opens : List Fd) : Multiset Fd) = 0
    rw [hopens]
    rfl
  rw [htakes, add_zero] at hstep
  exact hstep

theorem holds_note {own : Multiset Fd} (hh : descriptors.Holds own h) (n : Note) :
    descriptors.Holds own (⟨.note n, ()⟩ :: h) := holds_call hh trivial rfl rfl

/-- A call of the connection itself, with what is known of its answer. -/
theorem leaves_call {c : Sys} {k : c.Answer → Prog β} {T : β → History → Prop} {u : History}
    (hs : u <:+ h) (hk : ∀ r, Lawful h c r → u <:+ (⟨c, r⟩ :: h : History) →
      Leaves u (k r) T (⟨c, r⟩ :: h)) : Leaves u (perform c >>= k) T h :=
  (wp_perform _ _ _ _).mpr ⟨trivial, fun r hr => hk r hr (hs.trans (List.suffix_cons _ _))⟩

/-- The connection behind some lines, and whether they were the last. -/
def headerTaken (conn : ServerConnection H) (header : RequestHeader) (offset : Option Nat) :
    ServerConnection H × Bool :=
  (({ conn with header := some header } : ServerConnection H).keep
    (offset.elim [] (conn.unread.drop ·)), offset.isSome)

/-- Lines have been read, and nothing else has happened. -/
structure LinesRead (cfg : Config) (conn : ServerConnection H) (own : Multiset Fd) (h : History)
    (r : ServerConnection H × Bool) (t : History) : Prop where
  read : ∃ header offset, reqhdrAppendData cfg conn.hdr conn.unread = .ok (header, offset) ∧
    r = headerTaken conn header offset
  holds : descriptors.Holds own t
  quiet : ∀ sock, heard sock t = heard sock h

theorem appendHeaderData_leaves {own : Multiset Fd} {u : History} (hs : u <:+ h)
    (hh : descriptors.Holds own h) :
    Leaves u (appendHeaderData cfg conn) (LinesRead cfg conn own h) h := by
  have hread : ∀ header offset,
      reqhdrAppendData cfg conn.hdr conn.unread = .ok (header, offset) →
        LinesRead cfg conn own h (headerTaken conn header offset)
          (⟨.note (.login header.loginState), ()⟩ :: h) := by
    intro header offset hok
    exact ⟨⟨header, offset, hok, rfl⟩, holds_note hh _,
      fun sock => (heard_cons sock _ h).trans (List.append_nil _)⟩
  unfold appendHeaderData
  cases hok : reqhdrAppendData cfg conn.hdr conn.unread with
  | error f => exact .fault
  | ok a =>
    obtain ⟨header, offset⟩ := a
    refine leaves_call hs fun _ _ hu => ?_
    cases offset with
    | none => exact .pure hu (hread header none hok)
    | some n => exact .pure hu (hread header (some n) hok)

/-- The connection with the handler of its request. -/
def withHandler (conn : ServerConnection H) (header : RequestHeader) (hdlr : H) :
    ServerConnection H :=
  if reqhdrIsChunkedTransferEncoding header then
    { conn with handler := some hdlr, chunkHdr := some ⟨crlf⟩, rrs := .readBody }
  else
    let bodyLen := announcedLen header conn.bodyLen
    { conn with
      handler := some hdlr, bodyLen, rrs := if 0 < bodyLen then .readBody else .readFinished }

/-- A connection with a handler is the one before, further on in its request. -/
structure Handled (conn : ServerConnection H) (hdlr : H) (c : ServerConnection H) : Prop where
  handler : c.handler = some hdlr
  socket : c.socketFd = conn.socketFd
  header : c.header = conn.header
  unread : c.unread = conn.unread
  bodyReadLen : c.bodyReadLen = conn.bodyReadLen
  begun : Begun c
  buffer : ∀ ahead, BufferEnd conn ahead → BufferEnd c ahead
  counted : c.rrs = .readBody → c.chunkHdr = none → 0 < c.bodyLen

theorem withHandler_handled (conn : ServerConnection H) (header : RequestHeader) (hdlr : H) :
    Handled conn hdlr (withHandler conn header hdlr) := by
  unfold withHandler
  split
  · exact ⟨rfl, rfl, rfl, rfl, rfl, readBody_begun rfl,
      fun _ hb => ⟨hb.filled, hb.fresh, hb.tail⟩, fun _ he => by cases he⟩
  · dsimp only
    generalize announcedLen header conn.bodyLen = n
    refine ⟨rfl, rfl, rfl, rfl, rfl, ?_, fun _ hb => ⟨hb.filled, hb.fresh, hb.tail⟩, ?_⟩
    · split
      · exact readBody_begun rfl
      · exact readFinished_begun rfl
    · intro hbody _
      by_contra hzero
      rw [if_neg hzero] at hbody
      cases hbody

theorem readState_withHandler (conn : ServerConnection H) (hdlr : H) (ahead : Bytes) :
    readState (withHandler conn conn.hdr hdlr) ahead (owing (withHandler conn conn.hdr hdlr)) =
      (readState conn conn.unread false).headed conn.hdr ahead := by
  unfold withHandler ReadState.headed
  by_cases hchunked : reqhdrIsChunkedTransferEncoding conn.hdr = true
  · rw [if_pos hchunked, if_pos hchunked]
    rfl
  · rw [if_neg hchunked, if_neg hchunked]
    dsimp only [readState, owing]
    generalize announcedLen conn.hdr conn.bodyLen = n
    by_cases hn : 0 < n
    · rw [if_pos hn, decide_eq_true hn]
      rfl
    · rw [if_neg hn, decide_eq_false hn]
      rfl

/-- The handler is made. -/
structure MadeFor (K : HandlerContract cfg ops) (rest : Multiset Fd)
    (conn : ServerConnection H) (h : History) (c : ServerConnection H) (t : History) : Prop where
  made : ∃ hdlr, c = withHandler conn conn.hdr hdlr ∧ K.Allowed conn.hdr.loginState hdlr ∧
    descriptors.Holds (K.fds hdlr + ({conn.socketFd} + rest)) t
  shown : heard conn.socketFd t = heard conn.socketFd h ++ [.created conn.hdr]

theorem onFinishedHeader_leaves {u : History} (hs : u <:+ h) (hsocket : conn.socketFd ≠ 0)
    (hh : descriptors.Holds ({conn.socketFd} + rest) h) :
    Leaves u (onFinishedHeader ops conn conn.hdr) (MadeFor K rest conn h) h := by
  refine leaves_call hs fun peer hlawful hu => ?_
  have hopen := holds_call (r := peer) hh hlawful rfl rfl
  rw [← zero_add ({conn.socketFd} + rest)] at hopen
  refine (works_quiet hsocket hu (K.new conn.hdr peer _) hopen).seq ?_
  rintro hdlr t ht ⟨⟨_, ⟨rfl, hallowed⟩, hholds⟩, hquiet⟩
  refine leaves_call ht fun _ _ hv => ?_
  have hmade : MadeFor K rest conn h (withHandler conn conn.hdr hdlr)
      (⟨.note (.created conn.hdr), ()⟩ :: t) := by
    refine ⟨⟨hdlr, rfl, hallowed, holds_note hholds _⟩, ?_⟩
    rw [heard_cons, hquiet, heard_quiet rfl (fun n hc => by cases hc)]
    rfl
  by_cases hchunked : reqhdrIsChunkedTransferEncoding conn.hdr = true
  · have hline : mbNewWithStr crlf = .ok ⟨crlf⟩ := by decide
    rw [if_pos hchunked, hline]
    rw [withHandler, if_pos hchunked] at hmade
    exact .pure hv hmade
  · rw [if_neg hchunked]
    rw [withHandler, if_neg hchunked] at hmade
    exact .pure hv hmade

theorem keep_fields (conn : ServerConnection H) (kept : Bytes) :
    (conn.keep kept).socketFd = conn.socketFd ∧ (conn.keep kept).handler = conn.handler ∧
      (conn.keep kept).header = conn.header ∧ (conn.keep kept).bodyReadLen = conn.bodyReadLen := by
  unfold ServerConnection.keep
  split
  · exact ⟨rfl, rfl, rfl, rfl⟩
  · exact ⟨rfl, rfl, rfl, rfl⟩

/-- Lines that are not the last ones. -/
theorem Hearing.lines {header : RequestHeader} (hc : Hearing K rest s₀ h₀ conn h)
    (hrrs : conn.rrs = .readHead ∨ conn.rrs = .readTrailer)
    (hok : reqhdrAppendData cfg conn.hdr conn.unread = .ok (header, none))
    (hh : descriptors.Holds (connFds K.fds conn + rest) t)
    (hquiet : heard conn.socketFd t = heard conn.socketFd h) :
    Hearing K rest s₀ h₀ (headerTaken conn header none).1 t := by
  have hunread : (headerTaken conn header none).1.unread = [] := rfl
  refine ⟨⟨⟨fun hdlr he => K.appended hok (hc.allowed hdlr he), hc.unread⟩,
    bufferEnd_unread (Nat.zero_le _) fun _ => rfl, hc.blank, hc.socket, hh, ?_⟩, fun hbody => ?_⟩
  · rw [hunread]
    exact (hc.reached.silent (.lines hrrs hok)).quiet hquiet
  · rcases hrrs with hrrs | hrrs
    · cases hrrs.symm.trans hbody
    · cases hrrs.symm.trans hbody

/-- The header of a request. -/
theorem Hearing.headed {header : RequestHeader} {n : Nat} {hdlr : H}
    (hc : Hearing K rest s₀ h₀ conn h) (hrrs : conn.rrs = .readHead)
    (hok : reqhdrAppendData cfg conn.hdr conn.unread = .ok (header, some n))
    (hallowed : K.Allowed header.loginState hdlr)
    (hh : descriptors.Holds (K.fds hdlr + ({conn.socketFd} + rest)) t)
    (hshown : heard conn.socketFd t = heard conn.socketFd h ++ [.created header]) :
    HasRead K rest s₀ h₀ (withHandler (headerTaken conn header (some n)).1 header hdlr) t := by
  have hend : BufferEnd { conn with header := some header } conn.unread :=
    ⟨hc.filled, hc.fresh, hc.tail⟩
  have hunread := unread_keep (hend.drop n)
  obtain ⟨hsocket, -, hheader, hread⟩ :=
    keep_fields { conn with header := some header } (conn.unread.drop n)
  have hbuffer := bufferEnd_keep (hend.drop n)
  have hstate := readState_keep { conn with header := some header } (conn.unread.drop n)
    (conn.unread.drop n) false
  unfold headerTaken
  dsimp only [Option.elim]
  generalize ServerConnection.keep _ (conn.unread.drop n) = c at *
  have hhdr : c.hdr = header := by rw [ServerConnection.hdr, hheader]; rfl
  have hw := withHandler_handled c header hdlr
  have hzero : (withHandler c header hdlr).bodyReadLen = 0 :=
    (hw.bodyReadLen.trans hread).trans (hc.blank (.inr hrrs))
  refine ⟨⟨⟨fun hdlr' he => ?_, fun hr => (hr.elim hw.begun.1 hw.begun.2).elim⟩, ?_,
    fun _ => hzero, ?_, ?_, ?_⟩, fun hbody hplain _ => ?_⟩
  · rw [hw.handler] at he
    rw [← Option.some.inj he, ServerConnection.hdr, hw.header, hheader]
    exact hallowed
  · rw [hw.unread]
    exact hw.buffer _ hbuffer
  · rw [hw.socket, hsocket]
    exact hc.socket
  · rw [connFds, hw.handler, hw.socket, hsocket, fdsIf_some, add_assoc]
    exact hh
  · rw [hw.socket, hsocket, hw.unread, hunread]
    have hmade := readState_withHandler c hdlr (conn.unread.drop n)
    rw [hhdr, hunread, hstate] at hmade
    rw [hmade]
    exact hc.reached.step (.headed hrrs hok) hshown
  · rw [hzero]
    exact (hw.counted hbody hplain).ne

theorem owing_eq_false (hne : conn.rrs ≠ .readFinished) : owing conn = false :=
  beq_eq_false_iff_ne.mpr hne

/-- Before the request is complete nothing is owed. -/
theorem hasRead_iff (hopen : conn.rrs ≠ .readFinished) :
    HasRead K rest s₀ h₀ conn h ↔ Hearing K rest s₀ h₀ conn h := by
  unfold HasRead
  rw [owing_eq_false hopen]

theorem appendHead_hears {u : History} (hs : u <:+ h) (hc : Hearing K rest s₀ h₀ conn h)
    (hopen : conn.rrs ≠ .readFinished) :
    Leaves u (appendHead cfg ops conn) (fun c t => HasRead K rest s₀ h₀ c t) h := by
  have hstart : Hearing K rest s₀ h₀
      (if conn.rrs = .idle then { conn with header := some reqhdrNew, rrs := .readHead } else conn)
      h ∧ (if conn.rrs = .idle then { conn with header := some reqhdrNew, rrs := .readHead }
        else conn).rrs ≠ .readFinished := by
    split
    · rename_i hidle
      have hnone := hc.unread (.inl hidle)
      refine ⟨⟨⟨⟨fun hdlr he => ?_, fun _ => hnone⟩, ⟨hc.filled, hc.fresh, hc.tail⟩,
        fun _ => hc.blank (.inl hidle), hc.socket, hc.holds, hc.reached.silent (.begun hidle)⟩,
        fun he => by cases he⟩, fun he => by cases he⟩
      rw [show conn.handler = some hdlr from he] at hnone
      cases hnone
    · exact ⟨hc, hopen⟩
  unfold appendHead
  dsimp only
  generalize (if conn.rrs = .idle then { conn with header := some reqhdrNew, rrs := .readHead }
    else conn) = c at hstart
  obtain ⟨hc, hopen⟩ := hstart
  refine .ite (fun hrrs => ?_) fun _ => .pure hs ((hasRead_iff hopen).mpr hc)
  refine (appendHeaderData_leaves hs hc.holds).seq ?_
  rintro r t ht ⟨⟨header, offset, hok, rfl⟩, hh, hquiet⟩
  cases offset with
  | none =>
    have hkept := Hearing.lines hc (.inl hrrs) hok hh (hquiet _)
    have hopen' : (headerTaken c header none).1.rrs ≠ .readFinished := hopen
    exact .pure ht ((hasRead_iff hopen').mpr hkept)
  | some n =>
    have hnone := hc.unread (.inr hrrs)
    obtain ⟨hsocket, -, hheader, -⟩ :=
      keep_fields { c with header := some header } (c.unread.drop n)
    have hhdr : (headerTaken c header (some n)).1.hdr = header := by
      rw [ServerConnection.hdr, headerTaken]
      dsimp only [Option.elim]
      rw [hheader]
      rfl
    have hsock : (headerTaken c header (some n)).1.socketFd = c.socketFd := hsocket
    have hown : descriptors.Holds ({(headerTaken c header (some n)).1.socketFd} + rest) t := by
      rw [hsock]
      rw [connFds, hnone, fdsIf_none, zero_add] at hh
      exact hh
    refine (onFinishedHeader_leaves (K := K) ht (by rw [hsock]; exact hc.socket) hown).mono ?_
    rintro c' v ⟨⟨hdlr, rfl, hallowed, hholds⟩, hshown⟩
    rw [hhdr] at hallowed hshown ⊢
    rw [hsock] at hholds hshown
    rw [hquiet] at hshown
    exact Hearing.headed hc hrrs hok hallowed hholds hshown

/-- The last line of a trailer. -/
theorem Hearing.trailed {header : RequestHeader} {n : Nat} (hc : Hearing K rest s₀ h₀ conn h)
    (hrrs : conn.rrs = .readTrailer)
    (hok : reqhdrAppendData cfg conn.hdr conn.unread = .ok (header, some n))
    (hh : descriptors.Holds (connFds K.fds conn + rest) t)
    (hquiet : heard conn.socketFd t = heard conn.socketFd h) :
    Settled K rest s₀ h₀ { (headerTaken conn header (some n)).1 with rrs := .readFinished }
      (headerTaken conn header (some n)).1.unread true t := by
  have hend : BufferEnd { conn with header := some header } conn.unread :=
    ⟨hc.filled, hc.fresh, hc.tail⟩
  have hunread := unread_keep (hend.drop n)
  have hbuffer := bufferEnd_keep (hend.drop n)
  have hf := Further.keep { conn with header := some header } (conn.unread.drop n)
  have hstate := readState_keep { conn with header := some header } (conn.unread.drop n)
    (conn.unread.drop n) true
  unfold headerTaken
  dsimp only [Option.elim]
  generalize ServerConnection.keep _ (conn.unread.drop n) = c at *
  obtain ⟨-, hheader, hchunk, hlen, hread, -, -⟩ := ReadState.mk.inj hstate
  have hhdr : c.hdr = header := by rw [ServerConnection.hdr, hf.header]; rfl
  have hbegun : Begun { c with rrs := .readFinished } := readFinished_begun rfl
  refine ⟨⟨⟨fun hdlr he => ?_, fun hr => (hr.elim hbegun.1 hbegun.2).elim⟩,
    ⟨hbuffer.filled, hbuffer.fresh, hbuffer.tail⟩, fun hr => (hr.elim hbegun.1 hbegun.2).elim, ?_,
    ?_, ?_⟩, fun he => by cases he⟩
  · show K.Allowed c.hdr.loginState hdlr
    rw [hhdr]
    exact K.appended hok (hc.allowed hdlr (hf.handler ▸ he))
  · exact hf.socket ▸ hc.socket
  · show descriptors.Holds (fdsIf K.fds c.handler + {c.socketFd} + rest) t
    rw [hf.handler, hf.socket]
    exact hh
  · show Reached cfg c.socketFd s₀ h₀
      ⟨.readFinished, c.hdr, c.chunkHdr, c.bodyLen, c.bodyReadLen, c.unread, true⟩ t
    rw [hf.socket, hunread, hhdr, hchunk, hlen, hread]
    exact (hc.reached.silent (.trailed hrrs hok)).quiet hquiet

/-- The connection when the handler has taken bytes of the body. -/
def bodyTaken (conn : ServerConnection H) (hdlr : H) (processed : Nat) : ServerConnection H :=
  { conn with
    handler := some hdlr
    bodyReadLen := (conn.bodyReadLen + processed) % ulongSize }

theorem Hears.taken {hdlr : H} {processed : Nat} (hc : Hears K rest s₀ h₀ conn ahead false h)
    (hbody : conn.rrs = .readBody) (hlt : conn.bodyReadLen < conn.bodyLen)
    (hle : processed ≤ (ahead.take (bodyBytesAhead conn ahead)).length)
    (hallowed : K.Allowed conn.hdr.loginState hdlr)
    (hh : descriptors.Holds (K.fds hdlr + ({conn.socketFd} + rest)) t)
    (hquiet : heard conn.socketFd t = heard conn.socketFd h) :
    Hears K rest s₀ h₀ (bodyTaken conn hdlr processed) (ahead.drop processed) false
      (⟨.note (.consumed (ahead.take processed)), ()⟩ :: t) := by
  have hend : BufferEnd (bodyTaken conn hdlr processed) ahead := ⟨hc.filled, hc.fresh, hc.tail⟩
  have hbegun : Begun (bodyTaken conn hdlr processed) := readBody_begun hbody
  refine ⟨⟨fun hdlr' he => ?_, fun hr => (hr.elim hbegun.1 hbegun.2).elim⟩, hend.drop processed,
    fun hr => (hr.elim hbegun.1 hbegun.2).elim, hc.socket, ?_, ?_⟩
  · rw [← Option.some.inj he]
    exact hallowed
  · rw [connFds, show (bodyTaken conn hdlr processed).handler = some hdlr from rfl, fdsIf_some,
      add_assoc]
    exact holds_note hh _
  · refine hc.reached.step (.taken hbody hlt hle) ?_
    rw [heard_cons, ← hquiet]
    rfl

theorem bodyBytesAhead_le (conn : ServerConnection H) (data : Bytes) :
    bodyBytesAhead conn data ≤ data.length := by
  unfold bodyBytesAhead
  split
  · rename_i hlt
    have hmod := Nat.mod_le (conn.bodyReadLen + data.length) ulongSize
    omega
  · exact le_rfl

/-- The trailer of a chunked body. -/
theorem appendTrailer_hears {u : History} (hs : u <:+ h)
    (hc : HasRead K rest s₀ h₀ conn h) :
    Leaves u (appendTrailer cfg conn) (fun c t => HasRead K rest s₀ h₀ c t) h := by
  refine .ite (fun ⟨hrrs, _⟩ => ?_) fun _ => .pure hs hc
  have hopen : conn.rrs ≠ .readFinished := by
    rw [hrrs]
    decide
  rw [hasRead_iff hopen] at hc
  refine (appendHeaderData_leaves hs hc.holds).seq ?_
  rintro r t ht ⟨⟨header, offset, hok, rfl⟩, hh, hquiet⟩
  cases offset with
  | none =>
    have hkept := Hearing.lines hc (.inr hrrs) hok hh (hquiet _)
    have hopen' : (headerTaken conn header none).1.rrs ≠ .readFinished := hopen
    exact .pure ht ((hasRead_iff hopen').mpr hkept)
  | some n => exact .pure ht (Hearing.trailed hc hrrs hok hh (hquiet _))

section Body

variable (R : ReadContract K)
include R

/-- Body bytes go to the handler. -/
theorem offerBody_hears {u : History} (hs : u <:+ h) (hc : Hears K rest s₀ h₀ conn ahead false h)
    (hbody : conn.rrs = .readBody) (dpr : DataProcessingResult) :
    Leaves u (offerBody ops conn dpr ahead)
      (fun r t => Hears K rest s₀ h₀ r.1 r.2.2.1 false t ∧ r.1.rrs = .readBody ∧
        (r.2.2.2 = false → r.2.2.1 ≠ [])) h := by
  refine .ite (fun hlt => ?_) fun _ => .pure hs ⟨hc, hbody, fun he => by cases he⟩
  unfold derefHandler
  cases hhandler : conn.handler with
  | none => exact .fault
  | some hdlr =>
    have hholds := hc.holds
    rw [connFds, hhandler, fdsIf_some, add_assoc] at hholds
    have hallowed := hc.allowed hdlr hhandler
    refine ((works_quiet hc.socket hs (K.processData (ahead.take (bodyBytesAhead conn ahead)) dpr h
      hallowed) hholds).also (R.takes hdlr _ dpr)).seq ?_
    rintro ⟨hdlr', d, processed⟩ t ht ⟨⟨⟨_, ⟨rfl, hallowed'⟩, hholds'⟩, hquiet⟩, hle⟩
    refine leaves_call ht fun _ _ hv => .pure hv ⟨hc.taken hbody hlt hle hallowed' hholds' hquiet,
      hbody, fun hstop hnil => ?_⟩
    have hleft := List.drop_eq_nil_iff.mp hnil
    have hmore := of_decide_eq_false hstop
    exact hmore ((bodyBytesAhead_le conn ahead).trans hleft)

end Body

/-- A silent step behind the header. -/
theorem Hears.moved {c : ServerConnection H} {ahead' : Bytes} {owed' : Bool}
    (hc : Hears K rest s₀ h₀ conn ahead owed h) (hf : Further conn c) (hbegun : Begun conn)
    (hbuffer : ∀ a, BufferEnd conn a → BufferEnd c a) (hs : ahead' <:+ ahead)
    (hstep : ReadStep cfg (readState conn ahead owed) [] (readState c ahead' owed')) :
    Hears K rest s₀ h₀ c ahead' owed' h := by
  have hbegun' := hf.begun hbegun
  refine ⟨⟨fun hdlr he => ?_, fun hr => (hr.elim hbegun'.1 hbegun'.2).elim⟩,
    (hbuffer _ hc.toBufferEnd).later hs, fun hr => (hr.elim hbegun'.1 hbegun'.2).elim, ?_, ?_, ?_⟩
  · rw [ServerConnection.hdr, hf.header]
    exact hc.allowed hdlr (hf.handler ▸ he)
  · rw [hf.socket]
    exact hc.socket
  · rw [connFds, hf.handler, hf.socket]
    exact hc.holds
  · rw [hf.socket]
    exact hc.reached.silent hstep

theorem startChunk_same (conn : ServerConnection H) (chunkHdr : MemBuf) :
    (∀ a, BufferEnd conn a → BufferEnd (startChunk conn chunkHdr) a) ∧
      (startChunk conn chunkHdr).chunkHdr = some mbNew ∧
      (conn.rrs ≠ .readFinished → (startChunk conn chunkHdr).rrs ≠ .readFinished) := by
  unfold startChunk
  dsimp only
  split
  · exact ⟨fun _ hb => ⟨hb.filled, hb.fresh, hb.tail⟩, rfl, fun _ he => by cases he⟩
  · exact ⟨fun _ hb => ⟨hb.filled, hb.fresh, hb.tail⟩, rfl, fun hne => hne⟩

theorem readState_startChunk (line left : Bytes) :
    readState (startChunk conn ⟨line⟩) left false =
      (readState conn ahead false).sized line left := by
  unfold startChunk ReadState.sized
  dsimp only [readState]
  split
  · rfl
  · rfl

/-- A chunk size line is begun or complete. -/
theorem readChunkHdr_hears {chunkHdr : MemBuf} (hc : Hears K rest s₀ h₀ conn ahead false h)
    (hbody : conn.rrs = .readBody) (hall : conn.bodyReadLen = conn.bodyLen)
    (hchunk : conn.chunkHdr = some chunkHdr) :
    Sound Any (fun r => Settled K rest s₀ h₀ r.1 r.2 (owing r.1) h)
      (readChunkHdr conn chunkHdr ahead) := by
  have happends : ∀ (mb : MemBuf) (data : Bytes),
      Sound Any (fun mb' => mb' = ⟨mb.data ++ data⟩) (mbAppendData mb data) :=
    fun mb data => (Sound.always _).also fun mb' he => congrArg MemBuf.mk (mbAppendData_ok he)
  refine (happends _ _).bind ?_
  rintro _ rfl
  cases hsplit : splitAtByte lf (ahead.drop (2 - chunkHdr.dataLen)) with
  | none =>
    refine (happends _ _).bind ?_
    rintro _ rfl
    have hline : chunkHdr.data ++ ahead.take (2 - chunkHdr.dataLen) ++
        ahead.drop (2 - chunkHdr.dataLen) = chunkHdr.data ++ ahead := by
      rw [List.append_assoc, List.take_append_drop]
    dsimp only
    rw [hline]
    refine ⟨?_, fun _ he => by cases he⟩
    rw [owing_eq_false (by rw [hbody]; decide)]
    exact hc.moved ⟨rfl, rfl, rfl, .inl rfl⟩ (readBody_begun hbody)
      (fun _ hb => ⟨hb.filled, hb.fresh, hb.tail⟩) List.nil_suffix
      (.sizing hbody hall hchunk (not_mem_of_splitAtByte hsplit))
  | some p =>
    obtain ⟨piece, left⟩ := p
    refine (happends _ _).bind ?_
    rintro _ rfl
    obtain ⟨hlf, hahead⟩ := splitAtByte_eq hsplit
    obtain ⟨hbuffer, hchunk', hopen⟩ := startChunk_same conn
      ⟨chunkHdr.data ++ ahead.take (2 - chunkHdr.dataLen) ++ piece⟩
    have hleft : left <:+ ahead := by
      refine List.IsSuffix.trans ⟨piece ++ [lf], ?_⟩ (List.drop_suffix (2 - chunkHdr.dataLen) ahead)
      rw [hahead, List.append_assoc]
      rfl
    refine ⟨?_, fun _ he => ?_⟩
    · rw [owing_eq_false (hopen (by rw [hbody]; decide))]
      refine hc.moved (startChunk_further (readBody_begun hbody) _) (readBody_begun hbody) hbuffer
        hleft ?_
      rw [readState_startChunk]
      exact .sized hbody hall hchunk hlf hahead
    · rw [hchunk'] at he
      cases he

theorem bodyComplete_hears (hc : Hears K rest s₀ h₀ conn ahead false h)
    (hbody : conn.rrs = .readBody) :
    Sound Any (fun r => Settled K rest s₀ h₀ r.1 r.2 (owing r.1) h) (bodyComplete conn ahead) := by
  unfold bodyComplete
  by_cases hall : conn.bodyReadLen = conn.bodyLen
  · rw [if_pos hall]
    split
    · rename_i chunkHdr hchunk
      exact readChunkHdr_hears hc hbody hall hchunk
    · rename_i hchunk
      have hbegun := readBody_begun hbody
      exact ⟨hc.moved ⟨rfl, rfl, rfl, .inr ⟨hbegun, readFinished_begun rfl⟩⟩ hbegun
        (fun _ hb => ⟨hb.filled, hb.fresh, hb.tail⟩) List.suffix_rfl (.counted hbody hall hchunk),
        fun he => by cases he⟩
  · rw [if_neg hall]
    refine ⟨?_, fun _ _ _ => hall⟩
    rw [owing_eq_false (by rw [hbody]; decide)]
    exact hc

/-- What is ahead is what is left in the buffer. -/
theorem Settled.keep (hc : Settled K rest s₀ h₀ conn ahead owed h) :
    Settled K rest s₀ h₀ (conn.keep ahead) (conn.keep ahead).unread owed h := by
  have hunread := unread_keep hc.toBufferEnd
  have hbuffer := bufferEnd_keep hc.toBufferEnd
  have hstate := readState_keep conn ahead ahead owed
  have hf := Further.keep conn ahead
  have hreached := hc.reached
  rw [← hstate] at hreached
  generalize conn.keep ahead = c at *
  obtain ⟨hrrs, hheader, hchunk, hlen, hread, -, -⟩ := ReadState.mk.inj hstate
  refine ⟨⟨⟨fun hdlr he => ?_, fun hr => ?_⟩, hbuffer, fun hr => ?_, ?_, ?_, ?_⟩,
    fun hbody he hnil => ?_⟩
  · rw [hheader]
    exact hc.allowed hdlr (hf.handler ▸ he)
  · rw [hf.handler]
    exact hc.unread (hrrs ▸ hr)
  · rw [hread]
    exact hc.blank (hrrs ▸ hr)
  · rw [hf.socket]
    exact hc.socket
  · rw [connFds, hf.handler, hf.socket]
    exact hc.holds
  · rw [hf.socket, hunread]
    exact hreached
  · rw [hread, hlen]
    exact hc.counted (hrrs ▸ hbody) (hchunk ▸ he) (hunread ▸ hnil)

/-- The handler hears of a completed request. -/
theorem Settled.completed (hc : Settled K rest s₀ h₀ conn ahead true h) :
    Settled K rest s₀ h₀ conn ahead false (⟨.note .completed, ()⟩ :: h) := by
  refine ⟨⟨hc.toConnAllowed, hc.toBufferEnd, hc.blank, hc.socket, holds_note hc.holds _, ?_⟩,
    hc.counted⟩
  exact hc.reached.step (.completed rfl) (heard_cons _ _ _)

/-- A handler has worked, or has gone. -/
theorem Settled.handed (hc : Settled K rest s₀ h₀ conn ahead owed h) (handler : Option H)
    (hallowed : ∀ hdlr, handler = some hdlr → K.Allowed conn.hdr.loginState hdlr)
    (hbegun : Begun conn)
    (hh : descriptors.Holds (fdsIf K.fds handler + {conn.socketFd} + rest) t)
    (hquiet : heard conn.socketFd t = heard conn.socketFd h) :
    Settled K rest s₀ h₀ { conn with handler } ahead owed t :=
  ⟨⟨⟨hallowed, fun hr => (hr.elim hbegun.1 hbegun.2).elim⟩, ⟨hc.filled, hc.fresh, hc.tail⟩,
    hc.blank, hc.socket, hh, hc.reached.quiet hquiet⟩, hc.counted⟩

theorem owing_keep (conn : ServerConnection H) (kept : Bytes) :
    owing (conn.keep kept) = owing conn := by
  unfold ServerConnection.keep
  split
  · rfl
  · rfl

theorem leaves_lift {X : α → Prop} {e : Except Fault α} {u : History} (hs : u <:+ h)
    (he : Sound Any X e) : Leaves u (liftM e) (fun a t => t = h ∧ X a) h := by
  cases e with
  | ok a => exact .pure hs ⟨rfl, he⟩
  | error f => exact .fault

section Turns

variable (R : ReadContract K)
include R

theorem appendBodyData_hears {u : History} (fuel : Nat) (hs : u <:+ h)
    (hc : HasRead K rest s₀ h₀ conn h) (dpr : DataProcessingResult) :
    Leaves u (appendBodyData fuel ops conn dpr) (fun r t => HasRead K rest s₀ h₀ r.1 t) h := by
  refine Leaves.iterate (I := fun x t => Settled K rest s₀ h₀ x.1 x.2.2 (owing x.1) t) ?_ fuel hs hc
  rintro ⟨c, d, data⟩ t ht hx
  dsimp only at hx
  have hstops : ∀ {c : ServerConnection H} {data : Bytes} {t : History},
      Settled K rest s₀ h₀ c data (owing c) t → HasRead K rest s₀ h₀ (c.keep data) t := by
    intro c data t hx
    have hkept := hx.keep
    rw [← owing_keep c data] at hkept
    exact hkept
  refine .ite (fun _ => .pure ht (hstops hx)) fun hgo => ?_
  have hbody : c.rrs = .readBody := by
    by_contra hne
    exact hgo (.inl hne)
  have hnot : ∀ {c : ServerConnection H}, c.rrs = .readBody → owing c = false := by
    intro c hrrs
    exact owing_eq_false (by rw [hrrs]; decide)
  rw [hnot hbody] at hx
  refine (offerBody_hears R ht hx.toHears hbody d).seq ?_
  rintro ⟨c', d', data', goOn⟩ v hv ⟨hx', hbody', hleft⟩
  dsimp only at hx' hbody' hleft ⊢
  refine .ite (fun hstop => .pure hv (hstops ?_)) fun _ => ?_
  · rw [hnot hbody']
    exact ⟨hx', fun _ _ hnil => absurd hnil (hleft (by simpa using hstop))⟩
  · refine (leaves_lift hv (bodyComplete_hears hx' hbody')).seq ?_
    rintro ⟨c'', data''⟩ w hw ⟨rfl, hx''⟩
    exact .pure hw hx''

theorem appendData_hears {u : History} (fuel : Nat) (hs : u <:+ h)
    (hc : Hearing K rest s₀ h₀ conn h) (hopen : conn.rrs ≠ .readFinished)
    (dpr : DataProcessingResult) :
    Leaves u (appendData fuel cfg ops conn dpr) (fun r t => Hearing K rest s₀ h₀ r.1 t) h := by
  refine (appendHead_hears hs hc hopen).seq fun c t ht hx => ?_
  have hbody : Leaves u (appendBody fuel ops c dpr) (fun r t => HasRead K rest s₀ h₀ r.1 t) t :=
    .ite (fun _ => appendBodyData_hears R fuel ht hx dpr) fun _ => .pure ht hx
  refine hbody.seq ?_
  rintro ⟨c', d⟩ v hv hx'
  refine (appendTrailer_hears hv hx').seq fun c'' w hw hx'' => ?_
  refine .ite (fun ⟨_, hfin⟩ => ?_) fun hend => .pure hw ?_
  · have howed : owing c'' = true := beq_iff_eq.mpr hfin
    unfold HasRead at hx''
    rw [howed] at hx''
    refine leaves_call hw fun _ _ hz => ?_
    have hdone := hx''.completed
    generalize (⟨.note .completed, _⟩ :: w : History) = z at hdone hz
    unfold derefHandler
    cases hhandler : c''.handler with
    | none => exact .fault
    | some hdlr =>
      have hholds := hdone.holds
      rw [connFds, hhandler, fdsIf_some, add_assoc] at hholds
      refine (works_quiet hdone.socket hz (K.requestReadCompleted c''.hdr z
        (hdone.allowed hdlr hhandler)) hholds).seq ?_
      rintro hdlr' y hy ⟨⟨_, ⟨rfl, hallowed⟩, hholds'⟩, hquiet⟩
      refine .pure hy (hdone.handed (some hdlr') (fun hdlr'' he => ?_) (readFinished_begun hfin) ?_
        hquiet)
      · rw [← Option.some.inj he]
        exact hallowed
      · rw [fdsIf_some, add_assoc]
        exact hholds'
  · exact (hasRead_iff fun hfin => hend ⟨hopen, hfin⟩).mp hx''

end Turns

end Steps

end FilemanagerHttpd.Audit
