import FilemanagerHttpd.Audit.ReaderRefinement
import FilemanagerHttpd.Audit.SentRequests
import FilemanagerHttpd.Audit.ServerWork

/-!
# Requests that arrive one behind the other

A connection of a server has its turns beside the turns of the others. Whatever the pieces in which
its client's requests arrive, and whatever the others do meanwhile, its handlers are given these
requests in their order.
-/

namespace FilemanagerHttpd.Audit

open Library Server

variable {fuel : Nat} {cfg : Config} {base h h' : History}

section Handlers

variable {sock : Fd} {rest : Multiset Fd}

theorem cgiexeProcessData_takes (fuel : Nat) (cgiexe : CgiExecutor) (data : Bytes)
    (dpr : DataProcessingResult) :
    Yields (S := sys) (fun r => r.2.2 ≤ data.length) (cgiexeProcessData fuel cgiexe data dpr) := by
  refine Yields.iterate (I := fun _ => True) ?_ fuel trivial
  rintro ⟨cgiexe, dpr, wrtot⟩ -
  unfold cgiWriteRound
  dsimp only
  split
  · exact .pure le_rfl
  · refine .ite (fun hlt => Yields.seq fun r => ?_) fun _ => .pure le_rfl
    cases r with
    | wrote wr => exact .pure trivial
    | fail e => exact .ite (fun _ => .pure hlt.le) fun _ => Yields.seq fun _ => .pure trivial

theorem reqhdlrProcessData_takes (fuel : Nat) (hdlr : RequestHandler) (data : Bytes)
    (dpr : DataProcessingResult) :
    Yields (S := sys) (fun r => r.2.2 ≤ data.length) (reqhdlrProcessData fuel hdlr data dpr) := by
  unfold reqhdlrProcessData
  split
  · exact Yields.seq fun _ => .pure le_rfl
  · exact Yields.bind (cgiexeProcessData_takes fuel _ data dpr) fun r hr => .pure hr
  · exact .pure le_rfl

/-- What is written to the socket is not read from it. -/
theorem writeLoop_spares (fuel : Nat) (data : Bytes) (offset : Nat) {own : Multiset Fd}
    (hh : descriptors.Holds own h) :
    wp posix (sparing sock) (writeLoop fuel sock data offset)
      (fun _ t => descriptors.Holds own t) h := by
  refine wp_iterate (I := fun _ t => descriptors.Holds own t) (fun _ => trivial) ?_ fuel hh
  intro off t ht
  unfold writeRound
  split
  · refine (wp_perform _ _ _ _).mpr ⟨fun n he => (by cases he), fun r hr => ?_⟩
    have hheld := holds_call ht hr rfl rfl
    cases r with
    | wrote wr => exact hheld
    | fail e => exact hheld
  · exact ht

theorem sendBody_spares (cfg : Config) (fuel : Nat) (rsndr : ResponseSender)
    (dpr : DataProcessingResult) (hzero : sock ≠ 0)
    (hh : descriptors.Holds (rsndrFds rsndr + ({sock} + rest)) h) :
    wp posix (sparing sock) (sendBody fuel sock rsndr dpr) (fun _ _ => True) h := by
  refine wp_iterate (I := fun x t => descriptors.Holds (rsndrFds x.1 + ({sock} + rest)) t)
    (fun _ => trivial) ?_ fuel hh
  rintro ⟨rsndr, dpr⟩ t ht
  unfold sendBodyRound
  dsimp only
  split
  · trivial
  rename_i body _
  refine wp_seq (writeLoop_spares fuel _ _ ht) ?_
  rintro ⟨off, e⟩ u hu
  cases e with
  | some e => trivial
  | none =>
    dsimp only
    split
    · trivial
    have hfill : Works cfg .loggedOut (rsndrFds { rsndr with dataOffset := off })
        (fillBuffer { rsndr with dataOffset := off } body dpr) (fun r o _ => o = rsndrFds r.1) u :=
      fillBuffer_works _ body dpr
    refine wp_seq (works_spares hzero hfill hu) ?_
    rintro ⟨rsndr', dpr'⟩ v ⟨_, rfl, hv⟩
    dsimp only
    split
    · trivial
    · exact hv

theorem rsndrSend_spares (cfg : Config) (fuel : Nat) (rsndr : ResponseSender)
    (dpr : DataProcessingResult) (hzero : sock ≠ 0)
    (hh : descriptors.Holds (rsndrFds rsndr + ({sock} + rest)) h) :
    wp posix (sparing sock) (rsndrSend fuel rsndr sock dpr) (fun _ _ => True) h := by
  unfold rsndrSend
  split
  · exact sendBody_spares cfg fuel rsndr dpr hzero hh
  · refine wp_seq (writeLoop_spares fuel _ _ hh) ?_
    rintro ⟨off, e⟩ t ht
    cases e with
    | some e => trivial
    | none => exact sendBody_spares cfg fuel _ dpr hzero ht

theorem reqhdlrProgressResponse_spares {st : LoginState} {hdlr : RequestHandler}
    (dpr : DataProcessingResult) (hzero : sock ≠ 0) (hallowed : HandlerAllowed cfg st hdlr)
    (hh : descriptors.Holds (handlerFds hdlr + ({sock} + rest)) h) :
    wp posix (sparing sock) (reqhdlrProgressResponse fuel hdlr sock dpr) (fun _ _ => True) h := by
  refine wp_seq (works_spares hzero (awaitCgiResponse_works fuel hallowed dpr) hh) ?_
  rintro ⟨hdlr', d⟩ t ⟨_, ⟨rfl, -⟩, ht⟩
  dsimp only at ht ⊢
  cases hresponse : hdlr'.response with
  | none => trivial
  | some response =>
    have hown : handlerFds hdlr' + ({sock} + rest) = rsndrFds response +
        ({sock} + (rest + (fdsIf filemgrFds hdlr'.filemgr + fdsIf cgiFds hdlr'.cgiexe))) := by
      rw [handlerFds, hresponse, fdsIf_some]
      abel
    rw [hown] at ht
    exact wp_seq (rsndrSend_spares cfg fuel response d hzero ht) fun _ _ _ => trivial

/-- The server's handlers keep the contract of the reading. -/
theorem reqhdlrReads (fuel : Nat) (cfg : Config) : ReadContract (reqhdlrContract fuel cfg) where
  takes hdlr data dpr := reqhdlrProcessData_takes fuel hdlr data dpr
  apart dpr hzero hallowed hh := reqhdlrProgressResponse_spares dpr hzero hallowed hh

end Handlers

section Sessions

variable {H : Type} {ops : HandlerOps H} {conn : ServerConnection H}
  {others : Multiset (ServerConnection H)} {shown : List ReadLabel}

/-- A connection of a server, the other ones, and what its own turns have shown of the reading.
The standard input is open, so a socket is not 0. -/
inductive Session (fuel : Nat) (cfg : Config) (ops : HandlerOps H) (base : History) :
    ServerConnection H → Multiset (ServerConnection H) → List ReadLabel → History → Prop
  | accepted {conns : Multiset (ServerConnection H)} {h : History} {fd : Fd} :
      Serving fuel cfg ops base conns h → fd ∉ openFds h → fd ≠ 0 →
      Session fuel cfg ops base (connNew fd) conns [] (⟨.accept, .ok fd⟩ :: h)
  | refused {conn : ServerConnection H} {others : Multiset (ServerConnection H)}
      {shown : List ReadLabel} {h : History} {e : Errno} :
      Session fuel cfg ops base conn others shown h →
      Session fuel cfg ops base conn others shown (⟨.accept, .error e⟩ :: h)
  | joined {conn : ServerConnection H} {others : Multiset (ServerConnection H)}
      {shown : List ReadLabel} {h : History} {fd : Fd} :
      Session fuel cfg ops base conn others shown h → fd ∉ openFds h →
      Session fuel cfg ops base conn (connNew fd ::ₘ others) shown (⟨.accept, .ok fd⟩ :: h)
  | beside {conn other : ServerConnection H} {others : Multiset (ServerConnection H)}
      {shown : List ReadLabel} {h h' : History} {drs : DataReadySelector} {closeIfIdle : Bool}
      {turn : ConnTurn H} :
      Session fuel cfg ops base conn (other ::ₘ others) shown h →
      Runs posix (serveTurn fuel cfg ops other drs closeIfIdle) h (.done turn) h' →
      Session fuel cfg ops base conn (leftOpen turn + others) shown h'
  | served {conn : ServerConnection H} {others : Multiset (ServerConnection H)}
      {shown : List ReadLabel} {h new : History} {drs : DataReadySelector} {closeIfIdle : Bool}
      {turn : ConnTurn H} :
      Session fuel cfg ops base conn others shown h →
      Runs posix (serveTurn fuel cfg ops conn drs closeIfIdle) h (.done turn) (new ++ h) →
      turn.result ≠ .toClose →
      Session fuel cfg ops base turn.conn others (shown ++ heard conn.socketFd new) (new ++ h)

/-- The connection of a session is one of a server. -/
theorem Session.serving (hs : Session fuel cfg ops base conn others shown h) :
    Serving fuel cfg ops base (conn ::ₘ others) h := by
  induction hs with
  | accepted hserving hnew => exact hserving.accepted hnew
  | refused _ ih => exact ih.refused
  | joined _ hnew ih =>
    rw [Multiset.cons_swap]
    exact ih.accepted hnew
  | beside _ hrun ih =>
    rw [Multiset.cons_swap] at ih
    rw [← Multiset.add_cons]
    exact ih.served hrun
  | served _ hrun hopen ih =>
    have hserved := ih.served hrun
    rw [leftOpen, if_neg hopen, Multiset.singleton_add] at hserved
    exact hserved

/-- A connection between its turns is a reader that has taken some steps. -/
structure Talks (cfg : Config) (conn : ServerConnection H) (shown : List ReadLabel) : Prop
    extends BufferEnd conn conn.unread where
  blank : conn.rrs = .idle ∨ conn.rrs = .readHead → conn.bodyReadLen = 0
  counted : conn.rrs = .readBody → conn.chunkHdr = none → conn.unread = [] →
    conn.bodyReadLen ≠ conn.bodyLen
  socket : conn.socketFd ≠ 0
  resting : Resting conn
  traced : Traced (ReadStep cfg) readerNew shown (readState conn conn.unread false)

variable {K : HandlerContract cfg ops}

/-- A turn of a connection that has talked. -/
theorem Talks.served (R : ReadContract K) (ht : Talks cfg conn shown)
    (hk : ServerKeeps K base (conn ::ₘ others) h) {drs : DataReadySelector} {closeIfIdle : Bool}
    {turn : ConnTurn H} {new : History}
    (hrun : Runs posix (serveTurn fuel cfg ops conn drs closeIfIdle) h (.done turn) (new ++ h))
    (hopen : turn.result ≠ .toClose) :
    Talks cfg turn.conn (shown ++ heard conn.socketFd new) := by
  obtain ⟨turn', u, hturn, hrest⟩ := Runs.of_bind_done hrun
  obtain ⟨_, v, hfree, hrest⟩ := Runs.of_bind_done hrest
  obtain ⟨rfl, rfl⟩ := Runs.done_eq hrest
  rw [if_neg hopen] at hfree
  obtain ⟨-, rfl⟩ := Runs.done_eq hfree
  have hallowed := (hk.opened conn (Multiset.mem_cons_self conn others)).toConnAllowed
  have hholds := hk.holds
  rw [serverFds_cons, add_assoc] at hholds
  have hhears : Hearing K (serverFds K.fds others + (openFds base : Multiset Fd))
      (readState conn conn.unread false) h conn h :=
    ⟨⟨hallowed, ht.toBufferEnd, ht.blank, ht.socket, hholds, [], (List.append_nil _).symm, .refl _⟩,
      ht.counted⟩
  obtain ⟨-, hleft⟩ := wp_result
    (connProcessDataReady_hears R fuel List.suffix_rfl hhears drs closeIfIdle) hturn
  have hend := Yields.returns (connProcessDataReady_end ht.resting drs closeIfIdle) hturn
  obtain ⟨new', hheard, htraced⟩ := hleft.reached
  rw [hend.socket, heard_append] at hheard
  have hsame := List.append_cancel_left hheard
  rw [hsame]
  exact ⟨hleft.toBufferEnd, hleft.blank, hleft.counted, hleft.socket, hend.resting hopen,
    ht.traced.trans htraced⟩

theorem Session.talks (R : ReadContract K) (hbase : (openFds base).Nodup)
    (hs : Session fuel cfg ops base conn others shown h) : Talks cfg conn shown := by
  induction hs with
  | accepted _ _ hzero =>
    exact ⟨⟨Nat.zero_le _, fun _ => rfl, List.suffix_rfl⟩, fun _ => rfl, fun he => (by cases he),
      hzero, fun he => (by cases he), .refl _⟩
  | refused _ ih => exact ih
  | joined _ _ ih => exact ih
  | beside _ _ ih => exact ih
  | served hs hrun hopen ih =>
    exact ih.served R (hs.serving.keeps (K := K) hbase) hrun hopen

end Sessions

section Requests

variable {conn : ServerConnection RequestHandler}
  {others : Multiset (ServerConnection RequestHandler)} {shown : List ReadLabel}

section Example

/-- The header that a text is read to. -/
def headerRead (cfg : Config) (text : Bytes) : RequestHeader :=
  match feed (reqhdrReader cfg).byte reqhdrNew text with
  | .ok (header, _) => header
  | .error _ => reqhdrNew

def pageHead : Bytes := ascii "GET /pub HTTP/1.1" ++ crlf ++ crlf

def chunkedPostHead : Bytes :=
  ascii "POST /pub HTTP/1.1" ++ crlf ++ ascii "Transfer-Encoding: chunked" ++ crlf ++ crlf

def chunkLine : Bytes := ascii "3" ++ [cr]

def lastLine : Bytes := ascii "0" ++ [cr]

def chunkedPostTail : Bytes :=
  chunkLine ++ lf :: (ascii "abc" ++ (crlf ++ (lastLine ++ lf :: crlf)))

def pageRequest : SentRequest oneShare where
  head := pageHead
  header := headerRead oneShare pageHead
  tail := []
  body := []
  opens := ⟨by decide, by decide +kernel⟩
  carries := .counted (by decide +kernel) (by decide +kernel)
  fits := by decide

def chunkedRequest : SentRequest oneShare where
  head := chunkedPostHead
  header := headerRead oneShare chunkedPostHead
  tail := chunkedPostTail
  body := ascii "abc"
  opens := ⟨by decide, by decide +kernel⟩
  carries := by
    have hlast : ChunkText (lastLine ++ lf :: crlf) [] crlf := .last (by decide) (by decide +kernel)
    have hchunks : ChunkText chunkedPostTail (ascii "abc" ++ []) crlf :=
      .chunk (by decide) (by decide) (by decide +kernel) hlast
    have htrailer : LinesText oneShare (headerRead oneShare chunkedPostHead) crlf
        (headerRead oneShare chunkedPostHead) := ⟨by decide, by decide +kernel⟩
    rw [List.append_nil] at hchunks
    exact .chunked (by decide +kernel) hchunks htrailer
  fits := by decide

def pipelinedTurn : Prog (ConnTurn RequestHandler) × History :=
  playIn (typing [.got (sentText [pageRequest, chunkedRequest])]) (turnOf (connNew 7)) twoAccepted

def pipelined : ConnTurn RequestHandler := pipelinedTurn.1.result?.get (by decide +kernel)

end Example

end Requests

end FilemanagerHttpd.Audit
