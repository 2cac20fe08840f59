import FilemanagerHttpd.Library.Traces
import FilemanagerHttpd.Server.ServerConnection

/-!
# The reader of requests

What a connection does with the bytes that it reads, without its buffer, its handler and its
turns: bytes arrive, a header is completed, the handler takes bytes of the body, a request is
completed, and the next one begins. A step shows what the client and the handler see of it.
-/

namespace FilemanagerHttpd.Audit

open Library Server

/-- What is seen of the reading. -/
inductive ReadLabel
  | received (data : Bytes)
  | created (header : RequestHeader)
  | consumed (data : Bytes)
  | completed

/-- The bytes ahead are read and not processed. A completed request is owed to the handler until
it has heard of it. -/
structure ReadState where
  rrs : RequestReadState
  header : RequestHeader
  chunkHdr : Option MemBuf
  bodyLen : Nat
  bodyReadLen : Nat
  ahead : Bytes
  owed : Bool

/-- The length of a body that is not chunked. -/
def announcedLen (header : RequestHeader) (bodyLen : Nat) : Nat :=
  match reqhdrGetHeaderVal header (ascii "Content-Length") with
  | some val => strtoul 10 val
  | none => bodyLen

namespace ReadState

/-- The header is complete. -/
def headed (s : ReadState) (header : RequestHeader) (ahead : Bytes) : ReadState :=
  if reqhdrIsChunkedTransferEncoding header then
    { s with header, ahead, chunkHdr := some ⟨crlf⟩, rrs := .readBody }
  else
    let bodyLen := announcedLen header s.bodyLen
    { s with
      header, ahead, bodyLen
      rrs := if 0 < bodyLen then .readBody else .readFinished
      owed := ! decide (0 < bodyLen) }

/-- The bytes that are offered to the handler. -/
def offer (s : ReadState) : Nat :=
  if s.bodyLen < (s.bodyReadLen + s.ahead.length) % ulongSize
  then s.bodyLen - s.bodyReadLen else s.ahead.length

/-- The handler has taken bytes of the body. -/
def taken (s : ReadState) (processed : Nat) : ReadState :=
  { s with bodyReadLen := (s.bodyReadLen + processed) % ulongSize, ahead := s.ahead.drop processed }

/-- A size line is complete, the line end of the chunk before it in its first two bytes. -/
def sized (s : ReadState) (line ahead : Bytes) : ReadState :=
  let addLen := strtoul 16 (line.drop 2) % uintSize
  if addLen = 0 then { s with chunkHdr := some mbNew, ahead, rrs := .readTrailer }
  else { s with chunkHdr := some mbNew, ahead, bodyLen := (s.bodyLen + addLen) % ulongSize }

end ReadState

/-- The steps of the reader. -/
inductive ReadStep (cfg : Config) : ReadState → List ReadLabel → ReadState → Prop
  | received {s : ReadState} {data : Bytes} : s.ahead = [] → data ≠ [] →
      data.length ≤ readBufferSize → ReadStep cfg s [.received data] { s with ahead := data }
  | begun {s : ReadState} : s.rrs = .idle →
      ReadStep cfg s [] { s with header := reqhdrNew, rrs := .readHead }
  | lines {s : ReadState} {header : RequestHeader} : s.rrs = .readHead ∨ s.rrs = .readTrailer →
      reqhdrAppendData cfg s.header s.ahead = .ok (header, none) →
      ReadStep cfg s [] { s with header, ahead := [] }
  | headed {s : ReadState} {header : RequestHeader} {offset : Nat} : s.rrs = .readHead →
      reqhdrAppendData cfg s.header s.ahead = .ok (header, some offset) →
      ReadStep cfg s [.created header] (s.headed header (s.ahead.drop offset))
  | taken {s : ReadState} {processed : Nat} : s.rrs = .readBody → s.bodyReadLen < s.bodyLen →
      processed ≤ (s.ahead.take s.offer).length →
      ReadStep cfg s [.consumed (s.ahead.take processed)] (s.taken processed)
  | sizing {s : ReadState} {chunkHdr : MemBuf} : s.rrs = .readBody →
      s.bodyReadLen = s.bodyLen → s.chunkHdr = some chunkHdr →
      lf ∉ s.ahead.drop (2 - chunkHdr.dataLen) →
      ReadStep cfg s [] { s with chunkHdr := some ⟨chunkHdr.data ++ s.ahead⟩, ahead := [] }
  | sized {s : ReadState} {chunkHdr : MemBuf} {piece rest : Bytes} : s.rrs = .readBody →
      s.bodyReadLen = s.bodyLen → s.chunkHdr = some chunkHdr → lf ∉ piece →
      s.ahead.drop (2 - chunkHdr.dataLen) = piece ++ lf :: rest →
      ReadStep cfg s []
        (s.sized (chunkHdr.data ++ s.ahead.take (2 - chunkHdr.dataLen) ++ piece) rest)
  | counted {s : ReadState} : s.rrs = .readBody → s.bodyReadLen = s.bodyLen →
      s.chunkHdr = none → ReadStep cfg s [] { s with rrs := .readFinished, owed := true }
  | trailed {s : ReadState} {header : RequestHeader} {offset : Nat} : s.rrs = .readTrailer →
      reqhdrAppendData cfg s.header s.ahead = .ok (header, some offset) →
      ReadStep cfg s []
        { s with header, ahead := s.ahead.drop offset, rrs := .readFinished, owed := true }
  | completed {s : ReadState} : s.owed = true →
      ReadStep cfg s [.completed] { s with owed := false }
  | restarted {s : ReadState} : s.rrs = .readFinished → s.owed = false →
      ReadStep cfg s []
        { s with rrs := .idle, header := reqhdrNew, chunkHdr := none, bodyLen := 0,
                 bodyReadLen := 0 }

/-- The reader in a connection that has accepted its socket. -/
def readerNew : ReadState := ⟨.readHead, reqhdrNew, none, 0, 0, [], false⟩

section Labels

/-- What an event shows of the reading from a socket. -/
def readLabel (sock : Fd) : Event → List ReadLabel
  | ⟨.read fd _, .got (b :: data)⟩ => if fd = sock then [.received (b :: data)] else []
  | ⟨.note (.created header), _⟩ => [.created header]
  | ⟨.note (.consumed data), _⟩ => [.consumed data]
  | ⟨.note .completed, _⟩ => [.completed]
  | _ => []

/-- What has been seen of the reading from a socket. -/
def heard (sock : Fd) (h : History) : List ReadLabel := h.reverse.flatMap (readLabel sock)

theorem heard_cons (sock : Fd) (e : Event) (h : History) :
    heard sock (e :: h) = heard sock h ++ readLabel sock e := by
  rw [heard, List.reverse_cons, List.flatMap_append, List.flatMap_singleton, heard]

theorem heard_append (sock : Fd) (new h : History) :
    heard sock (new ++ h) = heard sock h ++ heard sock new := by
  rw [heard, List.reverse_append, List.flatMap_append, heard, heard]

/-- The bytes that have arrived. -/
def receivedBytes (shown : List ReadLabel) : Bytes := shown.flatMap fun l =>
  match l with
  | .received data => data
  | _ => []

theorem receivedBytes_append (shown new : List ReadLabel) :
    receivedBytes (shown ++ new) = receivedBytes shown ++ receivedBytes new :=
  List.flatMap_append

end Labels

end FilemanagerHttpd.Audit
