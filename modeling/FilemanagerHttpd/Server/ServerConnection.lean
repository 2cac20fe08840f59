import FilemanagerHttpd.Server.ReqHandler

/-!
# A connection

Requests are read and responses sent in one loop, each side as far as its descriptors
allow. The connection works with any kind of handler; `reqhdlrOps` is the server's.
-/

namespace FilemanagerHttpd.Server

open Library

/-- The functions of a request handler that the connection calls. -/
structure HandlerOps (H : Type) where
  new : RequestHeader → Option Bytes → Prog H
  processData : H → Bytes → DataProcessingResult → Prog (H × DataProcessingResult × Nat)
  requestReadCompleted : H → RequestHeader → Prog H
  progressResponse : H → Fd → DataProcessingResult → Prog (H × DataProcessingResult × Bool)
  free : H → Prog Unit

def reqhdlrOps (fuel : Nat) (cfg : Config) : HandlerOps RequestHandler where
  new := reqhdlrNew fuel cfg
  processData := reqhdlrProcessData fuel
  requestReadCompleted := reqhdlrRequestReadCompleted fuel cfg
  progressResponse := reqhdlrProgressResponse fuel
  free := reqhdlrFree

inductive RequestReadState
  | idle | readHead | readBody | readTrailer | readFinished
  deriving DecidableEq, Repr

/-- `struct ServerConnection`. The buffer has the bytes of the last read; those from
`readOffset` on are not processed yet. -/
structure ServerConnection (H : Type) where
  socketFd : Fd
  readBuffer : Bytes
  readOffset : Nat
  readSize : Nat
  rrs : RequestReadState
  header : Option RequestHeader
  chunkHdr : Option MemBuf
  handler : Option H
  bodyLen : Nat
  bodyReadLen : Nat
  deriving DecidableEq, Repr

def connNew {H : Type} (socketFd : Fd) : ServerConnection H where
  socketFd := socketFd
  readBuffer := []
  readOffset := 0
  readSize := 0
  rrs := .readHead
  header := some reqhdrNew
  chunkHdr := none
  handler := none
  bodyLen := 0
  bodyReadLen := 0

variable {H : Type}

/-- The bytes from `readOffset` to `readSize`. -/
def ServerConnection.unread (conn : ServerConnection H) : Bytes :=
  (conn.readBuffer.take conn.readSize).drop conn.readOffset

/-- Go on behind what has been processed; an exhausted buffer starts anew. -/
def ServerConnection.keep (conn : ServerConnection H) (rest : Bytes) : ServerConnection H :=
  if rest = [] then { conn with readOffset := 0, readSize := 0 }
  else { conn with readOffset := conn.readSize - rest.length }

/-- The handler, which is followed without a look. -/
def derefHandler (conn : ServerConnection H) : Except Fault H :=
  match conn.handler with
  | none => .error (.nullPointer .handler)
  | some hdlr => .ok hdlr

def onFinishedHeader (ops : HandlerOps H) (conn : ServerConnection H) (header : RequestHeader) :
    Prog (ServerConnection H) := do
  let peer ← perform (.getpeername conn.socketFd)
  let hdlr ← ops.new header peer
  perform (.note (.created header))
  let conn := { conn with handler := some hdlr }
  if reqhdrIsChunkedTransferEncoding header then
    let chunkHdr ← mbNewWithStr crlf
    return { conn with chunkHdr := some chunkHdr, rrs := .readBody }
  else
    let bodyLen := match reqhdrGetHeaderVal header (ascii "Content-Length") with
      | some val => strtoul 10 val
      | none => conn.bodyLen
    return { conn with bodyLen, rrs := if 0 < bodyLen then .readBody else .readFinished }

/-- The bytes of the buffer that belong to the body or the chunk at hand. -/
def bodyBytesAhead (conn : ServerConnection H) (data : Bytes) : Nat :=
  if conn.bodyLen < (conn.bodyReadLen + data.length) % ulongSize
  then conn.bodyLen - conn.bodyReadLen else data.length

/-- Offer body bytes to the handler: what is left, and whether it has taken them all. -/
def offerBody (ops : HandlerOps H) (conn : ServerConnection H) (dpr : DataProcessingResult)
    (data : Bytes) : Prog (ServerConnection H × DataProcessingResult × Bytes × Bool) :=
  if conn.bodyReadLen < conn.bodyLen then do
    let addLen := bodyBytesAhead conn data
    let hdlr ← derefHandler conn
    let (hdlr, dpr, processed) ← ops.processData hdlr (data.take addLen) dpr
    perform (.note (.consumed (data.take processed)))
    let conn := { conn with
      handler := some hdlr
      bodyReadLen := (conn.bodyReadLen + processed) % ulongSize }
    return (conn, dpr, data.drop processed, addLen ≤ processed)
  else return (conn, dpr, data, true)

/-- A complete chunk size line; the size is kept in 32 bits. -/
def startChunk (conn : ServerConnection H) (chunkHdr : MemBuf) : ServerConnection H :=
  let addLen := strtoul 16 (chunkHdr.data.drop 2) % uintSize
  let conn := { conn with chunkHdr := some mbNew }
  if addLen = 0 then { conn with rrs := .readTrailer }
  else { conn with bodyLen := (conn.bodyLen + addLen) % ulongSize }

/-- Collect the line end behind a chunk and the next size line. -/
def readChunkHdr (conn : ServerConnection H) (chunkHdr : MemBuf) (data : Bytes) :
    Except Fault (ServerConnection H × Bytes) := do
  let lineEnd := data.take (2 - chunkHdr.dataLen)
  let data := data.drop (2 - chunkHdr.dataLen)
  let chunkHdr ← mbAppendData chunkHdr lineEnd
  match splitAtByte lf data with
  | none => do
    let chunkHdr ← mbAppendData chunkHdr data
    return ({ conn with chunkHdr := some chunkHdr }, [])
  | some (piece, rest) => do
    let chunkHdr ← mbAppendData chunkHdr piece
    return (startChunk conn chunkHdr, rest)

/-- What follows when the bytes of the body or the chunk are all there. -/
def bodyComplete (conn : ServerConnection H) (data : Bytes) :
    Except Fault (ServerConnection H × Bytes) :=
  if conn.bodyReadLen = conn.bodyLen then
    match conn.chunkHdr with
    | some chunkHdr => readChunkHdr conn chunkHdr data
    | none => .ok ({ conn with rrs := .readFinished }, data)
  else .ok (conn, data)

/-- One round of the loop of `appendBodyData`. -/
def bodyRound (ops : HandlerOps H) :
    ServerConnection H × DataProcessingResult × Bytes →
      Prog ((ServerConnection H × DataProcessingResult × Bytes) ⊕
        (ServerConnection H × DataProcessingResult))
  | (conn, dpr, data) =>
    if conn.rrs ≠ .readBody ∨ data = [] then return .inr (conn.keep data, dpr)
    else do
      let (conn, dpr, data, goOn) ← offerBody ops conn dpr data
      if ! goOn then return .inr (conn.keep data, dpr)
      else
        let (conn, data) ← bodyComplete conn data
        return .inl (conn, dpr, data)

def appendBodyData (fuel : Nat) (ops : HandlerOps H) (conn : ServerConnection H)
    (dpr : DataProcessingResult) : Prog (ServerConnection H × DataProcessingResult) :=
  Program.iterate .outOfFuel (bodyRound ops) fuel (conn, dpr, conn.unread)

/-- The header of the request; it is there in every state but `RRS_IDLE`. -/
def ServerConnection.hdr (conn : ServerConnection H) : RequestHeader := conn.header.getD reqhdrNew

/-- Header or trailer lines: the connection behind them, and whether they are complete. -/
def appendHeaderData (cfg : Config) (conn : ServerConnection H) :
    Prog (ServerConnection H × Bool) := do
  let (header, offset) ← reqhdrAppendData cfg conn.hdr conn.unread
  perform (.note (.login header.loginState))
  let conn := { conn with header := some header }
  match offset with
  | none => return (conn.keep [], false)
  | some offset => return (conn.keep (conn.unread.drop offset), true)

/-- The part of `appendData` for a request header. -/
def appendHead (cfg : Config) (ops : HandlerOps H) (conn : ServerConnection H) :
    Prog (ServerConnection H) := do
  let conn := if conn.rrs = .idle then { conn with header := some reqhdrNew, rrs := .readHead }
    else conn
  if conn.rrs = .readHead then
    match ← appendHeaderData cfg conn with
    | (conn, true) => onFinishedHeader ops conn conn.hdr
    | (conn, false) => return conn
  else return conn

/-- The part of `appendData` for the body. -/
def appendBody (fuel : Nat) (ops : HandlerOps H) (conn : ServerConnection H)
    (dpr : DataProcessingResult) : Prog (ServerConnection H × DataProcessingResult) :=
  if conn.rrs = .readBody ∧ conn.readSize ≠ 0 then appendBodyData fuel ops conn dpr
  else return (conn, dpr)

/-- The part of `appendData` for the trailer. -/
def appendTrailer (cfg : Config) (conn : ServerConnection H) : Prog (ServerConnection H) :=
  if conn.rrs = .readTrailer ∧ conn.readSize ≠ 0 then do
    match ← appendHeaderData cfg conn with
    | (conn, true) => return { conn with rrs := .readFinished }
    | (conn, false) => return conn
  else return conn

def appendData (fuel : Nat) (cfg : Config) (ops : HandlerOps H) (conn : ServerConnection H)
    (dpr : DataProcessingResult) : Prog (ServerConnection H × DataProcessingResult) := do
  let rrsSav := conn.rrs
  let conn ← appendHead cfg ops conn
  let (conn, dpr) ← appendBody fuel ops conn dpr
  let conn ← appendTrailer cfg conn
  if rrsSav ≠ .readFinished ∧ conn.rrs = .readFinished then
    perform (.note .completed)
    let hdlr ← derefHandler conn
    let hdlr ← ops.requestReadCompleted hdlr conn.hdr
    return ({ conn with handler := some hdlr }, dpr)
  else return (conn, dpr)

/-- `sizeof(conn->readBuffer)`. -/
def readBufferSize : Nat := 65536

/-- Fill the empty buffer from the socket. -/
def fillReadBuffer (conn : ServerConnection H) (dpr : DataProcessingResult) (isVeryIdle : Bool) :
    Prog (ServerConnection H × DataProcessingResult × Bool) :=
  if conn.readSize ≠ 0 then return (conn, dpr, isVeryIdle)
  else do
    match ← perform (.read conn.socketFd readBufferSize) with
    | .got [] => return (conn, dprSetCloseConn dpr, isVeryIdle)
    | .got data =>
      return ({ conn with readBuffer := data, readSize := data.length }, dpr, false)
    | .fail e =>
      if e = .wouldBlock then
        return (conn, dprSetReqState dpr .awaitRead conn.socketFd, isVeryIdle)
      else return (conn, dprSetCloseConn dpr, isVeryIdle)

/-- One round of the inner loop, which reads the request. -/
def readRound (fuel : Nat) (cfg : Config) (ops : HandlerOps H) :
    ServerConnection H × DataProcessingResult × Bool →
      Prog ((ServerConnection H × DataProcessingResult × Bool) ⊕
        (ServerConnection H × DataProcessingResult × Bool))
  | (conn, dpr, isVeryIdle) =>
    if dpr.closeConn = false ∧ dpr.reqState = .ready ∧ conn.rrs ≠ .readFinished then do
      let (conn, dpr, isVeryIdle) ← fillReadBuffer conn dpr isVeryIdle
      if conn.readSize ≠ 0 then
        let (conn, dpr) ← appendData fuel cfg ops conn dpr
        return .inl (conn, dpr, isVeryIdle)
      else return .inl (conn, dpr, isVeryIdle)
    else return .inr (conn, dpr, isVeryIdle)

/-- Send a piece of the response; a finished response takes its handler with it. -/
def progressStep (ops : HandlerOps H) (conn : ServerConnection H) (dpr : DataProcessingResult) :
    Prog (ServerConnection H × DataProcessingResult) :=
  if dpr.closeConn then return (conn, dpr)
  else match conn.handler with
    | none => return (conn, dpr)
    | some hdlr => do
      match ← ops.progressResponse hdlr conn.socketFd dpr with
      | (hdlr, dpr, false) => return ({ conn with handler := some hdlr }, dpr)
      | (hdlr, dpr, true) =>
        ops.free hdlr
        perform (.note (.finished (conn.rrs != .readFinished && ! dpr.closeConn)))
        return ({ conn with handler := none }, dpr)

/-- A request that asks to close the connection behind it. -/
def asksToClose (header : RequestHeader) : Bool :=
  reqhdrGetVersion header == ascii "1.0" ||
    reqhdrGetHeaderVal header (ascii "Connection") == some (ascii "close")

/-- The connection is ready for the next request. -/
def restart (conn : ServerConnection H) : ServerConnection H :=
  { conn with rrs := .idle, header := none, chunkHdr := none, bodyLen := 0, bodyReadLen := 0 }

/-- One round of the outer loop: read as far as possible, send as far as possible. -/
def connRound (fuel : Nat) (cfg : Config) (ops : HandlerOps H) :
    ServerConnection H × DataProcessingResult × Bool →
      Prog ((ServerConnection H × DataProcessingResult × Bool) ⊕
        (ServerConnection H × DataProcessingResult × Bool))
  | s => do
    let (conn, dpr, isVeryIdle) ← Program.iterate .outOfFuel (readRound fuel cfg ops) fuel s
    let (conn, dpr) ← progressStep ops conn dpr
    if dpr.closeConn || conn.rrs != .readFinished || conn.handler.isSome then
      return .inr (conn, dpr, isVeryIdle)
    else if dpr.reqState ≠ .ready ∨ dpr.respState ≠ .ready then .fault (.fatal .internal)
    else if asksToClose conn.hdr then return .inr (conn, dprSetCloseConn dpr, isVeryIdle)
    else return .inl (restart conn, dpr, isVeryIdle)

/-- Register a descriptor to wait for. -/
def drsAwait (drs : DataReadySelector) (state : DataProcessingResultState) (fd : Option Fd) :
    Except Fault DataReadySelector :=
  match state with
  | .ready => .ok drs
  | .awaitRead => drsSetReadFd drs fd
  | .awaitWrite => drsSetWriteFd drs fd

inductive ConnProcessingResult
  | toClose | idle | busy
  deriving DecidableEq, Repr

/-- What `conn_processDataReady` returns, with the states it has left. -/
structure ConnTurn (H : Type) where
  conn : ServerConnection H
  dpr : DataProcessingResult
  drs : DataReadySelector
  result : ConnProcessingResult
  deriving DecidableEq, Repr

/-- The end of `conn_processDataReady`: register the descriptors of a connection that
stays open. -/
def finishTurn (conn : ServerConnection H) (dpr : DataProcessingResult) (drs : DataReadySelector)
    (closeIfIdle isVeryIdle : Bool) : Except Fault (ConnTurn H) := do
  let dpr := if ! dpr.closeConn && closeIfIdle && conn.rrs == .idle then dprSetCloseConn dpr
    else dpr
  if dpr.closeConn then return ⟨conn, dpr, drs, .toClose⟩
  else
    let drs ← drsAwait drs dpr.reqState dpr.reqAwaitFd
    let drs ← drsAwait drs dpr.respState dpr.respAwaitFd
    return ⟨conn, dpr, drs, if isVeryIdle then .idle else .busy⟩

def connProcessDataReady (fuel : Nat) (cfg : Config) (ops : HandlerOps H)
    (conn : ServerConnection H) (drs : DataReadySelector) (closeIfIdle : Bool) :
    Prog (ConnTurn H) := do
  let (conn, dpr, isVeryIdle) ← Program.iterate .outOfFuel (connRound fuel cfg ops) fuel
    (conn, dprInit, conn.rrs == .idle)
  finishTurn conn dpr drs closeIfIdle isVeryIdle

def connFree (ops : HandlerOps H) (conn : ServerConnection H) : Prog Unit := do
  perform (.close conn.socketFd)
  match conn.handler with
  | some hdlr => ops.free hdlr
  | none => return ()

end FilemanagerHttpd.Server
