import FilemanagerHttpd.Server.Readiness

/-!
# The response sender

It sends the header, then the body buffer, then what it reads from the file, and
reuses the body buffer for each piece of the file. It stops whenever the socket or
the file would block and resumes at `dataOffset` on the next call.
-/

namespace FilemanagerHttpd.Server

open Library

structure ResponseSender where
  header : Option MemBuf
  body : Option MemBuf
  fileDesc : Option Fd
  dataSize : Nat
  /-- index of the first unwritten byte -/
  dataOffset : Nat
  /-- file bytes still to be read; -1 for the chunked coding -/
  nbytes : Int
  deriving DecidableEq, Repr

/-- The number of file bytes that `rsndr_new` reckons with. -/
def fileBytesToSend (body : Option MemBuf) (fileDesc : Option Fd) : Prog Int :=
  match body, fileDesc with
  | some _, some fd => do
    match ← perform (.fstat fd) with
    | .ok st => return if st.isReg then st.size else -1
    | .error _ => return 0
  | _, _ => return 0

/-- The header lines that announce the length of the body. -/
def lengthLine (bodyLen : Nat) (nbytes : Int) : Bytes :=
  if 0 ≤ nbytes then ascii "Content-Length: " ++ decimal (bodyLen + nbytes.toNat) ++ crlf
  else ascii "Transfer-Encoding: chunked" ++ crlf

/-- The size line of a chunk. -/
def chunkSizeLine (n : Nat) : Bytes := hexadecimal n ++ crlf

/-- The last chunk with an empty trailer. -/
def lastChunk : Bytes := ascii "0" ++ crlf ++ crlf

def rsndrNew (header : MemBuf) (body : Option MemBuf) (fileDesc : Option Fd) :
    Prog ResponseSender := do
  let nbytes ← fileBytesToSend body fileDesc
  let header ← (match body with
    | some body => mbAppendStr header (lengthLine body.dataLen nbytes)
    | none => pure header)
  let fileDesc ← closeIf (nbytes = 0) fileDesc
  let header ← mbAppendStr header crlf
  match body with
  | none => return ⟨some header, none, fileDesc, 0, 0, nbytes⟩
  | some body =>
    if nbytes = -1 ∧ 0 < body.dataLen then
      -- the size line of the first chunk goes to the header
      let header ← mbAppendStr header (chunkSizeLine body.dataLen)
      let body ← mbAppendStr body crlf
      return ⟨some header, some body, fileDesc, body.dataLen, 0, nbytes⟩
    else return ⟨some header, some body, fileDesc, body.dataLen, 0, nbytes⟩

/-- Why the loop that fills the buffer has ended. -/
inductive FillStop
  | full | eof | failed (e : Errno)
  deriving DecidableEq, Repr

def fillRound (fd : Option Fd) (toFill : Nat) :
    MemBuf × Nat → Prog ((MemBuf × Nat) ⊕ (MemBuf × Nat × FillStop))
  | (body, filledCount) =>
    if filledCount < toFill then do
      match ← mbReadFile body fd filledCount (toFill - filledCount) with
      | (body, .got []) => return .inr (body, filledCount, .eof)
      | (body, .got data) => return .inl (body, filledCount + data.length)
      | (body, .fail e) => return .inr (body, filledCount, .failed e)
    else return .inr (body, filledCount, .full)

/-- `while( filledCount < toFill && (rd = mb_readFile(..)) > 0 )`. A round that goes on
has read a byte, so there is never more than `toFill` of them. -/
def fillLoop (body : MemBuf) (fd : Option Fd) (filledCount toFill : Nat) :
    Prog (MemBuf × Nat × FillStop) :=
  Program.iterate .outOfFuel (fillRound fd toFill) (toFill + 1) (body, filledCount)

def ensureSize (body : MemBuf) (size : Nat) : Prog MemBuf :=
  if body.dataLen < size then mbResize body size else return body

/-- Whether the loop has ended for another reason than a file that would block. -/
def FillStop.exhausted : FillStop → Bool
  | .eof => true
  | .failed e => e != .wouldBlock
  | .full => false

/-- The branch of `fillBuffer` for a known number of bytes. -/
def fillFixed (rsndr : ResponseSender) (body : MemBuf) (dpr : DataProcessingResult) :
    Prog (ResponseSender × DataProcessingResult) := do
  let toFill := if rsndr.nbytes < 65536 then rsndr.nbytes.toNat else 65536
  let body ← ensureSize body toFill
  match rsndr.fileDesc with
  | none =>
    let body ← mbFillWithZeros body 0 toFill
    return ({ rsndr with
      body := some body, nbytes := rsndr.nbytes - toFill,
      dataSize := toFill, dataOffset := 0 }, dpr)
  | some fd =>
    let (body, filledCount, stop) ← fillLoop body fd 0 toFill
    if stop.exhausted then
      -- the file ends early: the rest is zeros
      perform (.close fd)
      let body ← mbFillWithZeros body filledCount (toFill - filledCount)
      return ({ rsndr with
        body := some body, fileDesc := none, nbytes := rsndr.nbytes - toFill,
        dataSize := toFill, dataOffset := 0 }, dpr)
    else
      let dpr := if stop ≠ .full ∧ filledCount = 0
        then dprSetRespState dpr .awaitRead rsndr.fileDesc else dpr
      return ({ rsndr with
        body := some body, nbytes := rsndr.nbytes - filledCount,
        dataSize := filledCount, dataOffset := 0 }, dpr)

/-- Where the data of a chunk starts in the buffer. -/
def chunkGap : Nat := 10

def chunkedFill : Nat := 65546

/-- The size line goes into the gap before the data and a line end behind it: the buffer,
the offset of the chunk and the end of it. No data makes no chunk. -/
def wrapChunk (body : MemBuf) (filledCount : Nat) : Except Fault (MemBuf × Nat × Nat) :=
  if chunkGap < filledCount then do
    let chunkHeader := chunkSizeLine (filledCount - chunkGap)
    let body ← mbSetData body (chunkGap - chunkHeader.length) chunkHeader
    let body ← mbSetData body filledCount crlf
    return (body, chunkGap - chunkHeader.length, filledCount + 2)
  else return (body, 0, 0)

/-- The branch of `fillBuffer` for the chunked coding. -/
def fillChunked (rsndr : ResponseSender) (body : MemBuf) (dpr : DataProcessingResult) :
    Prog (ResponseSender × DataProcessingResult) := do
  let body ← ensureSize body (chunkedFill + 7)
  let (body, filledCount, stop) ← fillLoop body rsndr.fileDesc chunkGap chunkedFill
  let fileDesc ← closeIf stop.exhausted rsndr.fileDesc
  let (body, dataOffset, dataSize) ← wrapChunk body filledCount
  match fileDesc with
  | none =>
    let body ← mbSetData body dataSize lastChunk
    return ({ rsndr with
      body := some body, fileDesc := none, nbytes := 0,
      dataSize := dataSize + 5, dataOffset }, dpr)
  | some fd =>
    let dpr := if dataSize = 0 then dprSetRespState dpr .awaitRead fd else dpr
    return ({ rsndr with body := some body, dataSize, dataOffset }, dpr)

def fillBuffer (rsndr : ResponseSender) (body : MemBuf) (dpr : DataProcessingResult) :
    Prog (ResponseSender × DataProcessingResult) :=
  if 0 ≤ rsndr.nbytes then fillFixed rsndr body dpr else fillChunked rsndr body dpr

def writeRound (fd : Fd) (data : Bytes) (offset : Nat) :
    Prog (Nat ⊕ (Nat × Option Errno)) :=
  if offset < data.length then do
    match ← perform (.write fd (data.drop offset)) with
    | .wrote wr => return .inl (offset + wr)
    | .fail e => return .inr (offset, some e)
  else return .inr (offset, none)

/-- `while( dataOffset < size && (wr = write(..)) >= 0 )`: the offset reached and the
error, if one has ended the loop. -/
def writeLoop (fuel : Nat) (fd : Fd) (data : Bytes) (offset : Nat) :
    Prog (Nat × Option Errno) :=
  Program.iterate .outOfFuel (writeRound fd data) fuel offset

/-- A failed write: wait for the socket, or give the connection up. -/
def writeFailed (e : Errno) (socketFd : Fd) (dpr : DataProcessingResult) :
    DataProcessingResult × Bool :=
  if e = .wouldBlock then (dprSetRespState dpr .awaitWrite socketFd, false)
  else (dprSetCloseConn dpr, true)

/-- One round of the outer loop over the body; without a body there is nothing to send. -/
def sendBodyRound (fuel : Nat) (socketFd : Fd) :
    ResponseSender × DataProcessingResult →
      Prog ((ResponseSender × DataProcessingResult) ⊕
        (ResponseSender × DataProcessingResult × Bool))
  | (rsndr, dpr) =>
    match rsndr.body with
    | none => return .inr (rsndr, dpr, true)
    | some body => do
      match ← writeLoop fuel socketFd (body.data.take rsndr.dataSize) rsndr.dataOffset with
      | (off, some e) =>
        let (dpr, finished) := writeFailed e socketFd dpr
        return .inr ({ rsndr with dataOffset := off }, dpr, finished)
      | (off, none) =>
        let rsndr := { rsndr with dataOffset := off }
        if rsndr.nbytes = 0 then return .inr (rsndr, dpr, true)
        else
          let (rsndr, dpr) ← fillBuffer rsndr body dpr
          if rsndr.dataSize = 0 then return .inr (rsndr, dpr, false)
          else return .inl (rsndr, dpr)

def sendBody (fuel : Nat) (socketFd : Fd) (rsndr : ResponseSender)
    (dpr : DataProcessingResult) : Prog (ResponseSender × DataProcessingResult × Bool) :=
  Program.iterate .outOfFuel (sendBodyRound fuel socketFd) fuel (rsndr, dpr)

/-- `rsndr_send`: whether the response is finished. -/
def rsndrSend (fuel : Nat) (rsndr : ResponseSender) (socketFd : Fd)
    (dpr : DataProcessingResult) : Prog (ResponseSender × DataProcessingResult × Bool) :=
  match rsndr.header with
  | none => sendBody fuel socketFd rsndr dpr
  | some header => do
    match ← writeLoop fuel socketFd header.data rsndr.dataOffset with
    | (off, some e) =>
      let (dpr, finished) := writeFailed e socketFd dpr
      return ({ rsndr with dataOffset := off }, dpr, finished)
    | (_, none) => sendBody fuel socketFd { rsndr with header := none, dataOffset := 0 } dpr

def rsndrFree (rsndr : ResponseSender) : Prog Unit := closeFd rsndr.fileDesc

end FilemanagerHttpd.Server
