import FilemanagerHttpd.Server.RespBuf
import FilemanagerHttpd.Server.DataHeader

/-!
# CGI programs

After `fork` the child prepares the environment and replaces itself, or prints an error
page and exits; the model follows it in the branch of its own.
-/

namespace FilemanagerHttpd.Server

open Library

structure CgiExecutor where
  onlyHead : Bool
  inFd : Option Fd
  outFd : Option Fd
  cgiHeader : DataHeader
  deriving DecidableEq, Repr

/-- `fatalErrorResp`: the page goes to the standard output, then the child exits. -/
def fatalErrorResp {α : Type} (message : Bytes) (status : Option Bytes) : Prog α := do
  let status := status.getD (ascii "500 Internal Server Error")
  let page := ascii "Content-Type: text/html\nStatus: " ++ status ++
    ascii "\n\n<!DOCTYPE html><html><head>\n<title>" ++ status ++ ascii "</title>\n</head>\n" ++
    ascii "<body><h3>" ++ status ++ ascii "</h3>\n" ++ message ++ ascii "\n</body></html>"
  let _ ← perform (.write 1 page)
  .fault .exited

def spoolTemplate : Path := ascii "/tmp/fmgrXXXXXX"

/-- One write of what has been read to the temporary file. -/
def spoolWriteRound (tmpFd : Fd) (buf : Bytes) (offs : Nat) : Prog (Nat ⊕ Unit) :=
  if offs < buf.length then do
    match ← perform (.write tmpFd (buf.drop offs)) with
    | .wrote wr => return .inl (offs + wr)
    | .fail _ => fatalErrorResp (ascii "tempfile write error") none
  else return .inr ()

def spoolLimit : Nat := 1000000

/-- One read of the body; the result is the length and whether the last read failed. -/
def spoolReadRound (fuel : Nat) (tmpFd : Fd) (ctLen : Nat) : Prog (Nat ⊕ (Nat × Bool)) :=
  if spoolLimit < ctLen then return .inr (ctLen, false)
  else do
    match ← perform (.read 0 65535) with
    | .got [] => return .inr (ctLen, false)
    | .fail _ => return .inr (ctLen, true)
    | .got buf =>
      Program.iterate .outOfFuel (spoolWriteRound tmpFd buf) fuel 0
      return .inl (ctLen + buf.length)

/-- `handleNoContentLength`: the decoded body is stored in a temporary file first. -/
def handleNoContentLength (fuel : Nat) : Prog Bytes := do
  match ← perform (.mkstemp spoolTemplate) with
  | .error _ => fatalErrorResp (ascii "unable to create tempfile") none
  | .ok (path, tmpFd) =>
    let _ ← perform (.unlink path)
    let (ctLen, failed) ← Program.iterate .outOfFuel (spoolReadRound fuel tmpFd) fuel 0
    if spoolLimit < ctLen then
      fatalErrorResp (ascii "Request body too long") (some (ascii "413 Payload Too Large"))
    else if failed then fatalErrorResp (ascii "stdin read fail") none
    else
      perform (.dup2 tmpFd 0)
      return decimal ctLen

/-- `appendEnv`. -/
def appendEnv (envp : List Bytes) (name value : Bytes) : List Bytes :=
  envp ++ [name ++ [equalsSign] ++ value]

def appendEnvIf (envp : List Bytes) (name : Bytes) : Option Bytes → List Bytes
  | none => envp
  | some value => appendEnv envp name value

def omitHeaders : List Bytes :=
  ["Content-Length", "Content-Type", "Authorization", "Connection", "Transfer-Encoding"].map ascii

def putHeader (envp : List Bytes) (headerName headerValue : Bytes) : List Bytes :=
  if omitHeaders.any fun name => eqIgnoreCase headerName name then envp
  else appendEnv envp
    (ascii "HTTP_" ++ headerName.map fun b => if b = hyphen then 95 else toUpper b) headerValue

/-- One header of the request: the environment so far and the content length. -/
def putRequestHeader (env : List Bytes × Option Bytes) (header : Bytes × Bytes) :
    List Bytes × Option Bytes :=
  if eqIgnoreCase header.1 (ascii "Content-Type") then
    (appendEnv env.1 (ascii "CONTENT_TYPE") header.2, env.2)
  else if eqIgnoreCase header.1 (ascii "Content-Length") then (env.1, some header.2)
  else (putHeader env.1 header.1 header.2, env.2)

/-- The headers as `reqhdr_getHeaderAt` gives them. -/
def requestHeaders (hdr : RequestHeader) : List (Bytes × Bytes) :=
  (List.range hdr.headers.length).filterMap (reqhdrGetHeaderAt hdr)

/-- `dirname`. -/
def dirname (path : Path) : Path :=
  match splitAtLastByte slash (dchTrimTrailing path slash) with
  | none => if path.head? = some slash then [slash] else [dot]
  | some (dir, _) => if dchTrimTrailing dir slash = [] then [slash] else dchTrimTrailing dir slash

/-- The part of the environment that comes before the request headers. -/
def cgiEnvironment (cfg : Config) (hdr : RequestHeader)
    (peerAddr scriptName pathInfo : Option Bytes) : List Bytes :=
  let envp := appendEnv [] (ascii "GATEWAY_INTERFACE") (ascii "1.1")
  let envp := appendEnvIf envp (ascii "PATH_INFO") pathInfo
  let envp := appendEnvIf envp (ascii "PATH_TRANSLATED")
    (pathInfo.bind (configGetSysPathForUrlPath cfg))
  let envp := appendEnvIf envp (ascii "QUERY_STRING") (reqhdrGetQuery hdr)
  let envp := appendEnvIf envp (ascii "REMOTE_ADDR") peerAddr
  let envp := appendEnvIf envp (ascii "REMOTE_HOST") peerAddr
  let envp := appendEnv envp (ascii "REQUEST_METHOD") (reqhdrGetMethod hdr)
  appendEnvIf envp (ascii "SCRIPT_NAME") scriptName

/-- The length of a chunked body is known when it has been stored. -/
def contentLengthOf (fuel : Nat) (hdr : RequestHeader) (contentLength : Option Bytes) :
    Prog (Option Bytes) :=
  match contentLength, reqhdrIsChunkedTransferEncoding hdr with
  | none, true => do
    let len ← handleNoContentLength fuel
    return some len
  | len, _ => return len

def runCgi (fuel : Nat) (cfg : Config) (hdr : RequestHeader) (exePath : Path)
    (peerAddr scriptName pathInfo : Option Bytes) : Prog CgiExecutor := do
  let arg0 := match splitAtLastByte slash exePath with
    | none => exePath
    | some (_, base) => base
  let (envp, contentLength) := (requestHeaders hdr).foldl putRequestHeader
    (cgiEnvironment cfg hdr peerAddr scriptName pathInfo, none)
  let hostname ← perform .gethostname
  let envp := appendEnvIf envp (ascii "SERVER_NAME") hostname
  let envp := appendEnv envp (ascii "SERVER_PORT") (decimal cfg.listenPort)
  let envp := appendEnv envp (ascii "SERVER_PROTOCOL") (ascii "HTTP/1.1")
  let envp := appendEnv envp (ascii "SERVER_SOFTWARE") (ascii "filemanager-httpd")
  let contentLength ← contentLengthOf fuel hdr contentLength
  let envp := appendEnvIf envp (ascii "CONTENT_LENGTH") contentLength
  perform (.chdir (dirname exePath))
  let _ ← perform (.execve exePath [arg0] envp)
  fatalErrorResp (ascii "unable to execute CGI") none

def cgiexeNew (fuel : Nat) (cfg : Config) (hdr : RequestHeader) (exePath : Path)
    (peerAddr scriptName pathInfo : Option Bytes) : Prog CgiExecutor := do
  match ← perform .pipe with
  | none => .fault (.fatal .pipe)
  | some (toCgiRead, toCgiWrite) =>
    match ← perform .pipe with
    | none => .fault (.fatal .pipe)
    | some (fromCgiRead, fromCgiWrite) =>
      match ← perform .fork with
      | .fail => .fault (.fatal .fork)
      | .child =>
        perform (.dup2 toCgiRead 0)
        perform (.close toCgiRead)
        perform (.close toCgiWrite)
        perform (.dup2 fromCgiWrite 1)
        perform (.close fromCgiRead)
        perform (.close fromCgiWrite)
        runCgi fuel cfg hdr exePath peerAddr scriptName pathInfo
      | .parent =>
        perform (.close toCgiRead)
        perform (.close fromCgiWrite)
        return {
          onlyHead := reqhdrGetMethod hdr == ascii "HEAD"
          inFd := some toCgiWrite
          outFd := some fromCgiRead
          cgiHeader := datahdrNew }

/-- One round of the loop of `cgiexe_processData`. After a failed write the count is one
less, and the loop ends. -/
def cgiWriteRound (data : Bytes) :
    CgiExecutor × DataProcessingResult × Nat →
      Prog ((CgiExecutor × DataProcessingResult × Nat) ⊕
        (CgiExecutor × DataProcessingResult × Nat))
  | (cgiexe, dpr, wrtot) =>
    match cgiexe.inFd with
    | none => return .inr (cgiexe, dpr, data.length)
    | some fd =>
      if wrtot < data.length then do
        match ← perform (.write fd (data.drop wrtot)) with
        | .wrote wr => return .inl (cgiexe, dpr, wrtot + wr)
        | .fail e =>
          if e = .wouldBlock then
            return .inr (cgiexe, dprSetReqState dpr .awaitWrite cgiexe.inFd, wrtot)
          else
            perform (.close fd)
            return .inl ({ cgiexe with inFd := none }, dpr, (wrtot + uintSize - 1) % uintSize)
      else return .inr (cgiexe, dpr, data.length)

/-- `cgiexe_processData`: the number of bytes taken. -/
def cgiexeProcessData (fuel : Nat) (cgiexe : CgiExecutor) (data : Bytes)
    (dpr : DataProcessingResult) : Prog (CgiExecutor × DataProcessingResult × Nat) :=
  Program.iterate .outOfFuel (cgiWriteRound data) fuel (cgiexe, dpr, 0)

def cgiexeRequestReadCompleted (cgiexe : CgiExecutor) : Prog CgiExecutor := do
  closeFd cgiexe.inFd
  return { cgiexe with inFd := none }

/-- What has ended the reading of the CGI header. -/
inductive CgiHeaderRead
  /-- the header is complete; these bytes follow it -/
  | complete (rest : Bytes)
  | eof
  | failed (e : Errno)
  deriving DecidableEq, Repr

def cgiHeaderRound (outFd : Option Fd) (header : DataHeader) :
    Prog (DataHeader ⊕ (DataHeader × CgiHeaderRead)) :=
  match outFd with
  | none => return .inr (header, .failed badDescriptor)
  | some fd => do
    match ← perform (.read fd 4096) with
    | .fail e => return .inr (header, .failed e)
    | .got [] => return .inr (header, .eof)
    | .got buf =>
      match ← datahdrAppendData header buf with
      | (header, none) => return .inl header
      | (header, some offset) => return .inr (header, .complete (buf.drop offset))

/-- The header lines of the CGI that do not go to the response as they are. -/
def isCgiOwnHeader (name : Bytes) : Bool :=
  eqIgnoreCase name (ascii "Status") || eqIgnoreCase name (ascii "Content-Type") ||
    startsWithIgnoreCase (ascii "X-CGI-") name

/-- The response header made from the header of the CGI. -/
def cgiResponseHeader (header : DataHeader) (onlyHead : Bool) : Except Fault RespBuf := do
  let status := (datahdrGetHeaderVal header (ascii "Status")).getD (respCmnStatus .ok200)
  let resp ← respNew status onlyHead
  let contentType := (datahdrGetHeaderVal header (ascii "Content-Type")).getD (ascii "text/plain")
  let resp ← respAppendHeader resp (ascii "Content-Type") contentType
  (header.lines.filter fun line => ! isCgiOwnHeader line.1).foldlM
    (fun resp line => respAppendHeader resp line.1 line.2) resp

def cgiexeGetResponse (fuel : Nat) (cgiexe : CgiExecutor) (dpr : DataProcessingResult) :
    Prog (CgiExecutor × DataProcessingResult × Option RespBuf) := do
  let (header, res) ←
    Program.iterate .outOfFuel (cgiHeaderRound cgiexe.outFd) fuel cgiexe.cgiHeader
  let cgiexe := { cgiexe with cgiHeader := header }
  match res with
  | .complete rest =>
    let resp ← cgiResponseHeader header cgiexe.onlyHead
    let resp ← respAppendData resp rest
    let resp ← respEnqFile resp cgiexe.outFd
    return ({ cgiexe with outFd := none }, dpr, some resp)
  | .eof =>
    -- the header is incomplete
    closeFd cgiexe.outFd
    let resp ← respNew (respCmnStatus .internal500) cgiexe.onlyHead
    let resp ← respAppendHeader resp (ascii "Content-Type") (ascii "text/html")
    let resp ← respAppendStr resp
      (ascii "<!DOCTYPE html><html><head>\n<title>Internal Server Error</title>\n</head>\n" ++
        ascii "<body><h3>Internal Server Error</h3>\nMissing end-of-header line in CGI response\n" ++
        ascii "</body></html>")
    return ({ cgiexe with outFd := none }, dpr, some resp)
  | .failed e =>
    if e = .wouldBlock then
      return (cgiexe, dprSetRespState dpr .awaitRead cgiexe.outFd, none)
    else .fault (.fatal .cgiRead)

def cgiexeFree (cgiexe : CgiExecutor) : Prog Unit := do
  closeFd cgiexe.inFd
  closeFd cgiexe.outFd

end FilemanagerHttpd.Server
