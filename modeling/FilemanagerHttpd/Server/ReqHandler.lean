import FilemanagerHttpd.Server.FileManager
import FilemanagerHttpd.Server.CgiExecutor

/-!
# Request handlers

The handler is made when the header of a request is complete. It holds a file manager, a
CGI program or a ready response, and later the response.
-/

namespace FilemanagerHttpd.Server

open Library

/-- `mime_types`. -/
def mimeTypes : List (String × String) :=
  [("aac", "audio/x-hx-aac-adts"), ("avi", "video/x-msvideo"), ("bmp", "image/bmp"),
  ("bz2", "application/x-bzip2"), ("c", "text/x-c"), ("conf", "text/plain"), ("css", "text/css"),
  ("csv", "text/csv"), ("deb", "application/x-debian-package"), ("doc", "application/msword"),
  ("flv", "video/x-flv"), ("gif", "image/gif"), ("gz", "application/gzip"),
  ("htm", "text/html; charset=utf-8"), ("html", "text/html; charset=utf-8"),
  ("java", "text/plain"), ("jar", "application/jar"), ("jpe", "image/jpeg"),
  ("jpeg", "image/jpeg"), ("jpg", "image/jpeg"), ("js", "text/javascript"),
  ("json", "application/json"), ("jsp", "text/html; charset=utf-8"), ("m3u", "audio/x-mpegurl"),
  ("mid", "audio/midi"), ("midi", "audio/midi"), ("mjs", "text/javascript"),
  ("mov", "video/quicktime"), ("mp2", "audio/mpeg"), ("mp3", "audio/mpeg"), ("mp4", "video/mp4"),
  ("mpe", "video/mpeg"), ("mpeg", "video/mpeg"), ("mpg", "video/mpeg"), ("ogg", "video/ogg"),
  ("pdf", "application/pdf"), ("png", "image/png"), ("ppt", "application/vnd.ms-powerpoint"),
  ("ps", "application/postscript"), ("qt", "video/quicktime"), ("ra", "audio/x-realaudio"),
  ("ram", "audio/x-pn-realaudio"), ("rtf", "text/rtf"), ("sh", "text/plain; charset=utf-8"),
  ("sql", "application/sql"), ("svg", "image/svg+xml"), ("svgz", "image/svg+xml"),
  ("tar", "application/x-tar"), ("tif", "image/tiff"), ("tiff", "image/tiff"),
  ("tsv", "text/tab-separated-values; charset=utf-8"), ("txt", "text/plain; charset=utf-8"),
  ("wasm", "application/wasm"), ("wav", "audio/x-wav"), ("wma", "audio/x-ms-wma"),
  ("wmv", "video/x-ms-wmv"), ("wmx", "video/x-ms-wmx"), ("xls", "application/vnd.ms-excel"),
  ("xml", "text/xml; charset=utf-8"), ("xpm", "image/x-xpmi"),
  ("xsl", "text/xml; charset=utf-8"), ("zip", "application/zip")]

def cttypeGetContentTypeByFileExt (fname : Path) : Bytes :=
  let base := match splitAtLastByte slash fname with
    | none => fname
    | some (_, base) => slash :: base
  let ext := match splitAtLastByte dot base with
    | none => ascii "txt"
    | some (before, ext) => if before = [] ∨ before = [slash] then ascii "txt" else ext
  match mimeTypes.find? fun p => eqIgnoreCase ext (ascii p.1) with
  | some p => ascii p.2
  | none => ascii "application/octet-stream"

def htmlType : Bytes := ascii "text/html; charset=utf-8"

def printMovedAddSlash (urlPath : Bytes) (onlyHead : Bool) : Prog RespBuf := do
  let resp ← respNew (ascii "301 Moved Permanently") onlyHead
  let resp ← respAppendHeader resp (ascii "Location") (urlPath ++ [slash])
  let resp ← respAppendHeader resp (ascii "Content-Type") htmlType
  if onlyHead then return resp
  else
    respAppendFmt resp
      (ascii "<!DOCTYPE html><html><head><title>%S on %H</title></head><body>\n" ++
        ascii "<h3>Moved to <a href=\"%S/\">%S/</a></h3>\n</body></html>\n")
      [.str urlPath, .str urlPath, .str urlPath]

def printMesgPage (status : Bytes) (mesg : Option Bytes) (path : Bytes)
    (onlyHead showLoginButton : Bool) : Prog RespBuf := do
  let resp ← respNew status onlyHead
  let resp ← respAppendHeader resp (ascii "Content-Type") htmlType
  if onlyHead then return resp
  else
    let resp ← respAppendFmt resp
      (ascii "<!DOCTYPE html><html><head><title>%S on %H</title></head><body>\n") [.str path]
    let resp ← (if showLoginButton then
        respAppendFmt resp (ascii "<div style='text-align: right'>%R</div>\n")
          [.str filemgrGetLoginForm]
      else pure resp)
    let resp ← respAppendFmt resp
      (ascii "<div style=\"text-align: center; margin: 150px 0px\">\n" ++
        ascii "<span style=\"font-size: x-large; border: 1px solid #FFF0B0; " ++
        ascii "background-color: #FFFCF0; padding: 50px 100px\">\n%R</span></div>\n")
      [.str status]
    let resp ← (match mesg with
      | some mesg => respAppendFmt resp (ascii "<p>%S</p>") [.str mesg]
      | none => pure resp)
    respAppendStr resp (ascii "</body></html>\n")

/-- The status of an error page; other errors are named in it. -/
def errorStatus (cfg : Config) : Option Errno → HttpStatus × Option Bytes
  | none => (.ok200, none)
  | some .noEnt | some .notDir => (.notFound404, none)
  | some .perm | some .acces => (.forbidden403, none)
  | some e => (.internal500, some (cfg.strerror e))

def printErrorPage (cfg : Config) (sysErrno : Option Errno) (path : Bytes)
    (onlyHead showLoginButton : Bool) : Prog RespBuf :=
  let (status, mesg) := errorStatus cfg sysErrno
  printMesgPage (respCmnStatus status) mesg path onlyHead showLoginButton

def authGetAuthResponseHeader : Prog Bytes := do
  let nonce ← perform .nextNonce
  let authHeader ← mbAppendStrL mbNew [ascii "Digest realm=\"", fmRealm, ascii "\", nonce=\"",
    hexadecimal nonce, ascii "\", qop=\"auth\""]
  return authHeader.data

def printUnauthorized (urlPath : Bytes) (onlyHead : Bool) : Prog RespBuf := do
  let resp ← printMesgPage (ascii "401 Unauthorized") none urlPath onlyHead false
  let authHeader ← authGetAuthResponseHeader
  let resp ← respAppendHeader resp (ascii "WWW-Authenticate") authHeader
  respAppendHeader resp (ascii "Content-Type") htmlType

def processFileReq (cfg : Config) (urlPath : Bytes) (sysPath : Path) (onlyHead : Bool) :
    Prog RespBuf := do
  match ← perform (.openRead sysPath) with
  | .ok fd =>
    let resp ← respNew (respCmnStatus .ok200) onlyHead
    let resp ← respAppendHeader resp (ascii "Content-Type")
      (cttypeGetContentTypeByFileExt sysPath)
    if onlyHead then
      perform (.close fd)
      return resp
    else match splitAtLastByte slash urlPath with
      | none => .fault (.nullPointer .lastSlash)
      | some (_, name) =>
        let header ← mbAppendStrL mbNew [ascii "inline; filename=\"", name, ascii "\""]
        let resp ← respAppendHeader resp (ascii "Content-Disposition") header.data
        respEnqFile resp fd
  | .error e => printErrorPage cfg e urlPath onlyHead false

def processFolderReq (fuel : Nat) (cfg : Config) (rhdr : RequestHeader) (filemgr : FileManager) :
    Prog (FileManager × RespBuf) := do
  let queryFile := reqhdrGetPath rhdr
  let isHeadReq := reqhdrGetMethod rhdr == ascii "HEAD"
  let (filemgr, posted) ←
    (if reqhdrGetMethod rhdr = ascii "POST" then filemgrProcessPost fuel cfg filemgr rhdr
    else pure (filemgr, .processed))
  if posted = .requireAuth then
    let resp ← printUnauthorized queryFile isHeadReq
    return (filemgr, resp)
  else if reqhdrIsActionAllowed cfg rhdr .listFolder then
    match ← filemgrPrintFolderContents fuel cfg filemgr rhdr with
    | .ok resp => return (filemgr, resp)
    | .error e =>
      let resp ← printErrorPage cfg e queryFile isHeadReq false
      return (filemgr, resp)
  else
    let resp ← printErrorPage cfg (some .noEnt) queryFile isHeadReq
      (reqhdrIsWorthPuttingLogOnButton cfg rhdr)
    return (filemgr, resp)

structure RequestHandler where
  peerAddr : Option Bytes
  filemgr : Option FileManager
  cgiexe : Option CgiExecutor
  response : Option ResponseSender
  deriving DecidableEq, Repr

/-- Whether a path has a component `..` behind its first byte. -/
def hasDotDot (queryFile : Bytes) : Bool :=
  3 ≤ queryFile.length && (containsText (ascii "/../") queryFile ||
    queryFile.drop (queryFile.length - 3) == ascii "/..")

/-- What a URL path stands for in the file system. -/
structure Target where
  sysPath : Option Path
  isFolder : Bool
  isCGI : Bool
  /-- the folder lists shares and is no directory -/
  isShareList : Bool
  sysErrNo : Option Errno
  cgiUrl : Option Bytes
  cgiSubPath : Option Bytes
  deriving DecidableEq, Repr

def Target.ofError (sysPath : Option Path) (e : Errno) : Target :=
  ⟨sysPath, false, false, false, some e, none, none⟩

/-- The lookup of `doProcessRequest`. -/
def lookupTarget (cfg : Config) (queryFile : Bytes) : Prog Target :=
  match configGetSysPathForUrlPath cfg queryFile with
  | none => do
    match ← configGetSubSharesForPath cfg queryFile with
    | none => return .ofError none .noEnt
    | some _ => return ⟨none, true, false, true, none, none, none⟩
  | some sysPath => do
    match ← perform (.stat sysPath) with
    | .ok st =>
      let isCGI ← (if st.isReg then configIsCGI cfg queryFile else pure false)
      return ⟨sysPath, st.isDir, isCGI, false, none, none, none⟩
    | .error .notDir =>
      match ← configFindCGI cfg queryFile with
      | none => return .ofError sysPath .notDir
      | some found =>
        return ⟨found.cgiExe, false, true, false, none, found.cgiUrl, found.cgiSubPath⟩
    | .error e => return .ofError sysPath e

/-- The index file takes the place of a directory that has one. -/
def chooseIndexFile (fuel : Nat) (cfg : Config) (t : Target) : Prog Target :=
  match t.sysErrNo, t.isFolder, t.isShareList, t.sysPath with
  | none, true, false, some dir => do
    match ← configGetIndexFile fuel cfg dir with
    | .error e => return { t with sysErrNo := some e }
    | .ok none => return t
    | .ok (some indexFile) => return { t with sysPath := some indexFile, isFolder := false }
  | _, _, _, _ => return t

/-- A folder whose URL path does not end with a slash is redirected. -/
def lacksSlash (t : Target) (queryFile : Bytes) : Except Fault Bool :=
  if t.sysErrNo = none ∧ t.isFolder = true then
    match queryFile.getLast? with
    | none => .error (.indexOutOfRange .urlPath)
    | some b => .ok (b != slash)
  else .ok false

/-- The handler of a target, and the response when it is ready. -/
def serveTarget (fuel : Nat) (cfg : Config) (hdlr : RequestHandler) (rhdr : RequestHeader)
    (t : Target) (queryFile : Bytes) (isHeadReq : Bool) :
    Prog (RequestHandler × Option RespBuf) :=
  match t.sysErrNo with
  | some e => do
    let resp ← printErrorPage cfg (some e) queryFile isHeadReq false
    return (hdlr, some resp)
  | none =>
    if t.isFolder then do
      let filemgr ← filemgrNew cfg t.sysPath rhdr
      return ({ hdlr with filemgr := some filemgr }, none)
    else match t.sysPath with
      | none => .fault (.nullPointer .sysPath)
      | some sysPath =>
        if t.isCGI then do
          let cgiexe ← cgiexeNew fuel cfg rhdr sysPath hdlr.peerAddr
            (some (t.cgiUrl.getD queryFile)) t.cgiSubPath
          return ({ hdlr with cgiexe := some cgiexe }, none)
        else do
          let resp ← processFileReq cfg queryFile sysPath isHeadReq
          return (hdlr, some resp)

def doProcessRequest (fuel : Nat) (cfg : Config) (hdlr : RequestHandler) (rhdr : RequestHeader) :
    Prog (RequestHandler × Option RespBuf) := do
  let isHeadReq := reqhdrGetMethod rhdr == ascii "HEAD"
  let queryFile := reqhdrGetPath rhdr
  if reqhdrGetLoginState rhdr = .loginFail then
    perform (.sleep 2)
    let resp ← printUnauthorized queryFile isHeadReq
    return (hdlr, some resp)
  else if ! reqhdrIsActionAllowed cfg rhdr .servePage then
    let resp ← printUnauthorized queryFile isHeadReq
    return (hdlr, some resp)
  else if hasDotDot queryFile then
    let resp ← printMesgPage (respCmnStatus .forbidden403) none queryFile isHeadReq false
    return (hdlr, some resp)
  else
    let t ← lookupTarget cfg queryFile
    if ← lacksSlash t queryFile then
      let resp ← printMovedAddSlash queryFile isHeadReq
      return (hdlr, some resp)
    else
      let t ← chooseIndexFile fuel cfg t
      serveTarget fuel cfg hdlr rhdr t queryFile isHeadReq

def finishIfReady (resp : Option RespBuf) : Prog (Option ResponseSender) :=
  match resp with
  | none => return none
  | some resp => do
    let rsndr ← respFinish resp
    return some rsndr

def reqhdlrNew (fuel : Nat) (cfg : Config) (rhdr : RequestHeader) (peerAddr : Option Bytes) :
    Prog RequestHandler := do
  let meth := reqhdrGetMethod rhdr
  let isHeadReq := meth == ascii "HEAD"
  let handler : RequestHandler := ⟨peerAddr, none, none, none⟩
  if meth ≠ ascii "GET" ∧ meth ≠ ascii "POST" ∧ ! isHeadReq then
    let resp ← respNew (ascii "405 Method Not Allowed") isHeadReq
    let resp ← respAppendHeader resp (ascii "Allow") (ascii "GET, HEAD, POST")
    let response ← finishIfReady (some resp)
    return { handler with response }
  else
    let (handler, resp) ← doProcessRequest fuel cfg handler rhdr
    let response ← finishIfReady resp
    return { handler with response }

/-- `reqhdlr_processData`: the number of bytes taken. -/
def reqhdlrProcessData (fuel : Nat) (hdlr : RequestHandler) (data : Bytes)
    (dpr : DataProcessingResult) : Prog (RequestHandler × DataProcessingResult × Nat) :=
  match hdlr.filemgr, hdlr.cgiexe with
  | some filemgr, _ => do
    let filemgr ← filemgrConsumeBodyBytes fuel filemgr data
    return ({ hdlr with filemgr := some filemgr }, dpr, data.length)
  | none, some cgiexe => do
    let (cgiexe, dpr, processed) ← cgiexeProcessData fuel cgiexe data dpr
    return ({ hdlr with cgiexe := some cgiexe }, dpr, processed)
  | none, none => return (hdlr, dpr, data.length)

/-- The response that is made when the request is completely read. -/
def lateResponse (fuel : Nat) (cfg : Config) (filemgr : Option FileManager)
    (rhdr : RequestHeader) : Prog (Option FileManager × RespBuf) :=
  match filemgr with
  | some filemgr => do
    let (filemgr, resp) ← processFolderReq fuel cfg rhdr filemgr
    return (some filemgr, resp)
  | none => do
    let resp ← printMesgPage (respCmnStatus .internal500)
      (some (ascii "reqhandler: unspecified handler")) (reqhdrGetPath rhdr)
      (reqhdrGetMethod rhdr == ascii "HEAD") false
    return (none, resp)

def reqhdlrRequestReadCompleted (fuel : Nat) (cfg : Config) (hdlr : RequestHandler)
    (rhdr : RequestHeader) : Prog RequestHandler :=
  match hdlr.cgiexe, hdlr.response with
  | some cgiexe, _ => do
    let cgiexe ← cgiexeRequestReadCompleted cgiexe
    return { hdlr with cgiexe := some cgiexe }
  | none, some _ => return hdlr
  | none, none => do
    let (filemgr, resp) ← lateResponse fuel cfg hdlr.filemgr rhdr
    let response ← respFinish resp
    return { hdlr with filemgr, response := some response }

/-- The response of a CGI is made as soon as its header is complete. -/
def awaitCgiResponse (fuel : Nat) (hdlr : RequestHandler) (dpr : DataProcessingResult) :
    Prog (RequestHandler × DataProcessingResult) :=
  match hdlr.response, hdlr.cgiexe with
  | none, some cgiexe => do
    let (cgiexe, dpr, resp) ← cgiexeGetResponse fuel cgiexe dpr
    let response ← finishIfReady resp
    return ({ hdlr with cgiexe := some cgiexe, response }, dpr)
  | _, _ => return (hdlr, dpr)

/-- `reqhdlr_progressResponse`: whether the response is finished. -/
def reqhdlrProgressResponse (fuel : Nat) (hdlr : RequestHandler) (socketFd : Fd)
    (dpr : DataProcessingResult) : Prog (RequestHandler × DataProcessingResult × Bool) := do
  let (hdlr, dpr) ← awaitCgiResponse fuel hdlr dpr
  match hdlr.response with
  | none => return (hdlr, dpr, false)
  | some response =>
    let (response, dpr, isFinished) ← rsndrSend fuel response socketFd dpr
    return ({ hdlr with response := some response }, dpr, isFinished)

/-- The functions that free an object do nothing for a null pointer. -/
def freeIfAny {α : Type} (free : α → Prog Unit) : Option α → Prog Unit
  | some obj => free obj
  | none => return ()

def reqhdlrFree (hdlr : RequestHandler) : Prog Unit := do
  freeIfAny filemgrFree hdlr.filemgr
  freeIfAny cgiexeFree hdlr.cgiexe
  freeIfAny rsndrFree hdlr.response

end FilemanagerHttpd.Server
