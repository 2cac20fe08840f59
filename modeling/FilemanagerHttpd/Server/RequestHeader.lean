import FilemanagerHttpd.Server.FmConfig

/-!
# The request header

The header is built from whatever pieces the socket delivers. Each line is
collected in a buffer that grows by `strlen` of what it holds, so a zero byte in
the line makes the next piece overwrite what followed it.
-/

namespace FilemanagerHttpd.Server

inductive LoginState
  | loggedOut | loggedIn | loginFail
  deriving DecidableEq, Repr

/-- `struct RequestHeader`. The path is set exactly when the request line is
complete, that is when `headerCount` is no longer -1. -/
structure RequestHeader where
  request : Bytes
  path : Option Bytes
  query : Option Bytes
  version : Bytes
  /-- name and value of each complete header line -/
  headers : List (Bytes × Bytes)
  /-- the line after them -/
  current : Bytes
  loginState : LoginState
  deriving DecidableEq, Repr

def reqhdrNew : RequestHeader where
  request := []
  path := none
  query := none
  version := []
  headers := []
  current := []
  loginState := .loggedOut

def reqhdrGetMethod (req : RequestHeader) : Bytes := req.request

/-- A null path stands for the empty one: the getter is called on complete request lines. -/
def reqhdrGetPath (req : RequestHeader) : Bytes := req.path.getD []

def reqhdrGetQuery (req : RequestHeader) : Option Bytes := req.query

def reqhdrGetVersion (req : RequestHeader) : Bytes := req.version

def blanks : Bytes := [space, tab]

def reqhdrGetHeaderAt (req : RequestHeader) (idx : Nat) : Option (Bytes × Bytes) :=
  req.headers[idx]?.map fun h => (h.1, skipSpan blanks h.2)

def reqhdrGetHeaderVal (req : RequestHeader) (headerName : Bytes) : Option Bytes :=
  (req.headers.find? fun h => eqIgnoreCase h.1 headerName).map fun h => skipSpan blanks h.2

/-- `! strncasecmp(s, t, strlen(t))`. -/
def startsWithIgnoreCase (t s : Bytes) : Bool := eqIgnoreCase (s.take t.length) t

/-- The loop of `reqhdr_isChunkedTransferEncoding`: `val` is at a list element or its comma. -/
def chunkedInList : Nat → Bytes → Bool
  | 0, _ => false
  | n + 1, val =>
    let val := skipSpan (comma :: blanks) val
    startsWithIgnoreCase (ascii "chunked") val ||
      match splitAtByte comma val with
      | none => false
      | some (_, rest) => chunkedInList n (comma :: rest)

def reqhdrIsChunkedTransferEncoding (req : RequestHeader) : Bool :=
  match reqhdrGetHeaderVal req (ascii "Transfer-Encoding") with
  | none => false
  | some val => chunkedInList (val.length + 1) val

def reqhdrGetLoginState (req : RequestHeader) : LoginState := req.loginState

def reqhdrIsWorthPuttingLogOnButton (cfg : Config) (req : RequestHeader) : Bool :=
  req.loginState == .loggedOut && configGivesLoginMorePrivileges cfg

def reqhdrIsActionAllowed (cfg : Config) (req : RequestHeader) (pa : PrivilegedAction) : Bool :=
  configIsActionAllowed cfg pa (req.loginState == .loggedIn)

/-- The two characters after a percent sign, as `strtoul` reads them. -/
def percentByte (num : Bytes) : Byte := (strtoul 16 num).toUInt8

/-- The decoding loop of `decodeRequestStartLine`: the decoded bytes, and the text from
the terminator on. A percent sign takes the next two characters whatever they are. -/
def decodePath : Bytes → Bytes × Bytes
  | [] => ([], [])
  | b :: rest =>
    if b = space ∨ b = question then ([], b :: rest)
    else if b = percent then
      match rest with
      | [] => ([percentByte []], [])
      | [c] => ([percentByte [c]], [])
      | c :: d :: rest =>
        let r := decodePath rest
        (percentByte [c, d] :: r.1, r.2)
    else
      let r := decodePath rest
      (b :: r.1, r.2)

/-- The version is set only when the text from the terminator on is `" HTTP/"` and more. -/
def versionOf (s : Bytes) (version : Bytes) : Bytes :=
  if (ascii " HTTP/").isPrefixOf s then s.drop 6 else version

def decodeRequestStartLine (req : RequestHeader) : RequestHeader :=
  match splitAtByte space (cstr req.request) with
  | none => { req with request := cstr req.request, path := some [slash] }
  | some (method, src) =>
    match decodePath src with
    | (path, 63 :: query) =>
      { req with
        request := method
        path := some (cstr path)
        query := some (query.takeWhile (· != space))
        version := versionOf (query.dropWhile (· != space)) req.version }
    | (path, rest) =>
      { req with
        request := method
        path := some (cstr path)
        version := versionOf rest req.version }

/-- `checkAuthorization` on the header line just completed. -/
def checkAuthorization (cfg : Config) (req : RequestHeader) (name value : Bytes) :
    Except Fault RequestHeader :=
  if req.loginState = .loggedOut ∧ eqIgnoreCase name (ascii "Authorization") = true then do
    let authorized ← authIsClientAuthorized cfg value (reqhdrGetMethod req)
    return { req with loginState := if authorized then .loggedIn else .loginFail }
  else .ok req

/-- `realloc` and `memcpy` of a piece to the end of a line buffer. The new size is an
`unsigned`: it wraps when the line has 2^32 - 1 bytes. -/
def extendLine (line piece : Bytes) : Except Fault Bytes :=
  if (cstr line).length + piece.length + 1 < uintSize then .ok (cstr line ++ piece)
  else .error .heapOverflow

/-- The line without the carriage return that ends it. -/
def stripCr (line : Bytes) : Bytes :=
  if line.getLast? = some cr then line.dropLast else line

/-- The number of lines is an `int`, and the array gets one entry more. -/
def maxHeaderCount : Nat := 2 ^ 31 - 2

/-- A complete header line that is not empty. -/
def reqhdrAddLine (cfg : Config) (req : RequestHeader) (line : Bytes) :
    Except Fault RequestHeader :=
  match splitAtByte colon (cstr line) with
  | none => .ok { req with current := [] }
  | some (name, value) => do
    let req ← checkAuthorization cfg req name value
    if req.headers.length < maxHeaderCount then
      return { req with headers := req.headers ++ [(name, value)], current := [] }
    else throw .heapOverflow

/-- The loop of `reqhdr_appendData`: the header and, when the header has ended, the
bytes behind the empty line. Each round takes a line end away, so the number of
bytes bounds the number of rounds. -/
def reqhdrAppendLoop (cfg : Config) : Nat → RequestHeader → Bytes →
    Except Fault (RequestHeader × Option Bytes)
  | 0, req, _ => .ok (req, none)
  | n + 1, req, bol =>
    if bol = [] then .ok (req, none)
    else match req.path, splitAtByte lf bol with
      | none, none => do
        let line ← extendLine req.request bol
        return ({ req with request := line }, none)
      | none, some (piece, rest) => do
        let line ← extendLine req.request piece
        let req := { req with request := stripCr line }
        -- empty lines before the request line are skipped
        if cstr req.request = [] then reqhdrAppendLoop cfg n req rest
        else reqhdrAppendLoop cfg n (decodeRequestStartLine req) rest
      | some _, none => do
        let line ← extendLine req.current bol
        return ({ req with current := line }, none)
      | some _, some (piece, rest) => do
        let line ← extendLine req.current piece
        if cstr (stripCr line) = [] then
          return ({ req with current := stripCr line }, some rest)
        else
          let req ← reqhdrAddLine cfg req (stripCr line)
          reqhdrAppendLoop cfg n req rest

/-- `reqhdr_appendData`: the offset behind the header, or `none` for -1. -/
def reqhdrAppendData (cfg : Config) (req : RequestHeader) (data : Bytes) :
    Except Fault (RequestHeader × Option Nat) := do
  let (req, rest) ← reqhdrAppendLoop cfg data.length req data
  return (req, rest.map fun r => data.length - r.length)

end FilemanagerHttpd.Server
