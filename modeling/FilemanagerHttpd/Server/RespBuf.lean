import FilemanagerHttpd.Server.ResponseSender

/-!
# The response under construction

The body is null for a HEAD request, and the functions that append to it do not look.
-/

namespace FilemanagerHttpd.Server

open Library

structure RespBuf where
  header : MemBuf
  body : Option MemBuf
  fileDesc : Option Fd
  deriving DecidableEq, Repr

inductive HttpStatus
  | ok200 | forbidden403 | notFound404 | internal500
  deriving DecidableEq, Repr

def respCmnStatus : HttpStatus → Bytes
  | .ok200 => ascii "200 OK"
  | .forbidden403 => ascii "403 Forbidden"
  | .notFound404 => ascii "404 Not Found"
  | .internal500 => ascii "500 Internal Server Error"

def respNew (status : Bytes) (onlyHead : Bool) : Except Fault RespBuf := do
  let header ← mbAppendStrL mbNew [ascii "HTTP/1.1 ", status, crlf]
  return ⟨header, if onlyHead then none else some mbNew, none⟩

def respAppendHeader (resp : RespBuf) (name value : Bytes) : Except Fault RespBuf := do
  let header ← mbAppendStrL resp.header [name, ascii ": ", value, crlf]
  return { resp with header }

def respAppendData (resp : RespBuf) (data : Bytes) : Except Fault RespBuf :=
  match resp.body with
  | none => .error (.nullPointer .body)
  | some body => do
    let body ← mbAppendData body data
    return { resp with body := some body }

def respAppendStr (resp : RespBuf) (str : Bytes) : Except Fault RespBuf :=
  respAppendData resp (cstr str)

/-- The bytes that may not stand for themselves in HTML. -/
def htmlEntity (b : Byte) : Option Bytes :=
  if b = 34 then some (ascii "&quot;")
  else if b = 39 then some (ascii "&apos;")
  else if b = 38 then some (ascii "&amp;")
  else if b = 60 then some (ascii "&lt;")
  else if b = 62 then some (ascii "&gt;")
  else none

/-- Append what has been collected, if anything. -/
def flushRun (resp : RespBuf) (run : Bytes) : Except Fault RespBuf :=
  if run = [] then .ok resp else respAppendData resp run

/-- The loop of `appendDataEscapeHtml`: `run` has the bytes that stand for themselves
since the last replacement. -/
def escapeLoop (resp : RespBuf) (run : Bytes) : Bytes → Except Fault RespBuf
  | [] => flushRun resp run
  | b :: rest =>
    match htmlEntity b with
    | some repl => do
      let resp ← flushRun resp run
      let resp ← respAppendStr resp repl
      escapeLoop resp [] rest
    | none => escapeLoop resp (run ++ [b]) rest

def appendDataEscapeHtml (resp : RespBuf) (data : Bytes) : Except Fault RespBuf :=
  escapeLoop resp [] data

/-- The arguments of `resp_appendFmt`. -/
inductive FmtArg
  | dch (chunk : DataChunk)
  | data (bytes : Bytes)
  | str (s : Bytes)
  deriving DecidableEq, Repr

/-- The loop of `resp_appendFmt`: `run` has the literal bytes since the last directive.
A directive without an argument of its type takes what the stack happens to hold. -/
def fmtLoop (resp : RespBuf) (run : Bytes) : Bytes → List FmtArg → Prog RespBuf
  | 37 :: 67 :: fmt, .dch dch :: args => do  -- %C
    let resp ← flushRun resp run
    let resp ← appendDataEscapeHtml resp dch
    fmtLoop resp [] fmt args
  | 37 :: 68 :: fmt, .data bytes :: args => do  -- %D
    let resp ← flushRun resp run
    let resp ← appendDataEscapeHtml resp bytes
    fmtLoop resp [] fmt args
  | 37 :: 83 :: fmt, .str s :: args => do  -- %S
    let resp ← flushRun resp run
    let resp ← appendDataEscapeHtml resp (cstr s)
    fmtLoop resp [] fmt args
  | 37 :: 82 :: fmt, .str s :: args => do  -- %R
    let resp ← flushRun resp run
    let resp ← respAppendData resp (cstr s)
    fmtLoop resp [] fmt args
  | 37 :: 72 :: fmt, args => do  -- %H
    let resp ← flushRun resp run
    let hostname ← perform .gethostname
    let resp ← appendDataEscapeHtml resp (hostname.getD [])
    fmtLoop resp [] fmt args
  | 37 :: 37 :: fmt, args => do  -- %%
    let resp ← flushRun resp run
    let resp ← respAppendData resp [percent]
    fmtLoop resp [] fmt args
  | 37 :: fmt, args => do
    if fmt.head?.any (· ∈ [67, 68, 82, 83]) then .fault (.indexOutOfRange .formatArgs)
    else
      let resp ← flushRun resp run
      let resp ← respAppendData resp [percent]
      fmtLoop resp [] fmt args
  | b :: fmt, args => fmtLoop resp (run ++ [b]) fmt args
  | [], _ => flushRun resp run

def respAppendFmt (resp : RespBuf) (fmt : Bytes) (args : List FmtArg) : Prog RespBuf :=
  fmtLoop resp [] fmt args

def respEnqFile (resp : RespBuf) (fileDesc : Option Fd) : Prog RespBuf := do
  closeFd resp.fileDesc
  return { resp with fileDesc }

def respFinish (resp : RespBuf) : Prog ResponseSender := do
  let resp ← respAppendHeader resp (ascii "Server") (ascii "filemanager-httpd")
  rsndrNew resp.header resp.body resp.fileDesc

end FilemanagerHttpd.Server
