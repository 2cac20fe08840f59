import FilemanagerHttpd.Server.DataHeader
import FilemanagerHttpd.Server.System

/-!
# One part of a multipart body

A part with a file name is written to a file while it arrives: to a new file under its
own name when there is none, and under a temporary name otherwise.
-/

namespace FilemanagerHttpd.Server

open Library

structure ContentPart where
  header : DataHeader
  destDir : Option Path
  /-- full path of the file the body is written to -/
  filePathName : Option Path
  name : Option Bytes
  fileName : Option Bytes
  /-- the open file of an unfinished upload -/
  fileDesc : Option Fd
  sysErrNo : Option Errno
  /-- the body of a part without a file name -/
  body : Option MemBuf
  deriving DecidableEq, Repr

def cpartNew (destDir : Option Path) : ContentPart where
  header := datahdrNew
  destDir := destDir
  filePathName := none
  name := none
  fileName := none
  fileDesc := none
  sysErrNo := none
  body := none

/-- One parameter of the Content-Disposition line. -/
def dispositionParam (cpart : ContentPart) (p : Param) : ContentPart :=
  if eqIgnoreCase p.name (ascii "name") then { cpart with name := some p.value }
  else if eqIgnoreCase p.name (ascii "filename") && p.value != [] then
    { cpart with fileName := some p.value }
  else cpart

/-- Name and file name, from the complete header. -/
def readDisposition (cpart : ContentPart) : ContentPart :=
  match datahdrGetHeaderVal cpart.header (ascii "Content-Disposition") with
  | none => cpart
  | some contentDisp =>
    match dchShiftAfterChr contentDisp semicolon with
    | (false, _) => cpart
    | (true, dch) => (dchAllParams dch semicolon).foldl dispositionParam cpart

/-- `destDir` with a slash behind it. -/
def dirWithSlash (dir : Path) : Except Fault MemBuf := do
  mbEnsureEndsWithSlash (← mbNewWithStr dir)

def tempTemplate : Bytes := ascii "fmgrXXXXXX"

/-- The file that takes the body: a new one, or a temporary one when the name is taken. -/
def openUpload (cpart : ContentPart) (destDir fileName : Bytes) : Prog ContentPart := do
  let dir ← dirWithSlash destDir
  let filePathName ← mbAppendStr dir fileName
  match ← perform (.openExcl filePathName.data) with
  | .ok fd => return { cpart with filePathName := some filePathName.data, fileDesc := some fd }
  | .error .exist =>
    let template := mbSetStrEnd filePathName dir.dataLen tempTemplate
    match ← perform (.mkstemp (cstr template.data)) with
    | .ok (path, fd) => return { cpart with filePathName := some path, fileDesc := some fd }
    | .error e =>
      return { cpart with filePathName := some (cstr template.data), sysErrNo := some e }
  | .error e =>
    return { cpart with filePathName := some filePathName.data, sysErrNo := some e }

/-- What follows the end of the header: the file is opened, or the buffer made. -/
def headerComplete (cpart : ContentPart) : Prog ContentPart :=
  let cpart := readDisposition cpart
  match cpart.fileName, cpart.destDir with
  | none, _ => return { cpart with body := some mbNew }
  | some _, none => return cpart
  | some fileName, some destDir => openUpload cpart destDir fileName

/-- One write to the file; a failed one gives the file up. -/
def writeFileRound (data : Bytes) :
    ContentPart × Nat → Prog ((ContentPart × Nat) ⊕ ContentPart)
  | (cpart, offset) =>
    match cpart.fileDesc with
    | none => return .inr cpart
    | some fd =>
      if offset < data.length then do
        match ← perform (.write fd (data.drop offset)) with
        | .wrote wr => return .inl (cpart, offset + wr)
        | .fail e =>
          perform (.close fd)
          match cpart.filePathName with
          | none => .fault (.nullPointer .filePathName)
          | some path =>
            let _ ← perform (.unlink path)
            return .inr { cpart with sysErrNo := some e, fileDesc := none }
      else return .inr cpart

/-- The body bytes go to the file, to the buffer, or nowhere. -/
def storeBody (fuel : Nat) (cpart : ContentPart) (data : Bytes) : Prog ContentPart :=
  match cpart.fileName, cpart.body with
  | some _, _ => Program.iterate .outOfFuel (writeFileRound data) fuel (cpart, 0)
  | none, some body => do
    let body ← mbAppendData body data
    return { cpart with body := some body }
  | none, none => .fault (.nullPointer .body)

def cpartAppendData (fuel : Nat) (cpart : ContentPart) (data : Bytes) : Prog ContentPart :=
  if cpart.fileName = none ∧ cpart.body = none then do
    match ← datahdrAppendData cpart.header data with
    | (header, none) => return { cpart with header }
    | (header, some offset) =>
      let cpart ← headerComplete { cpart with header }
      storeBody fuel cpart (data.drop offset)
  else storeBody fuel cpart data

def cpartNameEquals (cpart : ContentPart) (name : Bytes) : Bool := cpart.name == some name

def cpartGetFileName (cpart : ContentPart) : Option Bytes := cpart.fileName

def cpartGetFilePathName (cpart : ContentPart) : Option Path := cpart.filePathName

/-- The body as a C string; no part and a part without a buffer have none. -/
def cpartGetDataStr (cpart : Option ContentPart) : Option Bytes :=
  (cpart.bind (·.body)).map fun mb => cstr mb.data

/-- The path that `cpart_finishUpload` stores the file under. -/
def targetPath (cpart : ContentPart) (targetName : Option Bytes) : Except Fault Path :=
  match targetName.or cpart.fileName, cpart.destDir with
  | none, _ => .error (.nullPointer .filePathName)
  | some target, destDir =>
    if target.head? = some slash then .ok target
    else match destDir with
      | none => .error (.nullPointer .filePathName)
      | some dir => do
        let mb ← mbAppendStr (← dirWithSlash dir) target
        return mb.data

/-- Move the file from its own path to the target. -/
def moveUpload (path target : Path) (replaceIfExists : Bool) : Prog (Option Errno) := do
  if path = target then return none
  else if replaceIfExists then perform (.rename path (some target))
  else
    match ← perform (.link path target) with
    | none =>
      let _ ← perform (.unlink path)
      return none
    | some e => return some e

/-- `cpart_finishUpload`: the part, whether it is stored, and the error otherwise. -/
def cpartFinishUpload (cpart : ContentPart) (targetName : Option Bytes) (replaceIfExists : Bool) :
    Prog (ContentPart × Bool × Option Errno) :=
  match cpart.fileDesc with
  | none => return (cpart, false, cpart.sysErrNo)
  | some fd => do
    let target ← targetPath cpart targetName
    match cpart.filePathName with
    | none => .fault (.nullPointer .filePathName)
    | some path =>
      match ← moveUpload path target replaceIfExists with
      | none =>
        perform (.close fd)
        return ({ cpart with fileDesc := none }, true, none)
      | some e => return ({ cpart with sysErrNo := some e }, false, some e)

def cpartFree (cpart : ContentPart) : Prog Unit :=
  match cpart.fileDesc with
  | none => return ()
  | some fd => do
    perform (.close fd)
    match cpart.filePathName with
    | none => .fault (.nullPointer .filePathName)
    | some path =>
      let _ ← perform (.unlink path)
      return ()

end FilemanagerHttpd.Server
