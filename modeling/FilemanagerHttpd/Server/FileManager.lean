import FilemanagerHttpd.Server.MultipartData
import FilemanagerHttpd.Server.FolderPage

/-!
# The file manager: the operations of the folder form
-/

namespace FilemanagerHttpd.Server

open Library

structure FileManager where
  sysPath : Option Path
  body : Option MultipartData
  opErrorMsg : Option Bytes
  deriving DecidableEq, Repr

/-- `format_path`: one slash between the two, and one that leads `subdir` is dropped. -/
def formatPath (rootdir : Option Path) (subdir : Bytes) : Except Fault Path :=
  match rootdir with
  | none => .error (.nullPointer .sysPath)
  | some rootdir =>
    match rootdir.getLast? with
    | none => .error (.indexOutOfRange .rootDir)
    | some last =>
      let root := if last = slash then rootdir else rootdir ++ [slash]
      .ok (root ++ if subdir.head? = some slash then subdir.drop 1 else subdir)

/-- `fmtError`. -/
def fmtError (cfg : Config) (sysErrno : Option Errno) (strs : List Bytes) : Except Fault Bytes := do
  let mb ← mbAppendStrL mbNew strs
  match sysErrno with
  | none => return mb.data
  | some e => do
    let mb ← mbAppendStrL mb [ascii ": ", cfg.strerror e]
    return mb.data

/-- The error message of an operation, if it has failed. -/
abbrev OpResult := Option Bytes

def opError (cfg : Config) (sysErrno : Option Errno) (strs : List Bytes) : Prog OpResult := do
  return some (← fmtError cfg sysErrno strs)

/-- `opError` when a call has failed. -/
def opErrorIf (cfg : Config) (failure : Option Errno) (strs : List Bytes) : Prog OpResult :=
  match failure with
  | none => return none
  | some e => opError cfg e strs

/-- The part at a place of the form; a null part is followed without a look. -/
def derefPart (mpdata : MultipartData) (idx : Option Nat) : Except Fault (Nat × ContentPart) :=
  match idx with
  | none => .error (.nullPointer .contentPart)
  | some i =>
    match mpdata.parts[i]? with
    | none => .error (.nullPointer .contentPart)
    | some cpart => .ok (i, cpart)

def setPart (mpdata : MultipartData) (i : Nat) (cpart : ContentPart) : MultipartData :=
  { mpdata with parts := mpdata.parts.set i cpart }

def addNewFile (cfg : Config) (mpdata : MultipartData) (partFile : Option Nat) :
    Prog (MultipartData × OpResult) := do
  let (i, cpart) ← derefPart mpdata partFile
  match cpartGetFileName cpart with
  | none =>
    let err ← opError cfg none [ascii "unable to add: no file chosen"]
    return (mpdata, err)
  | some fname =>
    match ← cpartFinishUpload cpart none false with
    | (cpart, true, _) => return (setPart mpdata i cpart, none)
    | (cpart, false, sysErrNo) =>
      let err ← opError cfg sysErrNo [ascii "unable to store ", fname]
      return (setPart mpdata i cpart, err)

def renameFile (cfg : Config) (sysPath : Option Path) (oldName newDir newName : Option Bytes) :
    Prog OpResult :=
  match oldName, newDir, newName with
  | some oldName, some newDir, some newName =>
    if oldName = [] ∨ newDir.head? ≠ some slash ∨ newName = [] then
      opError cfg none [ascii "rename: bad parameters"]
    else if slash ∈ newName then opError cfg none [ascii "rename: slash in name disallowed"]
    else do
      let oldpath ← formatPath sysPath oldName
      let newUrlPath ← formatPath newDir newName
      let failure ← perform (.rename oldpath (configGetSysPathForUrlPath cfg newUrlPath))
      opErrorIf cfg failure [oldName, ascii " rename failed"]
  | _, _, _ => opError cfg none [ascii "rename: bad parameters"]

def createNewdir (cfg : Config) (sysPath : Option Path) (newDir : Option Bytes) : Prog OpResult :=
  match newDir with
  | none | some [] => opError cfg none [ascii "create dir: bad parameters"]
  | some newDir =>
    if slash ∈ newDir then opError cfg none [ascii "create dir: slash in name disallowed"]
    else do
      let path ← formatPath sysPath newDir
      let failure ← perform (.mkdir path)
      opErrorIf cfg failure [ascii "unable to create directory \"", newDir, ascii "\""]

/-- One entry of a directory that is being removed; the loop ends at the first failure. -/
def delRound (del : Path → Prog (Except Errno Unit)) (dirName : MemBuf) (dir : Fd) (_ : Unit) :
    Prog (Unit ⊕ Except Errno Unit) := do
  match ← perform (.readdir dir) with
  | none => return .inr (.ok ())
  | some name =>
    if isDotName name then return .inl ()
    else
      let filePathName := mbSetStrEnd dirName dirName.dataLen name
      match ← del (cstr filePathName.data) with
      | .ok () => return .inl ()
      | .error e => return .inr (.error e)

/-- `del_recursive`; the first argument bounds the depth and the number of entries. -/
def delRecursive : Nat → Path → Prog (Except Errno Unit)
  | 0, _ => .fault .outOfFuel
  | n + 1, path => do
    match ← perform (.unlink path) with
    | none => return .ok ()
    | some .isDir =>
      match ← perform (.opendir path) with
      | .error e => return .error e
      | .ok d =>
        let filePathName ← dirWithSlash path
        let res ← Program.iterate .outOfFuel (delRound (delRecursive n) filePathName d) n ()
        perform (.closedir d)
        match res with
        | .error e => return .error e
        | .ok () =>
          match ← perform (.rmdir path) with
          | none => return .ok ()
          | some e => return .error e
    | some .noEnt => return .ok ()
    | some e => return .error e

/-- `unlink`, or `rmdir` for a directory. -/
def deleteOne (path : Path) : Prog (Option Errno) := do
  match ← perform (.unlink path) with
  | some .isDir => perform (.rmdir path)
  | r => return r

def deleteFile (fuel : Nat) (cfg : Config) (sysPath : Option Path) (fname : Option Bytes)
    (recursively : Bool) : Prog OpResult :=
  match fname with
  | none | some [] => opError cfg none [ascii "delete: bad parameters"]
  | some fname => do
    let path ← formatPath sysPath fname
    if recursively then
      match ← delRecursive fuel path with
      | .ok () => return none
      | .error e => opError cfg (some e) [fname, ascii " delete failed"]
    else
      let failure ← deleteOne path
      opErrorIf cfg failure [fname, ascii " delete failed"]

def replaceFile (cfg : Config) (sysPath : Option Path) (fname : Option Bytes)
    (mpdata : MultipartData) (partFile : Option Nat) : Prog (MultipartData × OpResult) := do
  let (i, cpart) ← derefPart mpdata partFile
  match fname, cpartGetFilePathName cpart with
  | some fname, some _ =>
    let filePath ← formatPath sysPath fname
    match ← cpartFinishUpload cpart (some filePath) true with
    | (cpart, true, _) => return (setPart mpdata i cpart, none)
    | (cpart, false, sysErrNo) =>
      let err ← opError cfg sysErrNo [ascii "unable to store ", fname]
      return (setPart mpdata i cpart, err)
  | _, _ =>
    let err ← opError cfg none [ascii "unable to replace: no file chosen"]
    return (mpdata, err)

/-- The bits that a displayed permission stands for in its group. -/
def permBits (perm : FilePerm) (disp : Bytes) : Option Nat :=
  ((filePermDisp.zip perm.values).find? fun p => p.1 == disp).map (·.2)

/-- The mode that the three fields ask for. -/
def modeOf (perms : List Bytes) : Option Nat :=
  ((filePerm.zip perms).mapM fun p => permBits p.1 p.2).map fun bits => bits.foldl (· ||| ·) 0

def chmodFile (cfg : Config) (sysPath : Option Path) (fname puser pgroup pothers : Option Bytes) :
    Prog OpResult :=
  match fname, puser, pgroup, pothers with
  | some fname, some puser, some pgroup, some pothers =>
    match modeOf [puser, pgroup, pothers] with
    | none => opError cfg none [ascii "invalid parameters"]
    | some mode => do
      let path ← formatPath sysPath fname
      let failure ← perform (.chmod path mode)
      opErrorIf cfg failure [ascii "change permissions of ", fname, ascii " failed"]
  | _, _, _, _ => opError cfg none [ascii "invalid parameters"]

inductive PostingResult
  | processed | requireAuth
  deriving DecidableEq, Repr

/-- The string in the part with a name. -/
def fieldStr (mpdata : MultipartData) (name : String) : Option Bytes :=
  cpartGetDataStr (mpdataGetPartByName mpdata (ascii name))

/-- The operation that the first of the buttons present asks for. -/
def dispatchForm (fuel : Nat) (cfg : Config) (sysPath : Option Path) (mpdata : MultipartData) :
    Prog (MultipartData × OpResult) :=
  let pressed (name : String) : Bool := mpdataContainsPartWithName mpdata (ascii name)
  let file := fieldStr mpdata "file"
  if pressed "do_add" then addNewFile cfg mpdata (mpdataFindPart mpdata (ascii "file"))
  else if pressed "do_rename" then do
    let err ← renameFile cfg sysPath file (fieldStr mpdata "new_dir") (fieldStr mpdata "new_name")
    return (mpdata, err)
  else if pressed "do_newdir" then do
    let err ← createNewdir cfg sysPath (fieldStr mpdata "new_dir")
    return (mpdata, err)
  else if pressed "do_replace" then
    replaceFile cfg sysPath file mpdata (mpdataFindPart mpdata (ascii "new_cont"))
  else if pressed "do_delete" then do
    let err ← deleteFile fuel cfg sysPath file (pressed "del_recursive")
    return (mpdata, err)
  else if pressed "do_perm" then do
    let err ← chmodFile cfg sysPath file (fieldStr mpdata "puser") (fieldStr mpdata "pgroup")
      (fieldStr mpdata "pothers")
    return (mpdata, err)
  else return (mpdata, none)

/-- What the form asks for, if it is allowed: the error message, and whether the user
has to log in. -/
def handleForm (fuel : Nat) (cfg : Config) (sysPath : Option Path) (mpdata : MultipartData)
    (rhdr : RequestHeader) : Prog (MultipartData × OpResult × Bool) :=
  if mpdataContainsPartWithName mpdata (ascii "do_login") then
    return (mpdata, none, reqhdrGetLoginState rhdr != .loggedIn)
  else if ! configIsActionAvailable cfg .modify then do
    let err ← opError cfg none [ascii "unrecognized request"]
    return (mpdata, err, false)
  else if ! reqhdrIsActionAllowed cfg rhdr .modify then return (mpdata, none, true)
  else do
    let (mpdata, err) ← dispatchForm fuel cfg sysPath mpdata
    return (mpdata, err, false)

def filemgrProcessPost (fuel : Nat) (cfg : Config) (filemgr : FileManager) (rhdr : RequestHeader) :
    Prog (FileManager × PostingResult) :=
  match filemgr.body with
  | none => return (filemgr, .processed)
  | some mpdata => do
    let (mpdata, opErr, requireAuth) ← handleForm fuel cfg filemgr.sysPath mpdata rhdr
    mpdataFree mpdata
    return ({ filemgr with body := none, opErrorMsg := opErr },
      if requireAuth then .requireAuth else .processed)

/-- Whether the page offers the operations on the entries. -/
def folderIsModifiable (cfg : Config) (sysPath : Option Path) (rhdr : RequestHeader) : Prog Bool :=
  match sysPath with
  | none => return false
  | some sysPath =>
    if reqhdrIsActionAllowed cfg rhdr .modify then perform (.access sysPath) else return false

/-- The entries of the directory, or the shares below the path. -/
def loadFolder (fuel : Nat) (cfg : Config) (sysPath : Option Path) (queryFile : Bytes) :
    Prog (Except Errno Folder) :=
  match sysPath with
  | some sysPath => folderLoadDir fuel cfg sysPath
  | none => do
    match ← configGetSubSharesForPath cfg queryFile with
    | some folder => return .ok folder
    | none => return .error .noEnt

/-- `filemgr_printFolderContents`: the page, or the error of the directory. -/
def filemgrPrintFolderContents (fuel : Nat) (cfg : Config) (filemgr : FileManager)
    (rhdr : RequestHeader) : Prog (Except Errno RespBuf) := do
  perform (.note .listing)
  let queryFile := reqhdrGetPath rhdr
  let isHeadReq := reqhdrGetMethod rhdr == ascii "HEAD"
  let isModifiable ← folderIsModifiable cfg filemgr.sysPath rhdr
  match ← loadFolder fuel cfg filemgr.sysPath queryFile with
  | .error e => return .error e
  | .ok folder =>
    let resp ← printFolderContents cfg queryFile folder isModifiable
      (reqhdrIsWorthPuttingLogOnButton cfg rhdr) filemgr.opErrorMsg isHeadReq
    return .ok resp

/-- The boundary of a multipart content type, or what is wrong with the type. -/
def contentBoundary (contentType : Bytes) : Option Bytes × Bool :=
  let (_, name, rest) := dchExtractTillChrStripWS contentType semicolon
  if name = ascii "multipart/form-data" then
    let boundaries := (dchAllParams rest semicolon).filter fun p =>
      eqIgnoreCase p.name (ascii "boundary")
    (boundaries.getLast?.map (·.value), true)
  else (none, false)

def filemgrNew (cfg : Config) (sysPath : Option Path) (rhdr : RequestHeader) :
    Except Fault FileManager :=
  match reqhdrGetHeaderVal rhdr (ascii "Content-Type") with
  | none => .ok ⟨sysPath, none, none⟩
  | some contentType =>
    match contentBoundary contentType with
    | (_, false) => do
      let err ← fmtError cfg none [ascii "bad content type: ", contentType]
      return ⟨sysPath, none, some err⟩
    | (none, true) => .ok ⟨sysPath, none, none⟩
    | (some boundary, true) => do
      let body ← mpdataNew boundary
        (if reqhdrIsActionAllowed cfg rhdr .modify then sysPath else none)
      return ⟨sysPath, some body, none⟩

def filemgrConsumeBodyBytes (fuel : Nat) (filemgr : FileManager) (data : Bytes) :
    Prog FileManager :=
  match filemgr.body with
  | none => return filemgr
  | some mpdata => do
    let mpdata ← mpdataAppendData fuel mpdata data
    return { filemgr with body := some mpdata }

def filemgrFree (filemgr : FileManager) : Prog Unit :=
  match filemgr.body with
  | none => return ()
  | some mpdata => mpdataFree mpdata

end FilemanagerHttpd.Server
