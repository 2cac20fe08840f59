import FilemanagerHttpd.Server.System

/-!
# Directories, index files and CGI programs in the file system
-/

namespace FilemanagerHttpd.Server

open Library

structure FolderEntry where
  fileName : Bytes
  isDir : Bool
  mode : Nat
  size : Nat
  deriving DecidableEq, Repr

/-- The entries of a folder, in their order. -/
abbrev Folder := List FolderEntry

/-- `S_IRWXU | S_IRWXG | S_IRWXO`. -/
def permissionBits : Nat := 0o777

def folderAddEntry (folder : Folder) (name : Bytes) (isDir : Bool) (mode size : Nat) : Folder :=
  folder ++ [⟨name, isDir, mode &&& permissionBits, size⟩]

/-- Directories come first, then the locale's order of the names. -/
def folderEntLe (cfg : Config) (ent1 ent2 : FolderEntry) : Bool :=
  if ent1.isDir ≠ ent2.isDir then ent1.isDir else cfg.strcoll ent1.fileName ent2.fileName

def folderSortEntries (cfg : Config) (folder : Folder) : Folder :=
  folder.mergeSort (folderEntLe cfg)

/-- A slot of the array of entries. A null file name ends the entries. -/
inductive FolderSlot
  | unset
  | terminator
  | entry (fe : FolderEntry)
  deriving DecidableEq, Repr

/-- `struct Folder`: the array that holds the entries. -/
structure FolderArray where
  entries : List FolderSlot
  entryCount : Nat
  entryAlloc : Nat
  deriving DecidableEq, Repr

def folderNew : FolderArray := ⟨[.terminator], 0, 0⟩

/-- The reallocation of `folder_addEntryChunk`. -/
def folderGrow (folder : FolderArray) : FolderArray :=
  if folder.entryCount = folder.entryAlloc then
    let entryAlloc := (if folder.entryAlloc ≠ 0 then 2 * folder.entryAlloc else 6) + 1
    let fresh := List.replicate (entryAlloc + 1 - folder.entries.length) .unset
    ⟨folder.entries ++ fresh, folder.entryCount, entryAlloc⟩
  else folder

/-- `folder_addEntryChunk`, which fails here when it writes behind the array. -/
def folderAddEntryChunk (folder : FolderArray) (name : Bytes) (isDir : Bool) (mode size : Nat) :
    Option FolderArray :=
  let folder := folderGrow folder
  if folder.entryCount + 1 < folder.entries.length then
    let fe : FolderEntry := ⟨name, isDir, mode &&& permissionBits, size⟩
    let entries := folder.entries.set folder.entryCount (.entry fe)
    some ⟨entries.set (folder.entryCount + 1) .terminator, folder.entryCount + 1,
      folder.entryAlloc⟩
  else none

def FolderSlot.entry? : FolderSlot → Option FolderEntry
  | .entry fe => some fe
  | _ => none

/-- `folder_sortEntries`, on the slots that hold entries. -/
def folderSortArray (cfg : Config) (folder : FolderArray) : FolderArray :=
  let held := (folder.entries.take folder.entryCount).filterMap FolderSlot.entry?
  { folder with
    entries := (folderSortEntries cfg held).map .entry ++ folder.entries.drop folder.entryCount }

/-- The entries that a reader of `folder_getEntries` meets before the null file name. -/
def folderGetEntries : List FolderSlot → Option Folder
  | .entry fe :: slots => (folderGetEntries slots).map (fe :: ·)
  | .terminator :: _ => some []
  | _ => none

def isDotName (name : Bytes) : Bool := name == [dot] || name == [dot, dot]

/-- One entry that `readdir` yields. -/
def loadDirRound (dirName : MemBuf) (dir : Fd) (folder : Folder) : Prog (Folder ⊕ Folder) := do
  match ← perform (.readdir dir) with
  | none => return .inr folder
  | some name =>
    if isDotName name then return .inl folder
    else
      let filePathName := mbSetStrEnd dirName dirName.dataLen name
      match ← perform (.stat (cstr filePathName.data)) with
      | .ok st => return .inl (folderAddEntry folder name st.isDir st.mode st.size)
      | .error _ => return .inl folder

def folderLoadDir (fuel : Nat) (cfg : Config) (dir : Path) : Prog (Except Errno Folder) := do
  match ← perform (.opendir dir) with
  | .error e => return .error e
  | .ok d =>
    let filePathName ← mbNewWithStr dir
    let filePathName ← mbEnsureEndsWithSlash filePathName
    let folder ← Program.iterate .outOfFuel (loadDirRound filePathName d) fuel []
    perform (.closedir d)
    return .ok (folderSortEntries cfg folder)

/-- One share of the loop of `config_getSubSharesForPath`; no folder is none yet. -/
def subShare (path : Bytes) (folder : Option Folder) (s : Share) : Prog (Option Folder) :=
  if ! path.isPrefixOf s.urlpath || (s.urlpath.drop path.length).head? != some slash then
    return folder
  else
    let dchPath := dchSkipLeading (s.urlpath.drop (path.length + 1)) slash
    if dchPath = [] then return folder
    else
      let (_, ent, dchPath) := dchExtractTillChr dchPath slash
      let folder := folder.getD []
      if folder.any fun fe => fe.fileName == ent then return some folder
      else if dchPath ≠ [] then return some (folderAddEntry folder ent true permissionBits 0)
      else do
        match ← perform (.stat s.syspath) with
        | .error _ => return some (folderAddEntry folder ent true permissionBits 0)
        | .ok st => return some (folderAddEntry folder ent st.isDir st.mode st.size)

/-- The length of the path is kept in an `int`, so a path of 2^31 bytes has a negative one: no
slash is trimmed, and the share table has no such path. -/
def configGetSubSharesForPath (cfg : Config) (urlPath : Bytes) : Prog (Option Folder) :=
  if 2 ^ 31 ≤ urlPath.length then return none
  else do
    let path := dchTrimTrailing urlPath slash
    let folder ← cfg.shares.foldlM (subShare path) none
    return folder.map (folderSortEntries cfg)

/-- The first of the patterns that matches a name, and its index. -/
def firstMatch (cfg : Config) (patterns : List Bytes) (name : Bytes) : Option Nat :=
  patterns.findIdx? fun patt => cfg.fnmatch .period patt name

/-- One entry of the loop of `config_getIndexFile`: the best index so far, and its file. -/
def indexFileRound (cfg : Config) (dirName : MemBuf) (dir : Fd) :
    Nat × Option Path → Prog ((Nat × Option Path) ⊕ Option Path)
  | (bestMatchIdx, bestIdxFile) =>
    if bestMatchIdx = 0 then return .inr bestIdxFile
    else do
      match ← perform (.readdir dir) with
      | none => return .inr bestIdxFile
      | some name =>
        if isDotName name then return .inl (bestMatchIdx, bestIdxFile)
        else match firstMatch cfg (cfg.indexPatterns.take bestMatchIdx) name with
          | none => return .inl (bestMatchIdx, bestIdxFile)
          | some matchIdx =>
            let filePathName := mbSetStrEnd dirName dirName.dataLen name
            match ← perform (.stat (cstr filePathName.data)) with
            | .error _ => return .inl (bestMatchIdx, bestIdxFile)
            | .ok st =>
              if st.isDir then return .inl (bestMatchIdx, bestIdxFile)
              else return .inl (matchIdx, some (cstr filePathName.data))

/-- `config_getIndexFile`: no file, one, or the error of `opendir`. -/
def configGetIndexFile (fuel : Nat) (cfg : Config) (dir : Path) :
    Prog (Except Errno (Option Path)) := do
  match ← perform (.opendir dir) with
  | .error e => return .error e
  | .ok d =>
    let filePathName ← mbNewWithStr dir
    let filePathName ← mbEnsureEndsWithSlash filePathName
    let best ← Program.iterate .outOfFuel (indexFileRound cfg filePathName d) fuel
      (cfg.indexPatterns.length, none)
    perform (.closedir d)
    return .ok best

/-- The cuts of a path before each of its slashes, the last slash first. -/
def slashCuts (path : Bytes) : List (Bytes × Bytes) :=
  (((List.range path.length).filter fun i => path[i]? = some slash).map
    fun i => (path.take i, path.drop i)).reverse

/-- Whether a path is a regular file. -/
def isRegularFile (path : Path) : Prog Bool := do
  match ← perform (.stat path) with
  | .ok st => return st.isReg
  | .error _ => return false

/-- What `config_findCGI` finds: the executable, its URL path and the rest of the URL path. -/
structure FoundCgi where
  cgiExe : Path
  cgiUrl : Bytes
  cgiSubPath : Bytes
  deriving DecidableEq, Repr

/-- The search for a prefix that is a CGI. -/
def findCgiPrefix (cfg : Config) : List (Bytes × Bytes) → Prog (Option FoundCgi)
  | [] => return none
  | (cgiUrl, cgiSubPath) :: cuts => do
    let matched ← configIsCGI cfg (if cgiUrl = [] then [slash] else cgiUrl)
    if ! matched then findCgiPrefix cfg cuts
    else match configGetSysPathForUrlPath cfg cgiUrl with
      | none => findCgiPrefix cfg cuts
      | some cgiExe =>
        if ← isRegularFile cgiExe then return some ⟨cgiExe, cgiUrl, cgiSubPath⟩
        else findCgiPrefix cfg cuts

/-- `config_findCGI`. When the whole path is a CGI there is no rest of it, and the
function returns false. -/
def configFindCGI (cfg : Config) (urlPath : Bytes) : Prog (Option FoundCgi) := do
  let matched ← configIsCGI cfg urlPath
  let wholePath ← (match matched, configGetSysPathForUrlPath cfg urlPath with
    | true, some cgiExe => isRegularFile cgiExe
    | _, _ => pure false)
  if wholePath then return none
  else findCgiPrefix cfg (slashCuts urlPath)

/-! `config_findCGI` again, with the buffers it fills and the copy of the path that it cuts at
one slash after the other. -/

/-- The last slash before a position. -/
def slashBefore (s : Bytes) : Nat → Option Nat
  | 0 => none
  | pos + 1 => if s[pos]? = some slash then some pos else slashBefore s pos

/-- The executable of a prefix that is a CGI. -/
def cgiExeOf (cfg : Config) (cgiUrl : Bytes) : Prog (Option Path) := do
  let matched ← configIsCGI cfg (if cgiUrl = [] then [slash] else cgiUrl)
  if ! matched then return none
  else match configGetSysPathForUrlPath cfg cgiUrl with
    | none => return none
    | some cgiExe =>
      if ← isRegularFile cgiExe then return some cgiExe else return none

/-- One round of the loop: the path is cut at the slash and put together again. -/
def cgiRound (cfg : Config) :
    Bytes × Option Nat → Prog ((Bytes × Option Nat) ⊕ (Bytes × Option (Path × Nat)))
  | (cgiUrl, none) => return .inr (cgiUrl, none)
  | (cgiUrl, some slashPos) => do
    let cgiUrl := cgiUrl.set slashPos nul
    let found ← cgiExeOf cfg (cstr cgiUrl)
    let cgiUrl := cgiUrl.set slashPos slash
    match found with
    | none => return .inl (cgiUrl, slashBefore cgiUrl slashPos)
    | some cgiExe => return .inr (cgiUrl, some (cgiExe, slashPos))

/-- What is written to the three buffers; a null pointer when there is no rest of the path. -/
structure CgiBuffers where
  cgiExe : Path
  cgiUrl : Bytes
  cgiSubPath : Option Bytes
  deriving DecidableEq, Repr

/-- `config_findCGI`: what it returns, and what it writes to its buffers. -/
def configFindCGIBuffers (cfg : Config) (urlPath : Bytes) : Prog (Bool × Option CgiBuffers) := do
  let matched ← configIsCGI cfg urlPath
  let wholePath ← (match matched, configGetSysPathForUrlPath cfg urlPath with
    | true, some cgiExe => do return (← isRegularFile cgiExe, cgiExe)
    | _, _ => pure (false, []))
  if wholePath.1 then return (false, some ⟨wholePath.2, urlPath, none⟩)
  else
    let (cgiUrl, hit) ← Program.iterate .outOfFuel (cgiRound cfg) (urlPath.length + 1)
      (urlPath, slashBefore urlPath urlPath.length)
    match hit with
    | none => return (false, none)
    | some (cgiExe, slashPos) =>
      return (true, some ⟨cgiExe, cstr (cgiUrl.set slashPos nul), some (cgiUrl.drop slashPos)⟩)

end FilemanagerHttpd.Server
