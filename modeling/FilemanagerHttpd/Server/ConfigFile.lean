import FilemanagerHttpd.Server.Folder

/-!
# The configuration files, and the loop over the CGI patterns

`Config` has the parsed options. Here they are read from the configuration files: the tables grow
by an entry at a time and get their null entries at the end. And `configIsCGI` says as a list which
strings are compared; the loop of `config_isCGI` itself has a cursor and an early exit.
-/

namespace FilemanagerHttpd.Server

open Library

section Reading

/-- The buffers that `fgets` fills one after the other; it has read `buf` of the current one. -/
def fgetsAll (size : Nat) (buf : Bytes) : Bytes → List Bytes
  | [] => if buf = [] then [] else [buf]
  | b :: rest =>
    if b = lf ∨ (buf ++ [b]).length = size - 1 then (buf ++ [b]) :: fgetsAll size [] rest
    else fgetsAll size (buf ++ [b]) rest

/-- `dch_toUInt` with base 0, which `strtoul` takes from the front of the number. -/
def dchToUInt (dch : DataChunk) : Option Nat :=
  let (_, number) := stripSign (dch.dropWhile isSpace)
  let base := if stripHexPrefix number ≠ number then 16
    else if number.head? = some 48 then 8 else 10
  if number.head?.any (isDigit base) then some (strtoul base dch % uintSize) else none

/-- The variables that `parseFile` fills. -/
structure ConfigState where
  listenPort : Nat
  switchUser : Bytes
  indexPatterns : List Bytes
  cgiPatterns : List Bytes
  shares : List Share
  availOps : DirectoryOps
  guestOps : DirectoryOps
  credentials : List Bytes
  maxClients : Nat
  deriving DecidableEq, Repr

def configInit : ConfigState where
  listenPort := 0
  switchUser := ascii "www-data"
  indexPatterns := []
  cgiPatterns := []
  shares := []
  availOps := .all
  guestOps := .all
  credentials := []
  maxClients := 10

/-- A table reallocated for an entry more; the number of entries has a type with this bound. -/
def appendEntry {α : Type} (bound : Nat) (table : List α) (entry : α) : Except Fault (List α) :=
  if table.length + 1 < bound then .ok (table ++ [entry]) else .error .heapOverflow

def intBound : Nat := 2 ^ 31

/-- The loop over the words of an `index` or `cgi` option. -/
def appendPatterns : Nat → DataChunk → List Bytes → Except Fault (List Bytes)
  | 0, _, _ => .error .outOfFuel
  | n + 1, dchValue, patterns =>
    match dchExtractTillWS dchValue with
    | none => .ok patterns
    | some (dchPatt, dchValue) => do
      appendPatterns n dchValue (← appendEntry uintSize patterns dchPatt)

/-- Without a word the patterns collected so far are dropped. -/
def parsePatterns (dchValue : DataChunk) (patterns : List Bytes) : Except Fault (List Bytes) := do
  let all ← appendPatterns (dchValue.length + 1) dchValue patterns
  return if all.length = patterns.length then [] else all

def dirOpsOf (dchValue : DataChunk) : DirectoryOps :=
  if dchValue = ascii "all" then .all
  else if dchValue = ascii "listing" then .listing
  else .none

def guestOpsOf (dchValue : DataChunk) : DirectoryOps :=
  if dchValue = ascii "all" then .all
  else if dchValue = ascii "listing" then .listing
  else if dchValue = ascii "file" then .file
  else .none

/-- One option with its value; the texts of the warnings are left out. -/
def parseOption (st : ConfigState) (dchName dchValue : DataChunk) : Except Fault ConfigState :=
  if dchName.head? = some slash then do
    let share : Share := ⟨dchTrimTrailing dchName slash, dchTrimTrailing dchValue slash⟩
    return { st with shares := ← appendEntry intBound st.shares share }
  else if dchName = ascii "index" then do
    return { st with indexPatterns := ← parsePatterns dchValue st.indexPatterns }
  else if dchName = ascii "cgi" then do
    return { st with cgiPatterns := ← parsePatterns dchValue st.cgiPatterns }
  else if dchName = ascii "port" then
    return { st with listenPort := (dchToUInt dchValue).getD st.listenPort }
  else if dchName = ascii "user" then return { st with switchUser := dchValue }
  else if dchName = ascii "dirops" then return { st with availOps := dirOpsOf dchValue }
  else if dchName = ascii "guestops" then return { st with guestOps := guestOpsOf dchValue }
  else if dchName = ascii "credentials" then do
    return { st with credentials := ← appendEntry intBound st.credentials dchValue }
  else if dchName = ascii "maxclients" then
    return { st with maxClients := (dchToUInt dchValue).getD st.maxClients }
  else return st

/-- What the loop of `parseFile` does with a buffer. -/
def parseLine (st : ConfigState) (buf : Bytes) : Except Fault ConfigState :=
  let dchValue := dchTrimWS (cstr buf)
  if dchValue = [] ∨ dchValue.head? = some hash then .ok st
  else match dchExtractTillChrStripWS dchValue equalsSign with
    | (true, dchName, dchValue) => parseOption st dchName dchValue
    | (false, _, _) => .ok st

/-- A round of the loop, with the number of the line. -/
def parseRound (cur : Nat × ConfigState) (buf : Bytes) : Except Fault (Nat × ConfigState) :=
  if cur.1 + 1 < intBound then do return (cur.1 + 1, ← parseLine cur.2 buf)
  else .error .heapOverflow

/-- `parseFile`; no content is a file that cannot be opened. -/
def parseFile (st : ConfigState) : Option Bytes → Except Fault ConfigState
  | none => .ok st
  | some content => do
    let cur ← (fgetsAll 1024 [] content).foldlM parseRound (0, st)
    return cur.2

/-- What `cmdline_getConfigLoc` names: a folder, with its entries as `folder_loadDir` sorts them
and the contents of the files, or something else. -/
inductive ConfigLoc
  | folder (entries : List (FolderEntry × Option Bytes))
  | file (content : Option Bytes)

/-- `len >= 5 && !strcmp(fileName + len - 5, ".conf")`. -/
def isConfName (fileName : Bytes) : Bool :=
  5 ≤ fileName.length && fileName.drop (fileName.length - 5) == ascii ".conf"

/-- The files that `config_parse` reads, in their order. -/
def configFiles : ConfigLoc → List (Option Bytes)
  | .folder entries =>
    (entries.filter fun e => ! e.1.isDir && isConfName e.1.fileName).map Prod.snd
  | .file content => [content]

/-- The variables after `config_parse`: `none` in a table is the entry that ends it. -/
structure ConfigTables where
  listenPort : Nat
  switchUser : Bytes
  indexPatterns : List Bytes
  cgiPatterns : List Bytes
  shares : List (Option Share)
  availOps : DirectoryOps
  guestOps : DirectoryOps
  credentials : Option (List (Option Bytes))
  maxClients : Nat
  deriving DecidableEq, Repr

/-- A table with the null entry behind it. -/
def endTable {α : Type} (table : List α) : Except Fault (List (Option α)) :=
  appendEntry intBound (table.map some) none

/-- The end of `config_parse`; `htmlDir` is the macro `HTMLDIR`. -/
def configTables (htmlDir : Bytes) (isRoot : Bool) (st : ConfigState) :
    Except Fault ConfigTables := do
  let shares ← (if st.shares.length = 0 then
      appendEntry intBound st.shares ⟨[], htmlDir ++ ascii "/welcome.html"⟩
    else return st.shares)
  let shares ← endTable shares
  let credentials ← (if 0 < st.credentials.length then
      return some (← endTable st.credentials)
    else return none)
  return {
    listenPort := if st.listenPort = 0 then (if isRoot then 80 else 8000) else st.listenPort
    switchUser := st.switchUser
    indexPatterns := st.indexPatterns
    cgiPatterns := st.cgiPatterns
    shares := shares
    availOps := st.availOps
    guestOps := st.guestOps
    credentials := credentials
    maxClients := st.maxClients }

def configParse (htmlDir : Bytes) (isRoot : Bool) (configLoc : ConfigLoc) :
    Except Fault ConfigTables := do
  configTables htmlDir isRoot (← (configFiles configLoc).foldlM parseFile configInit)

example : (parseFile configInit (some (ascii "cgi = a b\n# cgi=x\ncgi=\n cgi = *.pl \n/=/srv/"))).map
      (fun st => (st.cgiPatterns, st.shares)) =
    .ok ([ascii "*.pl"], [⟨[], ascii "/srv"⟩]) := by decide +kernel
example : dchToUInt (ascii "0x1F4") = some 500 ∧ dchToUInt (ascii "0750 ") = some 488 ∧
    dchToUInt (ascii "-") = none := by decide

end Reading

section Patterns

/-- `strchr(s, '/')`; `none` is the null pointer. -/
def strchrSlash (s : Bytes) : Option Bytes :=
  match s.dropWhile (· != slash) with
  | [] => none
  | b :: rest => some (b :: rest)

/-- A call of `fnmatch`: the pattern and the string. -/
abbrev FnmatchCall := Bytes × Bytes

/-- `match` in `config_isCGI`, and the calls of `fnmatch` that were made. -/
structure CgiScan where
  isMatch : Bool
  calls : List FnmatchCall
  deriving DecidableEq, Repr

def CgiScan.fnmatch (cfg : Config) (scan : CgiScan) (cgiPatt path : Bytes) : CgiScan where
  isMatch := cfg.fnmatch .pathnamePeriod cgiPatt path
  calls := scan.calls ++ [(cgiPatt, path)]

theorem strchrSlash_length {s r : Bytes} (h : strchrSlash s = some r) : r.length ≤ s.length := by
  unfold strchrSlash at h
  split at h
  · cases h
  · rename_i b rest hdrop
    have hle := (List.dropWhile_suffix (l := s) (· != slash)).length_le
    rw [hdrop] at hle
    obtain rfl := Option.some.inj h
    exact hle

/-- The inner loop. The cursor `subPath` steps over the byte it is on, and `strchr` moves it to
the next slash. -/
def cgiSubPathLoop (cfg : Config) (cgiPatt : Bytes) (subPath : Option Bytes) (scan : CgiScan) :
    Except Fault CgiScan :=
  match subPath with
  | none => .ok scan
  | some s =>
    if scan.isMatch then .ok scan
    else match s with
      | [] => .error (.indexOutOfRange .urlPath)
      | _ :: sub => cgiSubPathLoop cfg cgiPatt (strchrSlash sub) (scan.fnmatch cfg cgiPatt sub)
termination_by subPath.elim 0 fun s => s.length + 1
decreasing_by
  cases hchr : strchrSlash sub with
  | none => simp
  | some r =>
    have hle := strchrSlash_length hchr
    simp only [Option.elim, List.length_cons]
    omega

/-- The outer loop of `config_isCGI`. -/
def cgiPatternLoop (cfg : Config) (urlPath : Bytes) : List Bytes → CgiScan → Except Fault CgiScan
  | [], scan => .ok scan
  | cgiPatt :: rest, scan =>
    if scan.isMatch then .ok scan
    else if cgiPatt.head? = some slash then
      cgiPatternLoop cfg urlPath rest (scan.fnmatch cfg cgiPatt urlPath)
    else do
      let scan ← cgiSubPathLoop cfg cgiPatt (some urlPath) scan
      cgiPatternLoop cfg urlPath rest scan

/-- `config_isCGI` with its loops. -/
def configScanCGI (cfg : Config) (urlPath : Bytes) : Except Fault CgiScan :=
  cgiPatternLoop cfg urlPath cfg.cgiPatterns ⟨false, []⟩

end Patterns

end FilemanagerHttpd.Server
