import FilemanagerHttpd.Server.Folder

/-!
# The array of a folder with its counters

`folderAddEntryChunk` counts in natural numbers. Here the counters, the size of the array and the
length of a name are the `unsigned` values that the source computes.
-/

namespace FilemanagerHttpd.Server

/-- `dch_dupToStr`: the block has a byte more than the name, and its size is an `unsigned`. -/
def dchDupToStr (dch : DataChunk) : Except Fault Bytes :=
  if dch.length + 1 < uintSize then .ok dch else .error .heapOverflow

/-- `realloc` to a number of entries. -/
def reallocEntries (entries : List FolderSlot) (slots : Nat) : List FolderSlot :=
  entries.take slots ++ List.replicate (slots - entries.length) .unset

/-- `2*folder->entryAlloc + 1`, or seven for a new folder. -/
def nextEntryAlloc (entryAlloc : Nat) : Nat :=
  ((if entryAlloc ≠ 0 then 2 * entryAlloc else 6) + 1) % uintSize

def folderGrowUint (folder : FolderArray) : FolderArray :=
  if folder.entryCount = folder.entryAlloc then
    let entryAlloc := nextEntryAlloc folder.entryAlloc
    ⟨reallocEntries folder.entries ((entryAlloc + 1) % uintSize), folder.entryCount, entryAlloc⟩
  else folder

/-- A write to a slot of the array. -/
def setSlot (entries : List FolderSlot) (i : Nat) (slot : FolderSlot) :
    Except Fault (List FolderSlot) :=
  if i < entries.length then .ok (entries.set i slot) else .error .heapOverflow

/-- `folder_addEntryChunk`. -/
def folderAddEntryChunkUint (folder : FolderArray) (name : DataChunk) (isDir : Bool)
    (mode size : Nat) : Except Fault FolderArray := do
  let folder := folderGrowUint folder
  let fileName ← dchDupToStr name
  let fe : FolderEntry := ⟨fileName, isDir, mode &&& permissionBits, size⟩
  let entries ← setSlot folder.entries folder.entryCount (.entry fe)
  let entries ← setSlot entries (folder.entryCount + 1) .terminator
  return ⟨entries, (folder.entryCount + 1) % uintSize, folder.entryAlloc⟩

/-- `folder_addEntry`. -/
def folderAddEntryUint (folder : FolderArray) (name : Bytes) (isDir : Bool) (mode size : Nat) :
    Except Fault FolderArray :=
  folderAddEntryChunkUint folder (dchInitWithStr name) isDir mode size

/-- A call that adds an entry to a folder. -/
inductive FolderAdd
  | entry (name : Bytes) (isDir : Bool) (mode size : Nat)
  | chunk (name : DataChunk) (isDir : Bool) (mode size : Nat)
  deriving DecidableEq, Repr

def folderAdd (folder : FolderArray) : FolderAdd → Except Fault FolderArray
  | .entry name isDir mode size => folderAddEntryUint folder name isDir mode size
  | .chunk name isDir mode size => folderAddEntryChunkUint folder name isDir mode size

namespace FolderAdd

/-- The chunk that a call duplicates. -/
def dch : FolderAdd → DataChunk
  | .entry name .. => dchInitWithStr name
  | .chunk name .. => name

/-- The entry that a call is asked for. -/
def fe : FolderAdd → FolderEntry
  | .entry name isDir mode size => ⟨cstr name, isDir, mode &&& permissionBits, size⟩
  | .chunk name isDir mode size => ⟨name, isDir, mode &&& permissionBits, size⟩

/-- The entry as it is stored: a name of 2^32 bytes or more is cut. -/
def stored (a : FolderAdd) : FolderEntry := { a.fe with fileName := a.dch }

end FolderAdd

/-- A sequence of calls. -/
def folderAddAll (folder : FolderArray) (adds : List FolderAdd) : Except Fault FolderArray :=
  adds.foldlM folderAdd folder

example : (folderAddAll folderNew
    [.entry (ascii "b") false 0o100644 5, .chunk (ascii "a") true 0o40755 0]).map
      (fun folder => folder.entries.take 3) =
    .ok [.entry ⟨ascii "b", false, 0o644, 5⟩, .entry ⟨ascii "a", true, 0o755, 0⟩, .terminator] := by
  decide

end FilemanagerHttpd.Server
