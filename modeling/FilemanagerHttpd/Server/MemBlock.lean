import FilemanagerHttpd.Server.Memory

/-!
# The memory of a buffer

`MemBuf` of `Memory` has the bytes of a buffer. Here are the same functions on the block that
`malloc` has given for them: what they allocate, where they write, and the zero that they keep
behind the data.
-/

namespace FilemanagerHttpd.Server

/-- `struct MemBuf`, with the allocated block. -/
structure MemBlock where
  block : Bytes
  dataLen : Nat
  deriving DecidableEq, Repr

/-- `realloc`: what `malloc` returns is not initialised; here it holds `junk`. -/
def reallocBlock (block : Bytes) (size : Nat) (junk : Nat → Byte) : Bytes :=
  block.take size ++ (List.range (size - block.length)).map junk

/-- `memcpy` into a block. -/
def storeAt (block : Bytes) (offset : Nat) (data : Bytes) : Except Fault Bytes :=
  if offset + data.length ≤ block.length then .ok (overwrite block offset data)
  else .error .heapOverflow

/-- The size for the data, what is appended and a zero, as an `unsigned`. -/
def appendSize (dataLen len : Nat) : Nat := (dataLen + len + 1) % uintSize

def blockNew : MemBlock := ⟨[nul], 0⟩

/-- `mb_newWithStr`: the length is an `int`. -/
def blockNewWithStr (str : Bytes) : Except Fault MemBlock :=
  if (cstr str).length + 1 < 2 ^ 31 then .ok ⟨cstr str ++ [nul], (cstr str).length⟩
  else .error .heapOverflow

def blockAppendData (mb : MemBlock) (data : Bytes) (junk : Nat → Byte) : Except Fault MemBlock := do
  let block := reallocBlock mb.block (appendSize mb.dataLen data.length) junk
  let block ← storeAt block mb.dataLen data
  let dataLen := (mb.dataLen + data.length) % uintSize
  let block ← storeAt block dataLen [nul]
  return ⟨block, dataLen⟩

/-- `mb_appendStr`: the length of the string becomes an `unsigned`. -/
def blockAppendStr (mb : MemBlock) (str : Bytes) (junk : Nat → Byte) : Except Fault MemBlock :=
  blockAppendData mb ((cstr str).take ((cstr str).length % uintSize)) junk

def blockAppendChunk (mb : MemBlock) (dch : DataChunk) (junk : Nat → Byte) :
    Except Fault MemBlock :=
  blockAppendData mb dch junk

def blockEnsureEndsWithSlash (mb : MemBlock) (junk : Nat → Byte) : Except Fault MemBlock :=
  if mb.dataLen = 0 ∨ mb.block[mb.dataLen - 1]? ≠ some slash then blockAppendData mb [slash] junk
  else .ok mb

def blockResize (mb : MemBlock) (newSize : Nat) (junk : Nat → Byte) : Except Fault MemBlock := do
  let block ← storeAt (reallocBlock mb.block ((newSize + 1) % uintSize) junk) newSize [nul]
  return ⟨block, newSize⟩

def blockSetData (mb : MemBlock) (offset : Nat) (data : Bytes) : Except Fault MemBlock :=
  if mb.dataLen < (offset + data.length) % uintSize then .error .exited
  else do
    let block ← storeAt mb.block offset data
    return { mb with block }

/-- `mb_setStrEnd`: the zero at the end of the string is copied and counted, and nothing is
allocated behind it. -/
def blockSetStrEnd (mb : MemBlock) (offset : Nat) (str : Bytes) (junk : Nat → Byte) :
    Except Fault MemBlock :=
  if 2 ^ 31 ≤ (cstr str).length + 1 then .error .heapOverflow
  else do
    let dataLen := (offset + ((cstr str).length + 1)) % uintSize
    let block ← storeAt (reallocBlock mb.block dataLen junk) offset (cstr str ++ [nul])
    return ⟨block, dataLen⟩

def blockFillWithZeros (mb : MemBlock) (offset len : Nat) : Except Fault MemBlock :=
  if mb.dataLen < (offset + len) % uintSize then .error .exited
  else do
    let block ← storeAt mb.block offset (List.replicate len nul)
    return { mb with block }

/-- `mb_readFile`, with what `read` puts into the buffer; nothing when it fails. -/
def blockReadFile (mb : MemBlock) (bufOffset toRead : Nat) (got : Bytes) : Except Fault MemBlock :=
  if mb.dataLen < (bufOffset + toRead) % uintSize then .error .exited
  else do
    let block ← storeAt mb.block bufOffset got
    return { mb with block }

end FilemanagerHttpd.Server
