import FilemanagerHttpd.Server.Bytes

/-!
# Faults, memory buffers and data chunks

A `Fault` is where the server stops or where C gives up its guarantees: a null
pointer that is followed, an index outside its array, a block whose size has
wrapped around, a `log_fatal`. Sizes are 32 bits wide in the source, so the
functions below compute them as the source does and fault where they wrap.
-/

namespace FilemanagerHttpd.Server

/-- The pointers that the source follows without looking. -/
inductive Pointer
  | handler | contentPart | sysPath | body | lastSlash | filePathName | folder
  deriving DecidableEq, Repr

/-- What the source reads or writes by an index or a running pointer without a bound. -/
inductive Region
  | urlPath | credential | formatArgs | sizeDigits | rootDir | fdSet
  deriving DecidableEq, Repr

/-- The reasons of the calls of `log_fatal` in the modelled functions. -/
inductive FatalError
  | pipe | fork | cgiRead | internal
  deriving DecidableEq, Repr

inductive Fault
  | nullPointer (p : Pointer)
  | heapOverflow
  | indexOutOfRange (r : Region)
  | fatal (e : FatalError)
  | exited
  | outOfFuel
  deriving DecidableEq, Repr

/-- `struct MemBuf`: the first `dataLen` bytes of the block. -/
structure MemBuf where
  data : Bytes
  deriving DecidableEq, Repr

def MemBuf.dataLen (mb : MemBuf) : Nat := mb.data.length

def mbNew : MemBuf := ⟨[]⟩

/-- The block holds one byte more than the data, and its size is an `unsigned`. -/
def mbAppendData (mb : MemBuf) (data : Bytes) : Except Fault MemBuf :=
  if mb.dataLen + data.length + 1 < uintSize then .ok ⟨mb.data ++ data⟩
  else .error .heapOverflow

def mbAppendStr (mb : MemBuf) (str : Bytes) : Except Fault MemBuf := mbAppendData mb (cstr str)

def mbNewWithStr (str : Bytes) : Except Fault MemBuf := mbAppendStr mbNew str

/-- `mb_appendStrL`. -/
def mbAppendStrL (mb : MemBuf) : List Bytes → Except Fault MemBuf
  | [] => .ok mb
  | str :: rest => do mbAppendStrL (← mbAppendStr mb str) rest

def mbEndsWithSlash (mb : MemBuf) : Bool := mb.data.getLast? == some slash

def mbEnsureEndsWithSlash (mb : MemBuf) : Except Fault MemBuf :=
  if mbEndsWithSlash mb then .ok mb else mbAppendData mb [slash]

/-- The bytes of a buffer from `offset` on, overwritten. -/
def overwrite (b : Bytes) (offset : Nat) (data : Bytes) : Bytes :=
  b.take offset ++ data ++ b.drop (offset + data.length)

/-- `mb_setData`; the source aborts when the range exceeds the buffer. -/
def mbSetData (mb : MemBuf) (offset : Nat) (data : Bytes) : Except Fault MemBuf :=
  if mb.dataLen < offset + data.length then .error .exited
  else .ok ⟨overwrite mb.data offset data⟩

/-- `mb_setStrEnd`: the new length counts the terminating zero. -/
def mbSetStrEnd (mb : MemBuf) (offset : Nat) (str : Bytes) : MemBuf :=
  ⟨mb.data.take offset ++ cstr str ++ [nul]⟩

def mbFillWithZeros (mb : MemBuf) (offset len : Nat) : Except Fault MemBuf :=
  mbSetData mb offset (List.replicate len nul)

/-- `DataChunk`: a slice of a larger text. -/
abbrev DataChunk := Bytes

/-- `dch_initWithStr`; the length of a chunk is an `unsigned`. -/
def dchInitWithStr (str : Bytes) : DataChunk := (cstr str).take ((cstr str).length % uintSize)

/-- `gWhiteSpaces`. -/
def isWhiteSpace (b : Byte) : Bool := b == space || b == tab || b == lf

def dchSkipLeading (dch : DataChunk) (c : Byte) : DataChunk := dch.dropWhile (· == c)

def dchTrimTrailing (dch : DataChunk) (c : Byte) : DataChunk :=
  (dch.reverse.dropWhile (· == c)).reverse

def skipLeadingWS (dch : DataChunk) : DataChunk := dch.dropWhile isWhiteSpace

def trimTrailingWS (dch : DataChunk) : DataChunk := (dch.reverse.dropWhile isWhiteSpace).reverse

def dchTrimWS (dch : DataChunk) : DataChunk := trimTrailingWS (skipLeadingWS dch)

/-- `dch_shiftAfterChr`: unchanged, with `false`, when the byte does not occur. -/
def dchShiftAfterChr (dch : DataChunk) (c : Byte) : Bool × DataChunk :=
  match splitAtByte c dch with
  | some (_, rest) => (true, rest)
  | none => (false, dch)

/-- `dch_extractTillChr`: whether the byte occurs, the part before it, the rest. -/
def dchExtractTillChr (dch : DataChunk) (c : Byte) : Bool × DataChunk × DataChunk :=
  match splitAtByte c dch with
  | some (before, rest) => (true, before, rest)
  | none => (false, dch, [])

def dchExtractTillChrStripWS (dch : DataChunk) (c : Byte) : Bool × DataChunk × DataChunk :=
  match dchExtractTillChr dch c with
  | (true, before, rest) => (true, trimTrailingWS before, skipLeadingWS rest)
  | r => r

/-- `dch_extractTillWS`: the first word and the rest, when there is a word. -/
def dchExtractTillWS (dch : DataChunk) : Option (DataChunk × DataChunk) :=
  match skipLeadingWS dch with
  | [] => none
  | b :: rest =>
    some ((b :: rest).takeWhile (! isWhiteSpace ·),
      skipLeadingWS ((b :: rest).dropWhile (! isWhiteSpace ·)))

/-- One parameter of a list: its name, its value, the rest of the list. -/
structure Param where
  name : DataChunk
  value : DataChunk
  rest : DataChunk
  deriving DecidableEq, Repr

def dchExtractParam (paramLine : DataChunk) (delimiter : Byte) : Option Param :=
  match dchExtractTillChr paramLine equalsSign with
  | (false, _, _) => none
  | (true, name, line) =>
    match skipLeadingWS line with
    | 34 :: quoted =>
      let (_, value, line) := dchExtractTillChr quoted quote
      let (_, line) := dchShiftAfterChr line delimiter
      some ⟨dchTrimWS name, value, line⟩
    | line =>
      let (_, value, line) := dchExtractTillChr line delimiter
      some ⟨dchTrimWS name, trimTrailingWS value, line⟩

/-- `while( dch_extractParam(..) )`: the parameters in the order they are extracted.
Each takes at least its `=` away, so the length of the line bounds their number. -/
def dchParams (delimiter : Byte) : Nat → DataChunk → List Param
  | 0, _ => []
  | n + 1, line =>
    match dchExtractParam line delimiter with
    | none => []
    | some p => p :: dchParams delimiter n p.rest

/-- All parameters of a line. -/
def dchAllParams (line : DataChunk) (delimiter : Byte) : List Param :=
  dchParams delimiter line.length line

example : (dchAllParams (ascii " name=\"a;b\" ; filename = x ;") semicolon).map
    (fun p => (p.name, p.value)) =
      [(ascii "name", ascii "a;b"), (ascii "filename", ascii "x")] := by decide

end FilemanagerHttpd.Server
