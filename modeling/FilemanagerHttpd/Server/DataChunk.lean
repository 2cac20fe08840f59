import FilemanagerHttpd.Server.Memory

/-!
# Data chunks as pointers into a text

`DataChunk` in `Memory` is the bytes of a chunk. Here a chunk is what the source has: a pointer
into a text, or a null pointer, and a length, and every byte is read through the pointer.
-/

namespace FilemanagerHttpd.Server

/-- Where an operation on a chunk would go wrong. -/
inductive ChunkFault
  | nullRead | outsideText | lenUnderflow
  deriving DecidableEq, Repr

/-- `struct DataChunk`: the pointer is an offset in the text, `none` is `NULL`. -/
structure ChunkSlice where
  data : Option Nat
  len : Nat
  deriving DecidableEq, Repr

/-- `*p`. -/
def readByte (text : Bytes) : Option Nat → Except ChunkFault Byte
  | none => .error .nullRead
  | some i => match text[i]? with
    | some b => .ok b
    | none => .error .outsideText

/-- A length of type `unsigned` made smaller. -/
def subLen (len n : Nat) : Except ChunkFault Nat :=
  if n % uintSize ≤ len then .ok (len - n % uintSize) else .error .lenUnderflow

/-- `memchr(p, c, len)`. Of no bytes it reads none, so a null pointer does no harm then. -/
def memchr (text : Bytes) (c : Byte) : Option Nat → Nat → Except ChunkFault (Option Nat)
  | _, 0 => .ok none
  | p, len + 1 => do
    let b ← readByte text p
    if b = c then return p else memchr text c (p.map (· + 1)) len

/-- The loop of `skipLeadingWS` and `dch_skipLeading`, and the one that ends a word. -/
def advanceWhile (text : Bytes) (test : Byte → Bool) :
    Option Nat → Nat → Except ChunkFault ChunkSlice
  | p, 0 => .ok ⟨p, 0⟩
  | p, len + 1 => do
    let b ← readByte text p
    if test b then advanceWhile text test (p.map (· + 1)) len else return ⟨p, len + 1⟩

/-- The loop of `trimTrailingWS` and `dch_trimTrailing`. -/
def shortenWhile (text : Bytes) (test : Byte → Bool) (p : Option Nat) :
    Nat → Except ChunkFault ChunkSlice
  | 0 => .ok ⟨p, 0⟩
  | len + 1 => do
    let b ← readByte text (p.map (· + len))
    if test b then shortenWhile text test p len else return ⟨p, len + 1⟩

namespace ChunkSlice

variable (text : Bytes)

/-- `dch_clear`. -/
def clear : ChunkSlice := ⟨none, 0⟩

/-- `dch_initWithStr`, for the zero-terminated text. -/
def initWithStr : ChunkSlice := ⟨some 0, (cstr text).length % uintSize⟩

def skipLeadingWS (dch : ChunkSlice) : Except ChunkFault ChunkSlice :=
  advanceWhile text isWhiteSpace dch.data dch.len

def trimTrailingWS (dch : ChunkSlice) : Except ChunkFault ChunkSlice :=
  shortenWhile text isWhiteSpace dch.data dch.len

def trimWS (dch : ChunkSlice) : Except ChunkFault ChunkSlice := do
  trimTrailingWS text (← skipLeadingWS text dch)

/-- `dch_shift(dch, 1)`. -/
def shiftOne (dch : ChunkSlice) : ChunkSlice :=
  if dch.len < 1 then dch else ⟨dch.data.map (· + 1), dch.len - 1⟩

/-- `dch_shiftAfterChr`. -/
def shiftAfterChr (dch : ChunkSlice) (c : Byte) : Except ChunkFault (Bool × ChunkSlice) := do
  match ← memchr text c dch.data dch.len with
  | none => return (false, dch)
  | some dataEnd =>
    let len ← subLen dch.len (dataEnd - dch.data.getD 0 + 1)
    return (true, ⟨some (dataEnd + 1), len⟩)

/-- `dch_extractTillChr`: the result, the sub-chunk and what becomes of the chunk. -/
def extractTillChr (dch : ChunkSlice) (delimiter : Byte) :
    Except ChunkFault (Bool × ChunkSlice × ChunkSlice) := do
  match ← memchr text delimiter dch.data dch.len with
  | none => return (false, dch, clear)
  | some delimPos =>
    let subChunk := ⟨dch.data, (delimPos - dch.data.getD 0) % uintSize⟩
    let len ← subLen dch.len (subChunk.len + 1)
    return (true, subChunk, ⟨some (delimPos + 1), len⟩)

/-- `dch_extractTillWS`. -/
def extractTillWS (dch : ChunkSlice) : Except ChunkFault (Bool × ChunkSlice × ChunkSlice) := do
  let dch ← skipLeadingWS text dch
  if dch.len = 0 then return (false, clear, dch)
  else
    let rest ← advanceWhile text (! isWhiteSpace ·) dch.data dch.len
    let subChunk := ⟨dch.data, (rest.data.getD 0 - dch.data.getD 0) % uintSize⟩
    return (true, subChunk, ← skipLeadingWS text rest)

/-- The value in `dch_extractParam`, and what becomes of the line. -/
def paramValue (paramLine : ChunkSlice) (delimiter : Byte) :
    Except ChunkFault (ChunkSlice × ChunkSlice) := do
  let quoted ← (if 0 < paramLine.len then return (← readByte text paramLine.data) == quote
    else return false : Except ChunkFault Bool)
  if quoted then
    let (_, valueBuf, paramLine) ← extractTillChr text (shiftOne paramLine) quote
    let (_, paramLine) ← shiftAfterChr text paramLine delimiter
    return (valueBuf, paramLine)
  else
    let (_, valueBuf, paramLine) ← extractTillChr text paramLine delimiter
    return (← trimTrailingWS text valueBuf, paramLine)

/-- `dch_extractParam`: the result, the name, the value and what becomes of the line. Without a
`=` the value is not set. -/
def extractParam (paramLine : ChunkSlice) (delimiter : Byte) :
    Except ChunkFault (Bool × ChunkSlice × Option ChunkSlice × ChunkSlice) := do
  match ← extractTillChr text paramLine equalsSign with
  | (false, nameBuf, paramLine) => return (false, nameBuf, none, paramLine)
  | (true, nameBuf, paramLine) =>
    let nameBuf ← trimWS text nameBuf
    let (valueBuf, paramLine) ← paramValue text (← skipLeadingWS text paramLine) delimiter
    return (true, nameBuf, some valueBuf, paramLine)

end ChunkSlice

/-- A call on a chunk. -/
inductive ChunkOp
  | extractParam (delimiter : Byte)
  | extractTillWS
  | extractTillChr (delimiter : Byte)
  | shiftAfterChr (c : Byte)
  deriving DecidableEq, Repr

/-- What a call returns, the chunks that it sets, in the order of its arguments, and what it leaves
of the chunk it is called on. -/
structure ChunkStep where
  res : Bool
  slices : List ChunkSlice
  rest : ChunkSlice
  deriving DecidableEq, Repr

def ChunkOp.run (text : Bytes) (dch : ChunkSlice) : ChunkOp → Except ChunkFault ChunkStep
  | .extractParam delimiter => do
    let (res, name, value, rest) ← dch.extractParam text delimiter
    return ⟨res, name :: value.toList, rest⟩
  | .extractTillWS => do
    let (res, sub, rest) ← dch.extractTillWS text
    return ⟨res, [sub], rest⟩
  | .extractTillChr delimiter => do
    let (res, sub, rest) ← dch.extractTillChr text delimiter
    return ⟨res, [sub], rest⟩
  | .shiftAfterChr c => do
    let (res, rest) ← dch.shiftAfterChr text c
    return ⟨res, [], rest⟩

/-- A sequence of calls on one chunk. -/
def ChunkOp.runAll (text : Bytes) : ChunkSlice → List ChunkOp → Except ChunkFault (List ChunkStep)
  | _, [] => .ok []
  | dch, op :: ops => do
    let step ← op.run text dch
    let steps ← runAll text step.rest ops
    return step :: steps

/-- `while( op(dch) )`: the calls, of which the first one that returns `false` is the last. With
the bound used up there is no result. -/
def ChunkOp.untilFalse (text : Bytes) (next : Nat → ChunkOp) :
    Nat → Nat → ChunkSlice → Except ChunkFault (Option (List ChunkStep))
  | 0, _, _ => .ok none
  | n + 1, i, dch => do
    let step ← (next i).run text dch
    if step.res then
      let steps ← untilFalse text next n (i + 1) step.rest
      return steps.map (step :: ·)
    else return some [step]

example : ((ChunkOp.extractParam comma).run (ascii " a = \"b,c\" , d") ⟨some 0, 14⟩) =
    .ok ⟨true, [⟨some 1, 1⟩, ⟨some 6, 3⟩], ⟨some 12, 2⟩⟩ := by decide

end FilemanagerHttpd.Server
