import FilemanagerHttpd.Server.ContentPart

/-!
# A multipart body

The bytes of the boundary delimiter that may have been seen are kept as a number only;
when the next piece does not continue them they are given to the part after all.
-/

namespace FilemanagerHttpd.Server

open Library

inductive ParsePosition
  | body | gotBoundary
  deriving DecidableEq, Repr

structure MultipartData where
  /-- `"\r\n--"` and the boundary; null in the epilogue -/
  boundaryDelimiter : Option Bytes
  destDir : Option Path
  parsePos : ParsePosition
  /-- number of bytes of the previous data that match the start of the delimiter -/
  delimMatchPart : Nat
  parts : List ContentPart
  deriving DecidableEq, Repr

/-- The body may start with the boundary without the line end before it. -/
def mpdataNew (boundaryDelimiter : Bytes) (destDir : Option Path) : Except Fault MultipartData := do
  let mb ← mbNewWithStr (ascii "\r\n--")
  let mb ← mbAppendStr mb boundaryDelimiter
  return ⟨some mb.data, destDir, .body, 2, []⟩

/-- Give data to the last part, if there is one; the preamble is dropped. -/
def appendToLastPart (fuel : Nat) (mpdata : MultipartData) (data : Bytes) :
    Prog MultipartData :=
  match mpdata.parts.getLast? with
  | none => return mpdata
  | some cpart => do
    let cpart ← cpartAppendData fuel cpart data
    return { mpdata with parts := mpdata.parts.dropLast ++ [cpart] }

/-- `memcmp` of the delimiter with the rest of the data, as far as both go. -/
def delimiterAt (delim s : Bytes) : Bool := delim.take s.length == s.take delim.length

/-- The data before the first place where the delimiter is or may begin, and from there on. -/
def splitAtDelimiter (delim : Bytes) : Bytes → Bytes × Bytes
  | [] => ([], [])
  | b :: rest =>
    if b = cr ∧ delimiterAt delim (b :: rest) = true then ([], b :: rest)
    else
      let r := splitAtDelimiter delim rest
      (b :: r.1, r.2)

/-- The first step: whether the data continues the delimiter. The data left over, or none
when the delimiter is still not complete. -/
def continueDelimiter (fuel : Nat) (mpdata : MultipartData) (delim data : Bytes) :
    Prog (MultipartData × Bytes) :=
  if mpdata.delimMatchPart = 0 then return (mpdata, data)
  else
    let delimRmdr := delim.drop mpdata.delimMatchPart
    if ! delimiterAt delimRmdr data then do
      let mpdata ← appendToLastPart fuel mpdata (delim.take mpdata.delimMatchPart)
      return ({ mpdata with delimMatchPart := 0 }, data)
    else if data.length < delimRmdr.length then
      return ({ mpdata with delimMatchPart := mpdata.delimMatchPart + data.length }, [])
    else
      return ({ mpdata with delimMatchPart := 0, parsePos := .gotBoundary },
        data.drop delimRmdr.length)

/-- The largest number of parts that the 32-bit counter can hold. -/
def maxPartCount : Nat := 2 ^ 32 - 2

/-- The rest of the boundary line: a part begins behind it. The data behind the line, or
none when it does not end here; then the line counts as not begun. -/
def boundaryLine (mpdata : MultipartData) (data : Bytes) :
    Except Fault (MultipartData × Option Bytes) :=
  if maxPartCount < mpdata.parts.length then .error .heapOverflow
  else
    let mpdata := { mpdata with parts := mpdata.parts ++ [cpartNew mpdata.destDir] }
    match splitAtByte lf data with
    | none => .ok (mpdata, none)
    | some (_, rest) => .ok ({ mpdata with parsePos := .body }, some rest)

/-- The part data up to the next delimiter, which may be cut off; the data behind it. -/
def partBody (fuel : Nat) (mpdata : MultipartData) (delim data : Bytes) :
    Prog (MultipartData × Bytes) := do
  let (before, rest) := splitAtDelimiter delim data
  let mpdata ← appendToLastPart fuel mpdata before
  if rest.length < delim.length then
    return ({ mpdata with delimMatchPart := rest.length }, [])
  else return ({ mpdata with parsePos := .gotBoundary }, rest.drop delim.length)

/-- One round of the loop of `mpdata_appendData`. -/
def appendRound (fuel : Nat) (delim : Bytes) :
    MultipartData × Bytes → Prog ((MultipartData × Bytes) ⊕ MultipartData)
  | (mpdata, data) =>
    if data = [] then return .inr mpdata
    else match mpdata.parsePos with
      | .body => do
        let (mpdata, data) ← partBody fuel mpdata delim data
        return .inl (mpdata, data)
      | .gotBoundary =>
        if data.head? = some hyphen then
          -- the epilogue
          return .inr { mpdata with boundaryDelimiter := none }
        else do
          match ← boundaryLine mpdata data with
          | (mpdata, none) => return .inr mpdata
          | (mpdata, some []) => return .inr mpdata
          | (mpdata, some data) =>
            let (mpdata, data) ← partBody fuel mpdata delim data
            return .inl (mpdata, data)

/-- `mpdata_appendData`. Each round takes at least one byte of the data away. -/
def mpdataAppendData (fuel : Nat) (mpdata : MultipartData) (data : Bytes) : Prog MultipartData :=
  match mpdata.boundaryDelimiter with
  | none => return mpdata
  | some delim => do
    let (mpdata, data) ← continueDelimiter fuel mpdata delim data
    Program.iterate .outOfFuel (appendRound fuel delim) (data.length + 1) (mpdata, data)

/-- The place of the first part with a name. -/
def mpdataFindPart (mpdata : MultipartData) (name : Bytes) : Option Nat :=
  mpdata.parts.findIdx? fun cpart => cpartNameEquals cpart name

def mpdataGetPartByName (mpdata : MultipartData) (name : Bytes) : Option ContentPart :=
  mpdata.parts.find? fun cpart => cpartNameEquals cpart name

def mpdataContainsPartWithName (mpdata : MultipartData) (name : Bytes) : Bool :=
  (mpdataGetPartByName mpdata name).isSome

/-- `cpart_free` of each part in turn. -/
def freeParts : List ContentPart → Prog Unit
  | [] => return ()
  | cpart :: parts => do
    cpartFree cpart
    freeParts parts

def mpdataFree (mpdata : MultipartData) : Prog Unit := freeParts mpdata.parts

end FilemanagerHttpd.Server
