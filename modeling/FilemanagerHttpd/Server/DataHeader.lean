import FilemanagerHttpd.Server.RequestHeader

/-!
# The header of a form part and of a CGI response
-/

namespace FilemanagerHttpd.Server

/-- `struct DataHeader`. -/
structure DataHeader where
  /-- name and value of each complete line -/
  lines : List (Bytes × Bytes)
  /-- the line after them -/
  current : Bytes
  deriving DecidableEq, Repr

def datahdrNew : DataHeader := ⟨[], []⟩

def datahdrGetHeaderLineAt (hdr : DataHeader) (idx : Nat) : Option (Bytes × Bytes) :=
  hdr.lines[idx]?

def datahdrGetHeaderVal (hdr : DataHeader) (headerName : Bytes) : Option Bytes :=
  (hdr.lines.find? fun h => eqIgnoreCase h.1 headerName).map fun h => skipSpan blanks h.2

/-- The number of lines is an `unsigned`, and the array gets one entry more. -/
def maxLineCount : Nat := 2 ^ 32 - 2

/-- A complete line that is not empty; a line without a colon is dropped. -/
def datahdrAddLine (hdr : DataHeader) (line : Bytes) : Except Fault DataHeader :=
  match splitAtByte colon (cstr line) with
  | none => .ok { hdr with current := [] }
  | some header =>
    if hdr.lines.length < maxLineCount then
      .ok { lines := hdr.lines ++ [header], current := [] }
    else .error .heapOverflow

/-- The loop of `datahdr_appendData`; see `reqhdrAppendLoop`. -/
def datahdrAppendLoop : Nat → DataHeader → Bytes → Except Fault (DataHeader × Option Bytes)
  | 0, hdr, _ => .ok (hdr, none)
  | n + 1, hdr, bol =>
    if bol = [] then .ok (hdr, none)
    else match splitAtByte lf bol with
      | none => do
        let line ← extendLine hdr.current bol
        return ({ hdr with current := line }, none)
      | some (piece, rest) => do
        let line ← extendLine hdr.current piece
        if cstr (stripCr line) = [] then
          return ({ hdr with current := stripCr line }, some rest)
        else
          let hdr ← datahdrAddLine hdr (stripCr line)
          datahdrAppendLoop n hdr rest

/-- `datahdr_appendData`: the offset behind the header, or `none` for -1. -/
def datahdrAppendData (hdr : DataHeader) (data : Bytes) :
    Except Fault (DataHeader × Option Nat) := do
  let (hdr, rest) ← datahdrAppendLoop data.length hdr data
  return (hdr, rest.map fun r => data.length - r.length)

end FilemanagerHttpd.Server
