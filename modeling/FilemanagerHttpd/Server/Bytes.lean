import FilemanagerHttpd.Library.Digits

/-!
# Bytes and the C library's text functions

Text is a list of bytes. Where the source works on zero-terminated strings the
model works on `cstr` of the buffer: the bytes before the first zero byte.
-/

namespace FilemanagerHttpd.Server

open Library

abbrev Byte := UInt8
abbrev Bytes := List Byte

/-- The bytes of an ASCII literal of the source. -/
def ascii (s : String) : Bytes := s.toList.map fun c => c.toNat.toUInt8

def nul : Byte := 0
def tab : Byte := 9
def lf : Byte := 10
def cr : Byte := 13
def space : Byte := 32
def quote : Byte := 34
def hash : Byte := 35
def percent : Byte := 37
def hyphen : Byte := 45
def dot : Byte := 46
def slash : Byte := 47
def colon : Byte := 58
def semicolon : Byte := 59
def comma : Byte := 44
def equalsSign : Byte := 61
def question : Byte := 63

/-- `"\r\n"`. -/
def crlf : Bytes := [cr, lf]

/-- The zero-terminated string that starts a buffer. -/
def cstr (b : Bytes) : Bytes := b.takeWhile (· != nul)

/-- `memchr`: the bytes before the first `c`, and those after it. -/
def splitAtByte (c : Byte) : Bytes → Option (Bytes × Bytes)
  | [] => none
  | b :: rest =>
    if b = c then some ([], rest)
    else (splitAtByte c rest).map fun p => (b :: p.1, p.2)

/-- `strrchr`: the bytes before the last `c`, and those after it. -/
def splitAtLastByte (c : Byte) (s : Bytes) : Option (Bytes × Bytes) :=
  (splitAtByte c s.reverse).map fun p => (p.2.reverse, p.1.reverse)

/-- `p += strspn(p, set)`. -/
def skipSpan (set : Bytes) (s : Bytes) : Bytes := s.dropWhile (· ∈ set)

/-- `tolower` in the C locale. -/
def toLower (b : Byte) : Byte := if 65 ≤ b ∧ b ≤ 90 then b + 32 else b

/-- `toupper` in the C locale. -/
def toUpper (b : Byte) : Byte := if 97 ≤ b ∧ b ≤ 122 then b - 32 else b

/-- `! strcasecmp(a, b)`. -/
def eqIgnoreCase (a b : Bytes) : Bool := a.map toLower == b.map toLower

/-- `strstr(s, t) != NULL`. -/
def containsText (t : Bytes) : Bytes → Bool
  | [] => t.isEmpty
  | b :: rest => t.isPrefixOf (b :: rest) || containsText t rest

def isSpace (b : Byte) : Bool := b == space || (9 ≤ b && b ≤ 13)

/-- The sign that `strtoul` accepts before the digits. -/
def stripSign : Bytes → Bool × Bytes
  | 45 :: rest => (true, rest)
  | 43 :: rest => (false, rest)
  | s => (false, s)

/-- The prefix that `strtoul` accepts in base 16 before a hexadecimal digit. -/
def stripHexPrefix : Bytes → Bytes
  | 48 :: 120 :: d :: rest => if isDigit 16 d then d :: rest else 48 :: 120 :: d :: rest
  | 48 :: 88 :: d :: rest => if isDigit 16 d then d :: rest else 48 :: 88 :: d :: rest
  | s => s

def uintSize : Nat := 2 ^ 32
def ulongSize : Nat := 2 ^ 64

/-- `strtoul(s, NULL, base)`, and `strtoull`: both are 64 bits wide. -/
def strtoul (base : Nat) (s : Bytes) : Nat :=
  let (negative, s) := stripSign ((cstr s).dropWhile isSpace)
  let s := if base = 16 then stripHexPrefix s else s
  let n := digitsVal base (s.takeWhile (isDigit base))
  if ulongSize ≤ n then ulongSize - 1
  else if negative then (ulongSize - n) % ulongSize
  else n

/-- `%u`, `%llu`. -/
def decimal (n : Nat) : Bytes := digits 10 n

/-- `%x`. -/
def hexadecimal (n : Nat) : Bytes := digits 16 n

example : strtoul 16 (ascii "1aF;ext") = 0x1af := by decide
example : decimal 1024 = ascii "1024" ∧ hexadecimal 255 = ascii "ff" := by decide

end FilemanagerHttpd.Server
