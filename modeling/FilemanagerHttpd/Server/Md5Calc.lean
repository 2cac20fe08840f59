import FilemanagerHttpd.Server.Memory

/-!
# MD5 sums

`md5_calculate` reads the message in place. The pointer to the rest of it is set to null when its
end has been marked, and the loop goes on as long as there is a pointer or a count.
-/

namespace FilemanagerHttpd.Server

open Library

/-- `SIN`. -/
def md5Sin : List UInt32 :=
  [0xd76aa478, 0xe8c7b756, 0x242070db, 0xc1bdceee, 0xf57c0faf, 0x4787c62a,
   0xa8304613, 0xfd469501, 0x698098d8, 0x8b44f7af, 0xffff5bb1, 0x895cd7be,
   0x6b901122, 0xfd987193, 0xa679438e, 0x49b40821, 0xf61e2562, 0xc040b340,
   0x265e5a51, 0xe9b6c7aa, 0xd62f105d, 0x2441453, 0xd8a1e681, 0xe7d3fbc8,
   0x21e1cde6, 0xc33707d6, 0xf4d50d87, 0x455a14ed, 0xa9e3e905, 0xfcefa3f8,
   0x676f02d9, 0x8d2a4c8a, 0xfffa3942, 0x8771f681, 0x6d9d6122, 0xfde5380c,
   0xa4beea44, 0x4bdecfa9, 0xf6bb4b60, 0xbebfbc70, 0x289b7ec6, 0xeaa127fa,
   0xd4ef3085, 0x4881d05, 0xd9d4d039, 0xe6db99e5, 0x1fa27cf8, 0xc4ac5665,
   0xf4292244, 0x432aff97, 0xab9423a7, 0xfc93a039, 0x655b59c3, 0x8f0ccc92,
   0xffeff47d, 0x85845dd1, 0x6fa87e4f, 0xfe2ce6e0, 0xa3014314, 0x4e0811a1,
   0xf7537e82, 0xbd3af235, 0x2ad7d2bb, 0xeb86d391]

/-- `Shift`. -/
def md5Shift : List (List UInt32) :=
  [[7, 12, 17, 22], [5, 9, 14, 20], [4, 11, 16, 23], [6, 10, 15, 21]]

/-- The four words `Q`, and `A`, `B`, `C` and `D`. -/
structure Md5Words where
  a : UInt32
  b : UInt32
  c : UInt32
  d : UInt32
  deriving DecidableEq, Repr

/-- The array `X`. -/
abbrev Md5Block := Nat → UInt32

/-- `X[i/4] |= b << 8 * (i % 4)`. -/
def md5OrByte (X : Md5Block) (i : Nat) (b : Byte) : Md5Block :=
  Function.update X (i / 4) (X (i / 4) ||| b.toUInt32 <<< UInt32.ofNat (8 * (i % 4)))

/-- One of the 64 steps. -/
def md5Step (X : Md5Block) (w : Md5Words) (i : Nat) : Md5Words :=
  let rol := (if i < 16 then (w.b &&& w.c ||| ~~~ w.b &&& w.d) + X i
    else if i < 32 then (w.d &&& w.b ||| ~~~ w.d &&& w.c) + X ((5 * i + 1) &&& 0xf)
    else if i < 48 then (w.b ^^^ w.c ^^^ w.d) + X ((3 * i + 5) &&& 0xf)
    else (w.c ^^^ (w.b ||| ~~~ w.d)) + X ((7 * i) &&& 0xf)) + w.a + md5Sin.getD i 0
  let shift := (md5Shift.getD (i / 16) []).getD (i % 4) 0
  ⟨w.d, w.b + (rol <<< shift ||| rol >>> (32 - shift)), w.b, w.c⟩

/-- The steps, and their result added to `Q`. -/
def md5Mix (Q : Md5Words) (X : Md5Block) : Md5Words :=
  let w := (List.range 64).foldl (md5Step X) Q
  ⟨Q.a + w.a, Q.b + w.b, Q.c + w.c, Q.d + w.d⟩

/-- The variables of the loop. -/
structure Md5State where
  bytes : Option Bytes
  count : Nat
  Q : Md5Words

/-- The first part of a round: the bytes, and the mark behind them when they end. -/
def md5Fill (bytes : Option Bytes) (count : Nat) : Md5Block × Option Bytes × Nat :=
  match bytes with
  | some bytes =>
    let X := (List.range (if 64 < count then 64 else count)).foldl
      (fun X i => md5OrByte X i (bytes.getD i 0)) fun _ => 0
    if 64 ≤ count then (X, some (bytes.drop 64), count - 64)
    else (md5OrByte X count 0x80, none, count + 1)
  | none => (fun _ => 0, none, 0)

/-- A round of the loop. `bits` is the length in bits. -/
def md5Round (bits : UInt64) (s : Md5State) : Md5State :=
  let (X, bytes, count) := md5Fill s.bytes s.count
  if bytes = none ∧ count ≤ 56 then
    let X := Function.update (Function.update X 14 bits.toUInt32) 15 (bits >>> 32).toUInt32
    ⟨bytes, 0, md5Mix s.Q X⟩
  else ⟨bytes, count, md5Mix s.Q X⟩

/-- The loop, with a bound on its rounds. -/
def md5Loop (bits : UInt64) : Nat → Md5State → Option Md5Words
  | 0, _ => none
  | n + 1, s => if s.bytes = none ∧ s.count = 0 then some s.Q else md5Loop bits n (md5Round bits s)

/-- `%02x`. -/
def md5Hex (x : UInt32) : Bytes :=
  let ds := digits 16 x.toNat
  List.replicate (2 - ds.length) 48 ++ ds

def md5Print (x : UInt32) : Bytes :=
  md5Hex (x &&& 0xff) ++ md5Hex (x >>> 8 &&& 0xff) ++ md5Hex (x >>> 16 &&& 0xff) ++
    md5Hex (x >>> 24 &&& 0xff)

/-- `md5_calculate`. The number of bits is computed as an `unsigned`. -/
def md5Calculate (bytes : Bytes) : Option Bytes :=
  let bits := UInt64.ofNat (8 * bytes.length % uintSize)
  let Q := ⟨0x67452301, 0xefcdab89, 0x98badcfe, 0x10325476⟩
  (md5Loop bits (bytes.length / 64 + 3) ⟨some bytes, bytes.length, Q⟩).map fun Q =>
    md5Print Q.a ++ md5Print Q.b ++ md5Print Q.c ++ md5Print Q.d

example : md5Calculate [] = some (ascii "d41d8cd98f00b204e9800998ecf8427e") := by decide +kernel

end FilemanagerHttpd.Server
