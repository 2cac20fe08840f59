import FilemanagerHttpd.Library.Sines

/-!
# The MD5 message digest

As in RFC 1321: the message is padded to whole blocks, and a compression function is folded over
them. The constants are the whole parts of `2 ^ 32` times the sines of 1 to 64.
-/

namespace FilemanagerHttpd.Library.Md5

/-- A number as bytes, low-order byte first. -/
def lowFirst (count n : Nat) : List UInt8 :=
  (List.range count).map fun i => UInt8.ofNat (n / 256 ^ i)

/-- The number that bytes stand for, low-order byte first. -/
def bytesValue (bs : List UInt8) : Nat := Nat.ofDigits 256 (bs.map UInt8.toNat)

/-- One of the words of a block. -/
def word (block : List UInt8) (k : Nat) : UInt32 :=
  UInt32.ofNat (bytesValue ((block.drop (4 * k)).take 4))

/-- A one bit, zeros up to 56 modulo 64 bytes, and the number of bits in 64 bits. -/
def pad (message : List UInt8) : List UInt8 :=
  message ++ 128 :: List.replicate ((119 - message.length % 64) % 64) 0 ++
    lowFirst 8 (8 * message.length)

/-- The blocks of 64 bytes. -/
def blocks (text : List UInt8) : List (List UInt8) :=
  (List.range (text.length / 64)).map fun i => (text.drop (64 * i)).take 64

/-- The auxiliary functions `F`, `G`, `H` and `I` of the four rounds. -/
def mixing (round : Nat) (x y z : UInt32) : UInt32 :=
  match round with
  | 0 => x &&& y ||| ~~~ x &&& z
  | 1 => x &&& z ||| y &&& ~~~ z
  | 2 => x ^^^ y ^^^ z
  | _ => y ^^^ (x ||| ~~~ z)

/-- The words in the order in which the rounds take them. -/
def wordOrder : List Nat :=
  [0, 1, 2, 3, 4, 5, 6, 7, 8, 9, 10, 11, 12, 13, 14, 15,
   1, 6, 11, 0, 5, 10, 15, 4, 9, 14, 3, 8, 13, 2, 7, 12,
   5, 8, 11, 14, 1, 4, 7, 10, 13, 0, 3, 6, 9, 12, 15, 2,
   0, 7, 14, 5, 12, 3, 10, 1, 8, 15, 6, 13, 4, 11, 2, 9]

/-- The amounts of the rotations in each round. -/
def rotations : List (List Nat) :=
  [[7, 12, 17, 22], [5, 9, 14, 20], [4, 11, 16, 23], [6, 10, 15, 21]]

/-- The table `T`. -/
noncomputable def sineWord (i : Nat) : UInt32 := UInt32.ofNat ⌊2 ^ 32 * |Real.sin i|⌋₊

def rotateLeft (x : UInt32) (s : Nat) : UInt32 :=
  x <<< UInt32.ofNat s ||| x >>> (32 - UInt32.ofNat s)

/-- The registers `A`, `B`, `C` and `D`. -/
abbrev Registers := Fin 4 → UInt32

instance neZero_four : NeZero 4 := ⟨by decide⟩

def initial : Registers := ![0x67452301, 0xefcdab89, 0x98badcfe, 0x10325476]

/-- The operations `[abcd k s i]`, the first of them for `j = 0`. Their registers are `ABCD`,
`DABC`, `CDAB`, `BCDA` and so on. -/
noncomputable def operation (X : Nat → UInt32) (regs : Registers) (j : Nat) : Registers :=
  let a : Fin 4 := - Fin.ofNat 4 j
  Function.update regs a (regs (a + 1) + rotateLeft (regs a +
    mixing (j / 16) (regs (a + 1)) (regs (a + 2)) (regs (a + 3)) +
      X (wordOrder.getD j 0) + sineWord (j + 1)) ((rotations.getD (j / 16) []).getD (j % 4) 0))

noncomputable def compress (regs : Registers) (X : Nat → UInt32) : Registers := fun r =>
  regs r + (List.range 64).foldl (operation X) regs r

noncomputable def digest (message : List UInt8) : List UInt8 :=
  let regs := (blocks (pad message)).foldl (fun regs block => compress regs (word block)) initial
  (List.finRange 4).flatMap fun r => lowFirst 4 (regs r).toNat

/-- A digit in lower case. -/
def hexDigit (n : Nat) : UInt8 := if n < 10 then UInt8.ofNat (48 + n) else UInt8.ofNat (87 + n)

def lowerHex (bs : List UInt8) : List UInt8 :=
  bs.flatMap fun b => [hexDigit (b.toNat / 16), hexDigit (b.toNat % 16)]

section Words

@[simp] theorem lowFirst_length (count n : Nat) : (lowFirst count n).length = count := by
  rw [lowFirst, List.length_map, List.length_range]

theorem bytesValue_lt (bs : List UInt8) : bytesValue bs < 256 ^ bs.length := by
  have h := Nat.ofDigits_lt_base_pow_length (b := 256) (l := bs.map UInt8.toNat) (by decide)
    fun d hd => by
      obtain ⟨b, -, rfl⟩ := List.mem_map.mp hd
      exact b.toNat_lt
  rwa [List.length_map] at h

theorem bytesValue_snoc (bs : List UInt8) (b : UInt8) :
    bytesValue (bs ++ [b]) = bytesValue bs + 256 ^ bs.length * b.toNat := by
  rw [bytesValue, List.map_append, Nat.ofDigits_append, List.length_map]
  simp [bytesValue]

/-- Another byte at the end of a word. -/
theorem ofNat_snoc {v j : Nat} (hv : v < 256 ^ j) (hj : j < 4) (b : UInt8) :
    UInt32.ofNat (v + 256 ^ j * b.toNat) =
      UInt32.ofNat v ||| b.toUInt32 <<< UInt32.ofNat (8 * j) := by
  have hpow : 256 ^ j = 2 ^ (8 * j) := by rw [Nat.pow_mul]
  have hb : b.toNat < 256 := b.toNat_lt
  rw [hpow] at hv ⊢
  have hall : v + 2 ^ (8 * j) * b.toNat < 2 ^ 32 := by
    calc v + 2 ^ (8 * j) * b.toNat < 2 ^ (8 * j) + 2 ^ (8 * j) * b.toNat := by omega
      _ = 2 ^ (8 * j) * (b.toNat + 1) := by ring
      _ ≤ 2 ^ (8 * j) * 2 ^ 8 := Nat.mul_le_mul_left _ hb
      _ = 2 ^ (8 * j + 8) := (Nat.pow_add 2 (8 * j) 8).symm
      _ ≤ 2 ^ 32 := Nat.pow_le_pow_right (by decide) (by omega)
  have hshift : (UInt32.ofNat (8 * j)).toNat % 32 = 8 * j := by
    rw [UInt32.toNat_ofNat', Nat.mod_eq_of_lt (by omega), Nat.mod_eq_of_lt (by omega)]
  apply UInt32.toNat.inj
  rw [UInt32.toNat_or, UInt32.toNat_shiftLeft, hshift, UInt32.toNat_ofNat', UInt32.toNat_ofNat',
    UInt8.toNat_toUInt32, Nat.mod_eq_of_lt hall, Nat.mod_eq_of_lt (by omega), Nat.shiftLeft_eq,
    Nat.mul_comm b.toNat, Nat.mod_eq_of_lt (by omega), Nat.lor_comm, Nat.mul_comm _ b.toNat,
    ← Nat.shiftLeft_eq, ← Nat.shiftLeft_add_eq_or_of_lt hv, Nat.add_comm]

/-- A byte more changes one word. -/
theorem word_snoc (l : List UInt8) (b : UInt8) (k : Nat) :
    word (l ++ [b]) k = if k = l.length / 4
      then word l k ||| b.toUInt32 <<< UInt32.ofNat (8 * (l.length % 4)) else word l k := by
  have hdiv : 4 * (l.length / 4) + l.length % 4 = l.length := Nat.div_add_mod _ _
  have hmod : l.length % 4 < 4 := Nat.mod_lt _ (by decide)
  split
  · rename_i hk
    have hlen : (l.drop (4 * k)).length = l.length % 4 := by
      rw [List.length_drop]
      omega
    have htake : (l.drop (4 * k)).take 4 = l.drop (4 * k) := List.take_of_length_le (by omega)
    have hsnoc : ((l ++ [b]).drop (4 * k)).take 4 = l.drop (4 * k) ++ [b] := by
      rw [List.drop_append_of_le_length (by omega), List.take_of_length_le]
      rw [List.length_append, hlen, List.length_singleton]
      omega
    have hlt := bytesValue_lt (l.drop (4 * k))
    rw [hlen] at hlt
    rw [word, word, hsnoc, htake, bytesValue_snoc, hlen]
    exact ofNat_snoc hlt hmod b
  · rename_i hk
    have hsame : ((l ++ [b]).drop (4 * k)).take 4 = (l.drop (4 * k)).take 4 := by
      rcases Nat.lt_or_ge k (l.length / 4) with hlt | hge
      · rw [List.drop_append_of_le_length (by omega), List.take_append_of_le_length]
        rw [List.length_drop]
        omega
      · rw [List.drop_eq_nil_of_le, List.drop_eq_nil_of_le]
        · omega
        · rw [List.length_append, List.length_singleton]
          omega
    rw [word, word, hsame]

/-- Zeros at the end change nothing. -/
theorem word_zeros (l : List UInt8) (n k : Nat) : word (l ++ List.replicate n 0) k = word l k := by
  induction n with
  | zero => rw [List.replicate_zero, List.append_nil]
  | succ n ih =>
    rw [List.replicate_succ', ← List.append_assoc, word_snoc, ih]
    split
    · simp
    · rfl

/-- What is behind a word does not matter. -/
theorem word_append_left {l : List UInt8} {k : Nat} (h : 4 * k + 4 ≤ l.length) (m : List UInt8) :
    word (l ++ m) k = word l k := by
  rw [word, word, List.drop_append_of_le_length (by omega), List.take_append_of_le_length]
  rw [List.length_drop]
  omega

/-- Neither does what is before it. -/
theorem word_append_right {l : List UInt8} {k : Nat} (h : l.length = 4 * k) (m : List UInt8)
    (j : Nat) : word (l ++ m) (k + j) = word m j := by
  rw [word, word, Nat.mul_add, ← h, List.drop_append, List.drop_eq_nil_of_le (by omega),
    List.nil_append, Nat.add_sub_cancel_left]

theorem word_past {l : List UInt8} {k : Nat} (h : l.length ≤ 4 * k) : word l k = 0 := by
  rw [word, List.drop_eq_nil_of_le h]
  rfl

/-- The two words of a number of 64 bits. -/
theorem word_lowFirst_zero (n : Nat) : word (lowFirst 8 n) 0 = UInt32.ofNat n := by
  have h : bytesValue ((lowFirst 8 n).take 4) = n % 2 ^ 32 := by
    simp only [lowFirst, List.range_succ_eq_map, List.range_zero, List.map_nil, List.map_cons,
      List.take_succ_cons, List.take_zero, bytesValue, Nat.ofDigits_cons, Nat.ofDigits_nil,
      UInt8.toNat_ofNat']
    simp
    omega
  rw [word, Nat.mul_zero, List.drop_zero, h]
  apply UInt32.toNat.inj
  rw [UInt32.toNat_ofNat', UInt32.toNat_ofNat', Nat.mod_mod]

theorem word_lowFirst_one (n : Nat) : word (lowFirst 8 n) 1 = UInt32.ofNat (n / 2 ^ 32) := by
  have h : bytesValue (((lowFirst 8 n).drop 4).take 4) = n / 2 ^ 32 % 2 ^ 32 := by
    simp only [lowFirst, List.range_succ_eq_map, List.range_zero, List.map_nil, List.map_cons,
      List.drop_succ_cons, List.drop_zero,
      List.take_succ_cons, List.take_zero, bytesValue, Nat.ofDigits_cons, Nat.ofDigits_nil,
      UInt8.toNat_ofNat']
    simp
    omega
  rw [word, h]
  apply UInt32.toNat.inj
  rw [UInt32.toNat_ofNat', UInt32.toNat_ofNat', Nat.mod_mod]

end Words

section Blocks

theorem blocks_nil : blocks [] = [] := rfl

theorem blocks_cons {block : List UInt8} (h : block.length = 64) (rest : List UInt8) :
    blocks (block ++ rest) = block :: blocks rest := by
  have hcount : (block ++ rest).length / 64 = rest.length / 64 + 1 := by
    rw [List.length_append, h]
    omega
  rw [blocks, hcount, List.range_succ_eq_map, List.map_cons, List.map_map, Nat.mul_zero,
    List.drop_zero, List.take_append_of_le_length (by omega), List.take_of_length_le (by omega)]
  refine congrArg (block :: ·) (List.map_congr_left fun i _ => ?_)
  have hdrop : (block ++ rest).drop (64 * (i + 1)) = rest.drop (64 * i) := by
    rw [List.drop_append, List.drop_eq_nil_of_le (by omega), List.nil_append, h]
    congr 1
  exact congrArg (List.take 64) hdrop

theorem pad_length (message : List UInt8) : (pad message).length % 64 = 0 := by
  simp only [pad, List.length_append, List.length_cons, List.length_replicate, lowFirst_length]
  omega

end Blocks

end FilemanagerHttpd.Library.Md5
