import FilemanagerHttpd.Library.Md5
import FilemanagerHttpd.Server.Md5Calc

/-!
# MD5 sums are message digests

The loop makes the blocks of the padded message one after the other, and its four words take the
places of the registers in turn.
-/

namespace FilemanagerHttpd.Audit

open Library Server Library.Md5

section Steps

/-- The words of the source before a step: the registers that its operation takes. -/
def inTurn (regs : Registers) (j : Nat) : Md5Words :=
  ⟨regs (- Fin.ofNat 4 j), regs (- Fin.ofNat 4 j + 1), regs (- Fin.ofNat 4 j + 2),
    regs (- Fin.ofNat 4 j + 3)⟩

theorem md5Sin_eq {i : Nat} (h : i < 64) : md5Sin.getD i 0 = sineWord (i + 1) := by
  have hchecked : ∀ i < 64, sineChecked i (md5Sin.getD i 0).toNat = true := by decide +kernel
  rw [sineWord, floor_of_checked (hchecked i h), UInt32.ofNat_toNat]

theorem md5Shift_eq {i : Nat} (h : i < 64) : (md5Shift.getD (i / 16) []).getD (i % 4) 0 =
    UInt32.ofNat ((rotations.getD (i / 16) []).getD (i % 4) 0) := by
  have hall : ∀ i < 64, (md5Shift.getD (i / 16) []).getD (i % 4) 0 =
      UInt32.ofNat ((rotations.getD (i / 16) []).getD (i % 4) 0) := by decide +kernel
  exact hall i h

/-- The word of the block and the function of a step, in each of the four rounds. -/
theorem md5Step_word (X : Md5Block) (w : Md5Words) {i : Nat} (h : i < 64) :
    (if i < 16 then (w.b &&& w.c ||| ~~~ w.b &&& w.d) + X i
      else if i < 32 then (w.d &&& w.b ||| ~~~ w.d &&& w.c) + X ((5 * i + 1) &&& 0xf)
      else if i < 48 then (w.b ^^^ w.c ^^^ w.d) + X ((3 * i + 5) &&& 0xf)
      else (w.c ^^^ (w.b ||| ~~~ w.d)) + X ((7 * i) &&& 0xf)) =
    mixing (i / 16) w.b w.c w.d + X (wordOrder.getD i 0) := by
  have horder : ∀ i < 64, wordOrder.getD i 0 = if i < 16 then i
      else if i < 32 then (5 * i + 1) &&& 0xf
      else if i < 48 then (3 * i + 5) &&& 0xf
      else (7 * i) &&& 0xf := by decide +kernel
  rw [horder i h]
  by_cases h₁ : i < 16
  · rw [if_pos h₁, if_pos h₁, Nat.div_eq_of_lt h₁]
    rfl
  by_cases h₂ : i < 32
  · rw [if_neg h₁, if_pos h₂, if_neg h₁, if_pos h₂, show i / 16 = 1 by omega, UInt32.and_comm w.d,
      UInt32.and_comm (~~~ w.d)]
    rfl
  by_cases h₃ : i < 48
  · rw [if_neg h₁, if_neg h₂, if_pos h₃, if_neg h₁, if_neg h₂, if_pos h₃, show i / 16 = 2 by omega]
    rfl
  · rw [if_neg h₁, if_neg h₂, if_neg h₃, if_neg h₁, if_neg h₂, if_neg h₃, show i / 16 = 3 by omega]
    rfl

/-- A step is an operation, and the next words are those of the next operation. -/
theorem md5Step_operation (X : Md5Block) (regs : Registers) {i : Nat} (h : i < 64) :
    md5Step X (inTurn regs i) i = inTurn (operation X regs i) (i + 1) := by
  have hnext : - Fin.ofNat 4 (i + 1) = - Fin.ofNat 4 i + (3 : Fin 4) := by
    have hsucc : Fin.ofNat 4 (i + 1) = Fin.ofNat 4 i + 1 := by
      apply Fin.ext
      simp [Fin.ofNat, Fin.val_add]
    have hneg : ∀ x : Fin 4, - (x + 1) = - x + 3 := by decide
    rw [hsucc, hneg]
  have hturn : ∀ a : Fin 4, a + 3 + 1 = a ∧ a + 3 + 2 = a + 1 ∧ a + 3 + 3 = a + 2 ∧
      a + 1 ≠ a ∧ a + 2 ≠ a ∧ a + 3 ≠ a := by decide
  obtain ⟨h₁, h₂, h₃, hne₁, hne₂, hne₃⟩ := hturn (- Fin.ofNat 4 i)
  simp only [md5Step, md5Step_word X (inTurn regs i) h, md5Shift_eq h, md5Sin_eq h]
  simp only [inTurn, hnext, h₁, h₂, h₃, operation, Function.update_self, Function.update_of_ne hne₁,
    Function.update_of_ne hne₂, Function.update_of_ne hne₃, rotateLeft]
  have hsum : ∀ f x a t : UInt32, f + x + a + t = a + f + x + t := by
    intro f x a t
    rw [UInt32.add_comm (f + x) a, ← UInt32.add_assoc]
  rw [hsum]

/-- The first operations. -/
theorem md5Steps_operations (X : Md5Block) (regs : Registers) {n : Nat} (h : n ≤ 64) :
    (List.range n).foldl (md5Step X) (inTurn regs 0) =
      inTurn ((List.range n).foldl (operation X) regs) n := by
  induction n with
  | zero => rfl
  | succ n ih =>
    rw [List.range_succ, List.foldl_append, List.foldl_append, ih (by omega)]
    exact md5Step_operation X _ h

/-- The steps of a round are the compression function. -/
theorem md5Mix_compress (X : Md5Block) (regs : Registers) :
    md5Mix (inTurn regs 0) X = inTurn (compress regs X) 0 := by
  rw [md5Mix, md5Steps_operations X regs (le_refl 64)]
  rfl

end Steps

section Blocks

variable {bytes : Bytes} {bits : UInt64} {Q : Md5Words}

theorem md5OrByte_word (l : Bytes) (b : Byte) :
    md5OrByte (word l) l.length b = word (l ++ [b]) := by
  funext k
  rw [md5OrByte, Function.update_apply, word_snoc]
  split
  · rename_i hk
    rw [hk]
  · rfl

/-- The bytes that are copied. -/
theorem md5Copy_word {n : Nat} (h : n ≤ bytes.length) :
    (List.range n).foldl (fun X i => md5OrByte X i (bytes.getD i 0)) (fun _ => 0) =
      word (bytes.take n) := by
  induction n with
  | zero =>
    funext k
    exact (word_past (Nat.zero_le _)).symm
  | succ n ih =>
    have hlen : (bytes.take n).length = n := by
      rw [List.length_take]
      omega
    have hsnoc : bytes.take (n + 1) = bytes.take n ++ [bytes.getD n 0] := by
      rw [List.take_succ_eq_append_getElem (by omega), List.getD_eq_getElem _ _ (by omega)]
    rw [List.range_succ, List.foldl_append, ih (by omega), hsnoc, ← md5OrByte_word, hlen]
    rfl

/-- A block of the message itself. -/
theorem md5Round_whole (h : 64 ≤ bytes.length) :
    md5Round bits ⟨some bytes, bytes.length, Q⟩ =
      ⟨some (bytes.drop 64), (bytes.drop 64).length, md5Mix Q (word (bytes.take 64))⟩ := by
  have hcopied : (if 64 < bytes.length then 64 else bytes.length) = 64 := by
    split
    · rfl
    · omega
  have hfill : md5Fill (some bytes) bytes.length =
      (word (bytes.take 64), some (bytes.drop 64), (bytes.drop 64).length) := by
    simp only [md5Fill, hcopied, md5Copy_word h, if_pos h, List.length_drop]
  simp only [md5Round, hfill]
  exact if_neg fun hend => nomatch hend.1

/-- The end of the message and the mark behind it. -/
theorem md5Fill_end (h : bytes.length < 64) :
    md5Fill (some bytes) bytes.length = (word (bytes ++ [128]), none, bytes.length + 1) := by
  have hcopied : (if 64 < bytes.length then 64 else bytes.length) = bytes.length :=
    if_neg (by omega)
  simp only [md5Fill, hcopied, md5Copy_word (le_refl _), if_neg (Nat.not_le.mpr h),
    List.take_length]
  rw [← md5OrByte_word]

/-- The number of bits goes into the last two words of a block. -/
theorem md5Bits_word {l : Bytes} {total : Nat} (hl : l.length ≤ 56)
    (hlow : bits.toUInt32 = UInt32.ofNat total)
    (hhigh : (bits >>> 32).toUInt32 = UInt32.ofNat (total / 2 ^ 32)) :
    Function.update (Function.update (word l) 14 bits.toUInt32) 15 (bits >>> 32).toUInt32 =
      word (l ++ List.replicate (56 - l.length) 0 ++ lowFirst 8 total) := by
  have hlen : (l ++ List.replicate (56 - l.length) (0 : UInt8)).length = 4 * 14 := by
    rw [List.length_append, List.length_replicate]
    omega
  funext k
  rw [Function.update_apply, Function.update_apply]
  by_cases h₁₅ : k = 15
  · rw [if_pos h₁₅, hhigh, h₁₅, word_append_right hlen (lowFirst 8 total) 1, word_lowFirst_one]
  rw [if_neg h₁₅]
  by_cases h₁₄ : k = 14
  · rw [if_pos h₁₄, hlow, h₁₄, word_append_right hlen (lowFirst 8 total) 0, word_lowFirst_zero]
  rw [if_neg h₁₄]
  rcases Nat.lt_or_ge k 14 with hlt | hge
  · rw [word_append_left (by omega), word_zeros]
  · rw [word_past (by omega), word_past]
    rw [List.length_append, hlen, lowFirst_length]
    omega

/-- The rest of a message with its padding. -/
def padRest (bytes : Bytes) (total : Nat) : Bytes :=
  bytes ++ 128 :: List.replicate ((119 - bytes.length % 64) % 64) 0 ++ lowFirst 8 total

/-- The last rounds, when less than a block is left. -/
theorem md5Loop_end {total n : Nat} (regs : Registers) (h : bytes.length < 64)
    (hlow : bits.toUInt32 = UInt32.ofNat total)
    (hhigh : (bits >>> 32).toUInt32 = UInt32.ofNat (total / 2 ^ 32)) :
    md5Loop bits (n + 2) (md5Round bits ⟨some bytes, bytes.length, inTurn regs 0⟩) =
      some (inTurn ((blocks (padRest bytes total)).foldl
        (fun regs block => compress regs (word block)) regs) 0) := by
  have hmarked : (bytes ++ [(128 : UInt8)]).length = bytes.length + 1 := by
    rw [List.length_append, List.length_singleton]
  have hmod : bytes.length % 64 = bytes.length := Nat.mod_eq_of_lt h
  by_cases hfits : bytes.length + 1 ≤ 56
  · -- the number of bits fits into the same block
    have hpad : padRest bytes total = bytes ++ [128] ++
        List.replicate (56 - (bytes ++ [(128 : UInt8)]).length) 0 ++ lowFirst 8 total := by
      have hzeros : (119 - bytes.length % 64) % 64 = 56 - (bytes.length + 1) := by omega
      rw [padRest, hmarked, hzeros]
      simp
    have hlen : (padRest bytes total).length = 64 := by
      rw [hpad, List.length_append, List.length_append, List.length_replicate, lowFirst_length,
        hmarked]
      omega
    have hblocks : blocks (padRest bytes total) = [padRest bytes total] := by
      have hcons := blocks_cons hlen []
      rwa [List.append_nil, blocks_nil] at hcons
    have hround : md5Round bits ⟨some bytes, bytes.length, inTurn regs 0⟩ =
        ⟨none, 0, inTurn (compress regs (word (padRest bytes total))) 0⟩ := by
      have hbits := md5Bits_word (by omega : (bytes ++ [(128 : UInt8)]).length ≤ 56) hlow hhigh
      simp only [md5Round, md5Fill_end h]
      rw [if_pos ⟨trivial, hfits⟩, hbits, ← hpad, md5Mix_compress]
    rw [hround, hblocks]
    rfl
  · -- it goes into a block of its own
    have hblock :
        (bytes ++ [128] ++ List.replicate (63 - bytes.length) (0 : UInt8)).length = 64 := by
      rw [List.length_append, List.length_replicate, hmarked]
      omega
    have hlast : (List.replicate 56 (0 : UInt8) ++ lowFirst 8 total).length = 64 := by
      rw [List.length_append, List.length_replicate, lowFirst_length]
    have hpad : padRest bytes total = bytes ++ [128] ++ List.replicate (63 - bytes.length) 0 ++
        (List.replicate 56 0 ++ lowFirst 8 total) := by
      have hzeros : (119 - bytes.length % 64) % 64 = (63 - bytes.length) + 56 := by omega
      rw [padRest, hzeros, List.replicate_add]
      simp
    have hblocks : blocks (padRest bytes total) =
        [bytes ++ [128] ++ List.replicate (63 - bytes.length) 0,
          List.replicate 56 0 ++ lowFirst 8 total] := by
      have hcons := blocks_cons hlast []
      rw [List.append_nil, blocks_nil] at hcons
      rw [hpad, blocks_cons hblock, hcons]
    have hround : md5Round bits ⟨some bytes, bytes.length, inTurn regs 0⟩ =
        ⟨none, bytes.length + 1, inTurn (compress regs (word (bytes ++ [128] ++
          List.replicate (63 - bytes.length) 0))) 0⟩ := by
      simp only [md5Round, md5Fill_end h]
      have hword : word (bytes ++ [128] ++ List.replicate (63 - bytes.length) 0) =
          word (bytes ++ [128]) := funext fun k => word_zeros _ _ k
      rw [if_neg fun hend => hfits hend.2, md5Mix_compress, hword]
    have hlastRound : ∀ (count : Nat) (regs : Registers),
        md5Round bits ⟨none, count, inTurn regs 0⟩ =
          ⟨none, 0, inTurn (compress regs (word (List.replicate 56 0 ++ lowFirst 8 total))) 0⟩ := by
      intro count regs
      have hbits := md5Bits_word (l := []) (Nat.zero_le 56) hlow hhigh
      have hnone : word [] = fun _ => 0 := funext fun k => word_past (Nat.zero_le _)
      rw [hnone, List.nil_append, List.length_nil, Nat.sub_zero] at hbits
      simp only [md5Round, md5Fill]
      rw [if_pos ⟨trivial, Nat.zero_le 56⟩, hbits, md5Mix_compress]
    rw [hround, md5Loop, if_neg fun hend => Nat.succ_ne_zero _ hend.2, hlastRound, hblocks]
    rfl

/-- The loop folds the compression function over the blocks. -/
theorem md5Loop_blocks {total n : Nat} (regs : Registers) (hn : bytes.length / 64 + 3 ≤ n)
    (hlow : bits.toUInt32 = UInt32.ofNat total)
    (hhigh : (bits >>> 32).toUInt32 = UInt32.ofNat (total / 2 ^ 32)) :
    md5Loop bits n ⟨some bytes, bytes.length, inTurn regs 0⟩ =
      some (inTurn ((blocks (padRest bytes total)).foldl
        (fun regs block => compress regs (word block)) regs) 0) := by
  induction n generalizing bytes regs with
  | zero => omega
  | succ n ih =>
    rw [md5Loop, if_neg fun hend => nomatch hend.1]
    by_cases hwhole : 64 ≤ bytes.length
    · have hlen : (bytes.drop 64).length = bytes.length - 64 := List.length_drop
      have hpad : padRest bytes total = bytes.take 64 ++ padRest (bytes.drop 64) total := by
        have hmod : (bytes.length - 64) % 64 = bytes.length % 64 := by omega
        rw [padRest, padRest, hlen, hmod, ← List.append_assoc, ← List.append_assoc,
          List.take_append_drop]
      have hblock : (bytes.take 64).length = 64 := by
        rw [List.length_take]
        omega
      rw [md5Round_whole hwhole, md5Mix_compress, ih _ (by omega), hpad, blocks_cons hblock,
        List.foldl_cons]
    · obtain ⟨m, rfl⟩ : ∃ m, n = m + 2 := ⟨n - 2, by omega⟩
      exact md5Loop_end regs (by omega) hlow hhigh

end Blocks

section Print

theorem md5Hex_byte {x : UInt32} {n : Nat} (h : x.toNat = n) (hn : n < 256) :
    md5Hex x = [hexDigit (n / 16), hexDigit (n % 16)] := by
  have hall : ∀ n < 256, List.replicate (2 - (digits 16 n).length) 48 ++ digits 16 n =
      [hexDigit (n / 16), hexDigit (n % 16)] := by decide +kernel
  rw [md5Hex, h]
  exact hall n hn

/-- A word is printed byte by byte, the low-order one first. -/
theorem md5Print_eq (x : UInt32) : md5Print x = lowerHex (lowFirst 4 x.toNat) := by
  have hmask : ∀ y : UInt32, (y &&& 0xff).toNat = y.toNat % 256 := by
    intro y
    rw [UInt32.toNat_and]
    exact Nat.and_two_pow_sub_one_eq_mod y.toNat 8
  have hbyte : ∀ s : UInt32, s.toNat < 32 →
      (x >>> s &&& 0xff).toNat = x.toNat / 2 ^ s.toNat % 256 := by
    intro s hs
    rw [hmask, UInt32.toNat_shiftRight, Nat.mod_eq_of_lt hs, Nat.shiftRight_eq_div_pow]
  have hlt : ∀ n, n % 256 < 256 := fun n => Nat.mod_lt n (by decide)
  rw [md5Print, md5Hex_byte (hmask x) (hlt _), md5Hex_byte (hbyte 8 (by decide)) (hlt _),
    md5Hex_byte (hbyte 16 (by decide)) (hlt _), md5Hex_byte (hbyte 24 (by decide)) (hlt _)]
  simp [lowerHex, lowFirst, List.range_succ_eq_map]

end Print

/-- For fewer than `2 ^ 29` bytes the loop ends, with the digest in hexadecimal. -/
theorem md5_sum_is_digest (bytes : Bytes) (h : bytes.length < 2 ^ 29) :
    md5Calculate bytes = some (lowerHex (digest bytes)) := by
  have hbits : (UInt64.ofNat (8 * bytes.length % uintSize)).toNat = 8 * bytes.length := by
    have hmod : 8 * bytes.length % uintSize = 8 * bytes.length :=
      Nat.mod_eq_of_lt (by rw [uintSize]; omega)
    rw [UInt64.toNat_ofNat', hmod, Nat.mod_eq_of_lt (by omega)]
  have hlow : (UInt64.ofNat (8 * bytes.length % uintSize)).toUInt32 =
      UInt32.ofNat (8 * bytes.length) := by
    apply UInt32.toNat.inj
    rw [UInt64.toNat_toUInt32, hbits, UInt32.toNat_ofNat']
  have hhigh : (UInt64.ofNat (8 * bytes.length % uintSize) >>> 32).toUInt32 =
      UInt32.ofNat (8 * bytes.length / 2 ^ 32) := by
    apply UInt32.toNat.inj
    rw [UInt64.toNat_toUInt32, UInt64.toNat_shiftRight, hbits, UInt32.toNat_ofNat']
    exact congrArg (· % 2 ^ 32) (Nat.shiftRight_eq_div_pow _ 32)
  have hstart : (⟨0x67452301, 0xefcdab89, 0x98badcfe, 0x10325476⟩ : Md5Words) =
      inTurn initial 0 := rfl
  rw [md5Calculate, hstart, md5Loop_blocks initial (le_refl _) hlow hhigh, Option.map_some]
  simp only [md5Print_eq]
  rfl

theorem md5_sum_of_abc : (ascii "abc").length < 2 ^ 29 ∧
    lowerHex (digest (ascii "abc")) = ascii "900150983cd24fb0d6963f7d28e17f72" := by
  have hshort : (ascii "abc").length < 2 ^ 29 := by decide +kernel
  have hsum : md5Calculate (ascii "abc") = some (ascii "900150983cd24fb0d6963f7d28e17f72") := by
    decide +kernel
  exact ⟨hshort, Option.some.inj ((md5_sum_is_digest _ hshort).symm.trans hsum)⟩

end FilemanagerHttpd.Audit
