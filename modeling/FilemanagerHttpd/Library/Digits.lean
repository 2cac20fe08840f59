import Mathlib

/-!
# Numbers in positional notation, as bytes

Bases up to 36, with the letters for the digits from ten on. Digits are written in
lower case and read in either case.
-/

namespace FilemanagerHttpd.Library

/-- The value of a digit, or 36 for a byte that is none. -/
def digitVal (b : UInt8) : Nat :=
  if 48 ≤ b ∧ b ≤ 57 then b.toNat - 48
  else if 97 ≤ b ∧ b ≤ 122 then b.toNat - 87
  else if 65 ≤ b ∧ b ≤ 90 then b.toNat - 55
  else 36

def isDigit (base : Nat) (b : UInt8) : Bool := digitVal b < base

def digitsVal (base : Nat) (ds : List UInt8) : Nat :=
  ds.foldl (fun n d => n * base + digitVal d) 0

def digits (base n : Nat) : List UInt8 :=
  (Nat.toDigits base n).map fun c => c.toNat.toUInt8

theorem digits_ne_nil (base n : Nat) : digits base n ≠ [] := by
  simp [digits]

theorem digitVal_digitChar {d : Nat} (hd : d < 16) :
    digitVal d.digitChar.toNat.toUInt8 = d := by
  interval_cases d <;> decide

theorem digits_of_lt {base n : Nat} (h : n < base) :
    digits base n = [n.digitChar.toNat.toUInt8] := by
  rw [digits, Nat.toDigits_of_lt_base h]; rfl

theorem digits_of_le {base n : Nat} (hb : 1 < base) (h : base ≤ n) :
    digits base n = digits base (n / base) ++ [(n % base).digitChar.toNat.toUInt8] := by
  rw [digits, Nat.toDigits_of_base_le hb h, List.map_append]; rfl

theorem digitsVal_snoc (base : Nat) (ds : List UInt8) (d : UInt8) :
    digitsVal base (ds ++ [d]) = digitsVal base ds * base + digitVal d := by
  simp [digitsVal]

/-- Reading what was written gives the number back. -/
theorem digitsVal_digits {base : Nat} (hb : 1 < base) (hb' : base ≤ 16) (n : Nat) :
    digitsVal base (digits base n) = n := by
  induction n using Nat.strongRecOn with
  | ind n ih =>
    by_cases h : n < base
    · rw [digits_of_lt h]
      simpa [digitsVal] using digitVal_digitChar (by omega : n < 16)
    · have hle : base ≤ n := by omega
      have hmod : n % base < base := Nat.mod_lt _ (by omega)
      rw [digits_of_le hb hle, digitsVal_snoc, ih _ (Nat.div_lt_self (by omega) hb),
        digitVal_digitChar (by omega), Nat.mul_comm]
      exact Nat.div_add_mod n base

theorem isDigit_of_mem_digits {base : Nat} (hb : 1 < base) (hb' : base ≤ 16) {n : Nat}
    {b : UInt8} (h : b ∈ digits base n) : isDigit base b = true := by
  induction n using Nat.strongRecOn with
  | ind n ih =>
    by_cases hn : n < base
    · rw [digits_of_lt hn, List.mem_singleton] at h
      rw [h, isDigit, digitVal_digitChar (by omega)]
      exact decide_eq_true hn
    · rw [digits_of_le hb (by omega), List.mem_append, List.mem_singleton] at h
      rcases h with h | h
      · exact ih _ (Nat.div_lt_self (by omega) hb) h
      · have hmod : n % base < base := Nat.mod_lt _ (by omega)
        rw [h, isDigit, digitVal_digitChar (by omega)]
        exact decide_eq_true hmod

theorem length_digits_le {base n k : Nat} (hb : 1 < base) (hk : 0 < k) (h : n < base ^ k) :
    (digits base n).length ≤ k := by
  rw [digits, List.length_map]
  exact (Nat.length_toDigits_le_iff hb hk).mpr h

/-- A byte that is no digit does not occur in a number. -/
theorem not_mem_digits {base : Nat} (hb : 1 < base) (hb' : base ≤ 16) {n : Nat} {b : UInt8}
    (h : isDigit base b = false) : b ∉ digits base n :=
  fun hm => by rw [isDigit_of_mem_digits hb hb' hm] at h; cases h

/-- The digits that start a text, and the rest, when no digit follows. -/
theorem takeWhile_digits {base : Nat} (hb : 1 < base) (hb' : base ≤ 16) (n : Nat)
    {b : UInt8} (rest : List UInt8) (h : isDigit base b = false) :
    (digits base n ++ b :: rest).takeWhile (isDigit base) = digits base n ∧
      (digits base n ++ b :: rest).dropWhile (isDigit base) = b :: rest := by
  have hall : ∀ x ∈ digits base n, isDigit base x = true := fun x hx =>
    isDigit_of_mem_digits hb hb' hx
  constructor
  · rw [List.takeWhile_append_of_pos hall, List.takeWhile_cons_of_neg (by simp [h]),
      List.append_nil]
  · rw [List.dropWhile_append_of_pos hall, List.dropWhile_cons_of_neg (by simp [h])]

end FilemanagerHttpd.Library
