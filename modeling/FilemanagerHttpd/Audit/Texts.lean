import FilemanagerHttpd.Audit.BufferBytes

/-!
# What the text functions find
-/

namespace FilemanagerHttpd.Audit

open Library Server

section Search

/-- What is dropped ends before a byte that fails the test. -/
theorem head?_of_dropWhile {test : Byte → Bool} {s : Bytes} {b : Byte}
    (h : (s.dropWhile test).head? = some b) : test b = false := by
  have hhead := List.head?_dropWhile_not test s
  rw [h] at hhead
  exact hhead

theorem splitAtByte_eq {c : Byte} {s before rest : Bytes}
    (h : splitAtByte c s = some (before, rest)) : c ∉ before ∧ s = before ++ c :: rest := by
  induction s generalizing before with
  | nil => cases h
  | cons b s ih =>
    rw [splitAtByte] at h
    split at h
    · rename_i hb
      obtain ⟨rfl, rfl⟩ : [] = before ∧ s = rest := by simpa using h
      exact ⟨List.not_mem_nil, by rw [hb]; rfl⟩
    · rename_i hb
      cases hs : splitAtByte c s with
      | none => rw [hs] at h; cases h
      | some p =>
        obtain ⟨p₁, p₂⟩ := p
        rw [hs] at h
        obtain ⟨rfl, rfl⟩ : b :: p₁ = before ∧ p₂ = rest := by simpa using h
        obtain ⟨hnot, rfl⟩ := ih hs
        refine ⟨?_, rfl⟩
        intro hm
        rcases List.mem_cons.mp hm with rfl | hm
        · exact hb rfl
        · exact hnot hm

theorem splitAtByte_append {c : Byte} {before : Bytes} (rest : Bytes) (h : c ∉ before) :
    splitAtByte c (before ++ c :: rest) = some (before, rest) := by
  induction before with
  | nil => simp [splitAtByte]
  | cons b before ih =>
    have hb : ¬ b = c := fun he => h (he ▸ List.mem_cons_self)
    rw [List.cons_append, splitAtByte, if_neg hb, ih fun hm => h (.tail _ hm)]
    rfl

theorem not_mem_of_splitAtByte {c : Byte} {s : Bytes} (h : splitAtByte c s = none) : c ∉ s := by
  induction s with
  | nil => exact List.not_mem_nil
  | cons b s ih =>
    rw [splitAtByte] at h
    split at h
    · cases h
    · rename_i hb
      rw [Option.map_eq_none_iff] at h
      intro hm
      rcases List.mem_cons.mp hm with rfl | hm
      · exact hb rfl
      · exact ih h hm

theorem splitAtByte_none {c : Byte} {s : Bytes} (h : c ∉ s) : splitAtByte c s = none := by
  cases hs : splitAtByte c s with
  | none => rfl
  | some p =>
    obtain ⟨before, rest⟩ := p
    obtain ⟨-, rfl⟩ := splitAtByte_eq hs
    exact absurd (List.mem_append_right _ List.mem_cons_self) h

end Search

section Numbers

theorem le_of_isDigit {base : Nat} {b : Byte} (hb : base ≤ 36) (h : isDigit base b = true) :
    48 ≤ b.toNat := by
  have hd : digitVal b < base := of_decide_eq_true h
  simp only [digitVal, UInt8.le_iff_toNat_le, UInt8.reduceToNat] at hd
  split at hd
  · omega
  · split at hd
    · omega
    · split at hd <;> omega

theorem isSpace_of_isDigit {base : Nat} {b : Byte} (hb : base ≤ 36)
    (h : isDigit base b = true) : isSpace b = false := by
  have hle := le_of_isDigit hb h
  simp only [isSpace, space, Bool.or_eq_false_iff, beq_eq_false_iff_ne, Bool.and_eq_false_iff,
    decide_eq_false_iff_not, UInt8.le_iff_toNat_le, UInt8.reduceToNat]
  refine ⟨?_, .inr (by omega)⟩
  rintro rfl
  exact absurd hle (by decide)

theorem ne_of_isDigit {base : Nat} {b c : Byte} (hc : isDigit base c = false)
    (h : isDigit base b = true) : b ≠ c := by
  rintro rfl
  rw [h] at hc
  cases hc

/-- What follows a number: no digit, nothing that makes a zero the prefix of one. -/
def EndsNumber (base : Nat) (rest : Bytes) : Prop :=
  ∀ b ∈ rest.head?, isDigit base b = false ∧ b ≠ 120 ∧ b ≠ 88

theorem takeWhile_isDigit {base : Nat} {ds rest : Bytes} (hds : ∀ b ∈ ds, isDigit base b = true)
    (hrest : EndsNumber base rest) : (ds ++ rest).takeWhile (isDigit base) = ds := by
  rw [List.takeWhile_append_of_pos hds]
  cases rest with
  | nil => rw [List.takeWhile_nil, List.append_nil]
  | cons b rest =>
    rw [List.takeWhile_cons_of_neg (by simp [(hrest b rfl).1]), List.append_nil]

theorem stripHexPrefix_digits {ds rest : Bytes} (hds : ∀ b ∈ ds, isDigit 16 b = true)
    (hne : ds ≠ []) (hrest : EndsNumber 16 rest) : stripHexPrefix (ds ++ rest) = ds ++ rest := by
  -- the second byte is a digit or follows the number, so it is no letter of the prefix
  have hsecond : ∀ a b c t, ds ++ rest = a :: b :: c :: t → b ≠ 120 ∧ b ≠ 88 := by
    intro a b c t he
    match ds with
    | [] => exact absurd rfl hne
    | [d] =>
      have htail : rest = b :: c :: t := (List.cons.inj he).2
      have hb : b ∈ rest.head? := by rw [htail]; rfl
      exact (hrest b hb).2
    | d :: e :: ds =>
      have hb : isDigit 16 b = true := by
        have h₂ := (List.cons.inj he).2
        rw [← (List.cons.inj h₂).1]
        exact hds e (by simp)
      exact ⟨ne_of_isDigit (by decide) hb, ne_of_isDigit (by decide) hb⟩
  unfold stripHexPrefix
  split
  · rename_i he; exact absurd rfl (hsecond _ _ _ _ he).1
  · rename_i he; exact absurd rfl (hsecond _ _ _ _ he).2
  · rfl

/-- The number that a text starts with. -/
theorem strtoul_digits {base : Nat} {ds rest : Bytes} (hbase : base ≤ 36) (hne : ds ≠ [])
    (hds : ∀ b ∈ ds, isDigit base b = true) (hrest : EndsNumber base (cstr rest)) :
    strtoul base (ds ++ rest) =
      if ulongSize ≤ digitsVal base ds then ulongSize - 1 else digitsVal base ds := by
  obtain ⟨d, ds', rfl⟩ := List.exists_cons_of_ne_nil hne
  have hd : isDigit base d = true := hds d List.mem_cons_self
  have hcstr : cstr (d :: ds' ++ rest) = d :: ds' ++ cstr rest := by
    rw [cstr, List.takeWhile_append_of_pos]
    · rfl
    · intro b hb
      have hle := le_of_isDigit hbase (hds b hb)
      have hnul : b ≠ nul := by
        rintro rfl
        exact absurd hle (by decide)
      simpa using hnul
  have hspace : (d :: ds' ++ cstr rest).dropWhile isSpace = d :: ds' ++ cstr rest := by
    rw [List.cons_append, List.dropWhile_cons_of_neg (by simp [isSpace_of_isDigit hbase hd])]
  have hsign : stripSign (d :: ds' ++ cstr rest) = (false, d :: ds' ++ cstr rest) := by
    have hle := le_of_isDigit hbase hd
    rw [List.cons_append]
    unfold stripSign
    split
    · rename_i he
      rw [(List.cons.inj he).1] at hle
      exact absurd hle (by decide)
    · rename_i he
      rw [(List.cons.inj he).1] at hle
      exact absurd hle (by decide)
    · rfl
  have hhex : (if base = 16 then stripHexPrefix (d :: ds' ++ cstr rest)
      else d :: ds' ++ cstr rest) = d :: ds' ++ cstr rest := by
    split
    · rename_i hb
      subst hb
      exact stripHexPrefix_digits hds hne hrest
    · rfl
  unfold strtoul
  simp only [hcstr, hspace, hsign, hhex, takeWhile_isDigit hds hrest, Bool.false_eq_true, if_false]

end Numbers

end FilemanagerHttpd.Audit
