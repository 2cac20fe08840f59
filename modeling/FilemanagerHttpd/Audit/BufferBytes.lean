import FilemanagerHttpd.Server.Memory

/-!
# What the buffer functions put where
-/

namespace FilemanagerHttpd.Audit

open Library Server

/-- A sequence that succeeds has succeeded in both parts. -/
theorem bind_ok {α β : Type} {x : Except Fault α} {f : α → Except Fault β} {b : β}
    (h : (x >>= f) = .ok b) : ∃ a, x = .ok a ∧ f a = .ok b := by
  cases x with
  | error e => cases h
  | ok a => exact ⟨a, rfl, h⟩

/-- Text without a zero byte is a whole C string. -/
theorem cstr_eq_self {b : Bytes} (h : nul ∉ b) : cstr b = b := by
  rw [cstr, List.takeWhile_eq_self_iff]
  intro x hx
  simpa using fun he : x = nul => h (he ▸ hx)

theorem nul_not_mem_cstr (b : Bytes) : nul ∉ cstr b := by
  intro h
  have hp := List.mem_takeWhile_imp h
  simp at hp

@[simp] theorem cstr_cstr (b : Bytes) : cstr (cstr b) = cstr b :=
  cstr_eq_self (nul_not_mem_cstr b)

theorem mbAppendData_ok {mb mb' : MemBuf} {data : Bytes} (h : mbAppendData mb data = .ok mb') :
    mb'.data = mb.data ++ data := by
  unfold mbAppendData at h
  split at h
  · injection h with h; rw [← h]
  · cases h

theorem mbAppendStr_ok {mb mb' : MemBuf} {str : Bytes} (hn : nul ∉ str)
    (h : mbAppendStr mb str = .ok mb') : mb'.data = mb.data ++ str := by
  rw [mbAppendStr, cstr_eq_self hn] at h
  exact mbAppendData_ok h

theorem mbNewWithStr_ok {mb : MemBuf} {str : Bytes} (hn : nul ∉ str)
    (h : mbNewWithStr str = .ok mb) : mb.data = str := by
  rw [mbAppendStr_ok hn h]; rfl

theorem mbEnsureEndsWithSlash_ok {mb mb' : MemBuf} (h : mbEnsureEndsWithSlash mb = .ok mb') :
    mb'.data = if mb.data.getLast? = some slash then mb.data else mb.data ++ [slash] := by
  unfold mbEnsureEndsWithSlash mbEndsWithSlash at h
  by_cases hend : mb.data.getLast? = some slash
  · rw [if_pos (by simpa using hend)] at h
    rw [if_pos hend, Except.ok.inj h]
  · rw [if_neg (by simpa using hend)] at h
    rw [if_neg hend, mbAppendData_ok h]

theorem mbNewWithStr_fits {str : Bytes} (hn : nul ∉ str) (h : str.length + 1 < uintSize) :
    mbNewWithStr str = .ok ⟨str⟩ := by
  rw [mbNewWithStr, mbAppendStr, cstr_eq_self hn, mbAppendData, if_pos]
  · rfl
  · show 0 + str.length + 1 < uintSize
    omega

/-- A path gets a slash when it has none at its end. -/
theorem mbEnsureEndsWithSlash_fits {mb : MemBuf} (hn : nul ∉ mb.data)
    (h : mb.dataLen + 2 < uintSize) : ∃ mb', mbEnsureEndsWithSlash mb = .ok mb' ∧
      mb'.data = (if mb.data.getLast? = some slash then mb.data else mb.data ++ [slash]) ∧
        nul ∉ mb'.data := by
  rw [mbEnsureEndsWithSlash, mbEndsWithSlash]
  by_cases hend : mb.data.getLast? = some slash
  · rw [if_pos (by simpa using hend), if_pos hend]
    exact ⟨mb, rfl, rfl, hn⟩
  · have hone : mb.dataLen + [slash].length + 1 < uintSize := h
    rw [if_neg (by simpa using hend), if_neg hend, mbAppendData, if_pos hone]
    refine ⟨_, rfl, rfl, fun hmem => ?_⟩
    rcases List.mem_append.mp hmem with hmem | hmem
    · exact hn hmem
    · exact absurd hmem (by decide)

/-- A name put behind the rest of a path. -/
theorem cstr_mbSetStrEnd {mb : MemBuf} {str : Bytes} (hm : nul ∉ mb.data) (hs : nul ∉ str) :
    cstr (mbSetStrEnd mb mb.dataLen str).data = mb.data ++ str := by
  have hno : nul ∉ mb.data ++ str := by
    intro h
    rcases List.mem_append.mp h with h | h
    · exact hm h
    · exact hs h
  have htext : (mbSetStrEnd mb mb.dataLen str).data = mb.data ++ str ++ [nul] := by
    rw [mbSetStrEnd, MemBuf.dataLen, List.take_length, cstr_eq_self hs]
  rw [htext, cstr, List.takeWhile_append_of_pos]
  · simp
  · intro b hb
    simpa using fun he : b = nul => hno (he ▸ hb)

theorem nul_not_mem_digits {base : Nat} (hb : 1 < base) (hb' : base ≤ 16) (n : Nat) :
    nul ∉ digits base n :=
  not_mem_digits hb hb' (by
    have h : digitVal nul = 36 := by decide
    rw [isDigit, h]; exact decide_eq_false (by omega))

theorem length_overwrite {b data : Bytes} {offset : Nat} (h : offset + data.length ≤ b.length) :
    (overwrite b offset data).length = b.length := by
  simp only [overwrite, List.length_append, List.length_take, List.length_drop]; omega

/-- The bytes before the end of what was put into the buffer. -/
theorem take_overwrite {b data : Bytes} {offset : Nat} (h : offset + data.length ≤ b.length) :
    (overwrite b offset data).take (offset + data.length) = b.take offset ++ data := by
  have hl : (b.take offset ++ data).length = offset + data.length := by
    rw [List.length_append, List.length_take]; omega
  rw [overwrite, List.take_append_of_le_length (by omega), ← hl, List.take_length]

/-- The bytes from what was put into the buffer on. -/
theorem drop_overwrite {b data : Bytes} {offset : Nat} (h : offset + data.length ≤ b.length) :
    (overwrite b offset data).drop offset = data ++ b.drop (offset + data.length) := by
  have hl : (b.take offset).length = offset := by rw [List.length_take]; omega
  rw [overwrite, List.append_assoc, List.drop_append_of_le_length (by omega)]
  simp [hl, List.drop_eq_nil_of_le]

theorem mbSetData_ok {mb mb' : MemBuf} {offset : Nat} {data : Bytes}
    (h : mbSetData mb offset data = .ok mb') :
    offset + data.length ≤ mb.dataLen ∧ mb'.data = overwrite mb.data offset data := by
  unfold mbSetData at h
  split at h
  · cases h
  · injection h with h
    exact ⟨by omega, by rw [← h]⟩

end FilemanagerHttpd.Audit
