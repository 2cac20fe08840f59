import FilemanagerHttpd.Audit.BufferBlocks
import FilemanagerHttpd.Server.FolderPage

/-!
# The digits of a file size, spread within one buffer

The digits stand at the front of the buffer and their groups are written from its end. A group
needs eleven bytes and frees three, so what keeps the two apart is the number of digits.
-/

namespace FilemanagerHttpd.Audit

open Library Server

/-- The buffer and the variables `len` and `dest`. -/
structure SpreadState where
  buf : Bytes
  len : Nat
  dest : Nat

namespace SpreadState

/-- The digits of the next group. -/
def cpy (s : SpreadState) : Nat := if 3 < s.len then 3 else s.len

/-- One round of the loop, without a look at the bounds. -/
def round (s : SpreadState) : SpreadState :=
  let buf := overwrite s.buf (s.dest - thinSpace.length) thinSpace
  let dest := s.dest - thinSpace.length - s.cpy
  let len := s.len - s.cpy
  ⟨overwrite buf dest ((buf.drop len).take s.cpy), len, dest⟩

end SpreadState

/-- The states at the head of the loop. -/
inductive SpreadReaches (start : SpreadState) : SpreadState → Prop
  | start : SpreadReaches start start
  | round {s : SpreadState} : SpreadReaches start s → 0 < s.len → SpreadReaches start s.round

/-- What is printed into the buffer. -/
def sizeDigits (size : Nat) : Bytes := decimal ((size + 1023) / 1024)

def spreadStart (size : Nat) : SpreadState where
  buf := (sizeDigits size ++ List.replicate (sizeBuffer - (sizeDigits size).length) nul).set
    (sizeBuffer - 1) nul
  len := (sizeDigits size).length
  dest := sizeBuffer - 1

/-- What the next round writes is inside the buffer and behind all digits that are not copied yet,
and these are as they were printed. -/
structure SpreadSafe (ds : Bytes) (s : SpreadState) : Prop where
  inside : s.dest < sizeBuffer
  behind : s.len + s.cpy + thinSpace.length ≤ s.dest
  uncopied : s.buf.take s.len = ds.take s.len

/-- Groups of three from the right: only the first may be shorter. -/
def FromRight : List Bytes → Prop
  | [] => True
  | g :: rest => 0 < g.length ∧ g.length ≤ 3 ∧ ∀ h ∈ rest, h.length = 3

/-- Each group followed by a thin space. -/
def groupText (groups : List Bytes) : Bytes := groups.flatMap (· ++ thinSpace)

/-- A text without its separators. -/
def withoutThinSpaces : Bytes → Bytes
  | [] => []
  | b :: rest =>
    if thinSpace.isPrefixOf (b :: rest) then withoutThinSpaces (rest.drop 7)
    else b :: withoutThinSpaces rest
termination_by s => s.length

section Groups

variable {g : Bytes} {groups : List Bytes}

@[simp] theorem thinSpace_length : thinSpace.length = 8 := rfl

@[simp] theorem groupText_cons (g : Bytes) (groups : List Bytes) :
    groupText (g :: groups) = g ++ thinSpace ++ groupText groups := rfl

theorem groupText_length (h : ∀ g ∈ groups, g.length = 3) :
    (groupText groups).length = 11 * groups.length := by
  induction groups with
  | nil => rfl
  | cons g rest ih =>
    have hg := h g List.mem_cons_self
    have hrest := ih fun x hx => h x (List.mem_cons_of_mem _ hx)
    simp only [groupText_cons, List.length_append, thinSpace_length, List.length_cons]
    omega

theorem flatten_length (h : ∀ g ∈ groups, g.length = 3) :
    groups.flatten.length = 3 * groups.length := by
  induction groups with
  | nil => rfl
  | cons g rest ih =>
    have hg := h g List.mem_cons_self
    have hrest := ih fun x hx => h x (List.mem_cons_of_mem _ hx)
    simp only [List.flatten_cons, List.length_append, List.length_cons]
    omega

theorem not_mem_groupText {b : Byte} (h : b ∉ groups.flatten) (hb : b ∉ thinSpace) :
    b ∉ groupText groups := by
  induction groups with
  | nil => simp [groupText]
  | cons g rest ih =>
    rw [List.flatten_cons, List.mem_append, not_or] at h
    simp only [groupText_cons, List.mem_append, not_or]
    exact ⟨⟨h.1, hb⟩, ih h.2⟩

theorem thinSpace_eq : thinSpace = 38 :: ascii "thinsp;" := rfl

theorem withoutThinSpaces_group (h : (38 : Byte) ∉ g) (rest : Bytes) :
    withoutThinSpaces (g ++ thinSpace ++ rest) = g ++ withoutThinSpaces rest := by
  induction g with
  | nil =>
    have hhead : thinSpace.isPrefixOf (38 :: (ascii "thinsp;" ++ rest)) = true :=
      List.isPrefixOf_iff_prefix.mpr (List.prefix_append thinSpace rest)
    have htail : (ascii "thinsp;" ++ rest).drop 7 = rest := List.drop_left' (by decide)
    rw [List.nil_append, List.nil_append, thinSpace_eq, List.cons_append, withoutThinSpaces,
      if_pos hhead, htail]
  | cons b g ih =>
    rw [List.mem_cons, not_or] at h
    have hno : ∀ t, thinSpace.isPrefixOf (b :: t) = false := by
      intro t
      rw [thinSpace_eq, List.isPrefixOf, beq_false_of_ne h.1, Bool.false_and]
    rw [List.cons_append, List.cons_append, withoutThinSpaces, hno, if_neg (by simp), ih h.2,
      List.cons_append]

theorem withoutThinSpaces_groupText (h : (38 : Byte) ∉ groups.flatten) :
    withoutThinSpaces (groupText groups) = groups.flatten := by
  induction groups with
  | nil => exact withoutThinSpaces.eq_def []
  | cons g rest ih =>
    rw [List.flatten_cons, List.mem_append, not_or] at h
    rw [groupText_cons, withoutThinSpaces_group h.1, ih h.2, List.flatten_cons]

end Groups

/-- What the digits and the groups leave of the buffer at the head of the loop. -/
structure Spreading (ds : Bytes) (s : SpreadState) (gap : Bytes) (groups : List Bytes) : Prop where
  buffer : s.buf = ds.take s.len ++ gap ++ (groupText groups ++ [nul])
  digits : ds.take s.len ++ groups.flatten = ds
  front : (ds.take s.len).length = s.len
  dest : s.dest = s.len + gap.length
  size : s.dest + (groupText groups).length + 1 = sizeBuffer
  full : 0 < s.len → ∀ g ∈ groups, g.length = 3
  fromRight : FromRight groups

section Rounds

variable {ds gap : Bytes} {s : SpreadState} {groups : List Bytes}

/-- Sixteen digits are six groups, and these leave a gap of fifteen bytes. -/
theorem Spreading.safe (h : Spreading ds s gap groups) (hds : ds.length ≤ 16) (hlen : 0 < s.len) :
    SpreadSafe ds s := by
  have hfull := h.full hlen
  have htext := groupText_length hfull
  have hsize := h.size
  have hcount : s.len + 3 * groups.length = ds.length := by
    rw [← flatten_length hfull, ← h.front, ← List.length_append, h.digits]
  have hcpy : s.cpy ≤ 3 := by
    unfold SpreadState.cpy
    split <;> omega
  have hbuf : sizeBuffer = 80 := rfl
  refine ⟨by omega, ?_, ?_⟩
  · rw [thinSpace_length]
    omega
  · rw [h.buffer, List.append_assoc, List.take_append_of_le_length h.front.ge,
      List.take_of_length_le h.front.le]

theorem Spreading.round (h : Spreading ds s gap groups) (hds : ds.length ≤ 16) (hlen : 0 < s.len) :
    ∃ gap groups, Spreading ds s.round gap groups := by
  have hsafe := h.safe hds hlen
  have hbehind := hsafe.behind
  rw [thinSpace_length] at hbehind
  have hcpy : s.cpy ≤ s.len := by
    unfold SpreadState.cpy
    split <;> omega
  -- the gap as the two writes cut it
  obtain ⟨g₁, g₂, g₃, hgap, h₂, h₃⟩ : ∃ g₁ g₂ g₃ : Bytes, gap = g₁ ++ g₂ ++ g₃ ∧
      g₂.length = s.cpy ∧ g₃.length = 8 := by
    have hd := h.dest
    refine ⟨gap.take (gap.length - 8 - s.cpy),
      (gap.drop (gap.length - 8 - s.cpy)).take s.cpy, gap.drop (gap.length - 8), ?_, ?_, ?_⟩
    · have hlast : gap.drop (gap.length - 8) =
          (gap.drop (gap.length - 8 - s.cpy)).drop s.cpy := by
        rw [List.drop_drop]
        congr 1
        omega
      rw [hlast, List.append_assoc, List.take_append_drop, List.take_append_drop]
    · rw [List.length_take, List.length_drop]
      omega
    · rw [List.length_drop]
      omega
  have hdest : s.dest = s.len + g₁.length + s.cpy + 8 := by
    have hd := h.dest
    rw [hgap, List.length_append, List.length_append] at hd
    omega
  -- the digits as the copy cuts them
  obtain ⟨g, hg, hfront'⟩ : ∃ g : Bytes, ds.take s.len = ds.take (s.len - s.cpy) ++ g ∧
      (ds.take (s.len - s.cpy)).length = s.len - s.cpy := by
    have htake : ds.take (s.len - s.cpy) = (ds.take s.len).take (s.len - s.cpy) := by
      rw [List.take_take, Nat.min_eq_left (Nat.sub_le _ _)]
    refine ⟨(ds.take s.len).drop (s.len - s.cpy), ?_, ?_⟩
    · rw [htake, List.take_append_drop]
    · rw [htake, List.length_take, h.front]
      omega
  have hglen : g.length = s.cpy := by
    have hl := congrArg List.length hg
    rw [h.front, List.length_append, hfront'] at hl
    omega
  let back := groupText groups ++ [nul]
  have hspace : overwrite s.buf (s.dest - thinSpace.length) thinSpace =
      (ds.take s.len ++ g₁ ++ g₂) ++ (thinSpace ++ back) := by
    have hat : s.dest - thinSpace.length = (ds.take s.len ++ g₁ ++ g₂).length := by
      rw [List.length_append, List.length_append, h.front, h₂, thinSpace_length]
      omega
    have hbuf : s.buf = (ds.take s.len ++ g₁ ++ g₂) ++ (g₃ ++ back) := by
      rw [h.buffer, hgap]
      simp only [List.append_assoc, back]
    rw [hbuf, hat, overwrite_append, List.drop_left' (by rw [h₃, thinSpace_length]),
      List.append_assoc]
  have hcopied : ((overwrite s.buf (s.dest - thinSpace.length) thinSpace).drop
      (s.len - s.cpy)).take s.cpy = g := by
    rw [hspace, hg]
    simp only [List.append_assoc]
    rw [List.drop_left' hfront', List.take_left' hglen]
  have hround : s.round.buf = ds.take (s.len - s.cpy) ++ (g ++ g₁) ++
      (groupText (g :: groups) ++ [nul]) := by
    have hat : s.dest - thinSpace.length - s.cpy = (ds.take s.len ++ g₁).length := by
      rw [List.length_append, h.front, thinSpace_length]
      omega
    show overwrite (overwrite s.buf (s.dest - thinSpace.length) thinSpace)
      (s.dest - thinSpace.length - s.cpy) _ = _
    rw [hcopied, hspace, hat, List.append_assoc (ds.take s.len ++ g₁), overwrite_append,
      List.drop_left' (by rw [h₂, hglen]), hg, groupText_cons]
    simp only [List.append_assoc, back]
  refine ⟨g ++ g₁, g :: groups, hround, ?_, hfront', ?_, ?_, ?_, ?_⟩
  · show ds.take (s.len - s.cpy) ++ _ = ds
    rw [List.flatten_cons, ← List.append_assoc, ← hg, h.digits]
  · show s.dest - thinSpace.length - s.cpy = s.len - s.cpy + (g ++ g₁).length
    rw [List.length_append, thinSpace_length]
    omega
  · show s.dest - thinSpace.length - s.cpy + _ + 1 = sizeBuffer
    have hsize := h.size
    rw [groupText_cons, List.length_append, List.length_append, thinSpace_length]
    omega
  · intro hmore x hx
    rcases List.mem_cons.mp hx with rfl | hx
    · have hthree : s.cpy = 3 := if_pos (by
        by_contra hle
        have hall : s.cpy = s.len := if_neg hle
        change 0 < s.len - s.cpy at hmore
        omega)
      rw [hglen, hthree]
    · exact h.full hlen x hx
  · refine ⟨?_, ?_, h.full hlen⟩
    · rw [hglen, SpreadState.cpy]
      split <;> omega
    · rw [hglen, SpreadState.cpy]
      split <;> omega

theorem Spreading.toEnd (h : Spreading ds s gap groups) (hnul : nul ∉ ds) (hlen : s.len = 0) :
    cstr (s.buf.drop s.dest) = groupText groups := by
  have hall : groups.flatten = ds := by
    have hd := h.digits
    rwa [hlen, List.take_zero, List.nil_append] at hd
  have hfree : nul ∉ groupText groups := not_mem_groupText (hall ▸ hnul) (by decide)
  have hdest : s.dest = gap.length := by rw [h.dest, hlen, Nat.zero_add]
  rw [h.buffer, hlen, List.take_zero, List.nil_append, hdest, List.drop_left]
  have hkept : ∀ b ∈ groupText groups, (b != nul) = true := fun b hb =>
    bne_iff_ne.mpr fun h => hfree (h ▸ hb)
  rw [cstr, List.takeWhile_append_of_pos hkept]
  simp

/-- The rounds that are left end the loop, and its fuel is enough for them. -/
theorem Spreading.loop (h : Spreading ds s gap groups) (hds : ds.length ≤ 16) (hnul : nul ∉ ds) :
    ∀ {n : Nat}, s.len < n → ∃ out groups, spreadDigits n s.buf s.len s.dest = .ok out ∧
      cstr out = groupText groups ∧ FromRight groups ∧ groups.flatten = ds := by
  intro n hn
  induction n generalizing s gap groups with
  | zero => omega
  | succ n ih =>
    rw [spreadDigits]
    by_cases hlen : s.len = 0
    · have hall : groups.flatten = ds := by
        have hd := h.digits
        rwa [hlen, List.take_zero, List.nil_append] at hd
      exact ⟨_, groups, if_pos hlen, h.toEnd hnul hlen, h.fromRight, hall⟩
    · obtain ⟨gap', groups', hround⟩ := h.round hds (by omega)
      have hbehind := (h.safe hds (by omega)).behind
      have hroom : ¬ s.dest < thinSpace.length + s.cpy := by omega
      have hless : s.round.len < n := by
        show s.len - s.cpy < n
        have hpos : 0 < s.cpy := by
          unfold SpreadState.cpy
          split <;> omega
        omega
      obtain ⟨out, groups, hrun, hout⟩ := ih hround hless
      refine ⟨out, groups, ?_, hout⟩
      rw [if_neg hlen]
      exact (if_neg hroom).trans hrun

end Rounds

section Sizes

variable {size : Nat}

theorem sizeDigits_length (h : size < 2 ^ 63) : (sizeDigits size).length ≤ 16 := by
  apply length_digits_le (by decide) (by decide)
  omega

theorem not_mem_sizeDigits {b : Byte} (hb : isDigit 10 b = false) : b ∉ sizeDigits size :=
  not_mem_digits (by decide) (by decide) hb

theorem spreading_start (h : size < 2 ^ 63) :
    ∃ gap, Spreading (sizeDigits size) (spreadStart size) gap [] := by
  have hlen := sizeDigits_length h
  have hbuf : sizeBuffer = 80 := rfl
  have hrest : List.replicate (sizeBuffer - (sizeDigits size).length) nul =
      List.replicate (sizeBuffer - 1 - (sizeDigits size).length) nul ++ [nul] := by
    rw [← List.replicate_succ']
    congr 1
    omega
  refine ⟨List.replicate (sizeBuffer - 1 - (sizeDigits size).length) nul,
    ?_, ?_, ?_, ?_, ?_, ?_, ?_⟩
  · have hat : sizeBuffer - 1 = (sizeDigits size ++
        List.replicate (sizeBuffer - 1 - (sizeDigits size).length) nul).length := by
      rw [List.length_append, List.length_replicate]
      omega
    show (sizeDigits size ++ _).set _ _ = _
    rw [hrest, ← List.append_assoc]
    nth_rewrite 2 [hat]
    rw [List.set_append_right _ _ le_rfl, Nat.sub_self]
    simp [spreadStart, groupText]
  · simp [spreadStart]
  · simp [spreadStart]
  · show sizeBuffer - 1 = (sizeDigits size).length + _
    rw [List.length_replicate]
    omega
  · rfl
  · intro _ g hg
    cases hg
  · trivial

/-- **In every round the loop writes inside the buffer and behind the digits that are still to be
copied; the text is the number of kilobytes in groups of three.** -/
theorem size_digits_spread (size : Nat) (h : size < 2 ^ 63) :
    (∀ s, SpreadReaches (spreadStart size) s → 0 < s.len → SpreadSafe (sizeDigits size) s) ∧
    ∃ groups, FromRight groups ∧ groups.flatten = decimal (size ⌈/⌉ 1024) ∧
      formatSize size = .ok (groupText groups) ∧
      withoutThinSpaces (groupText groups) = decimal (size ⌈/⌉ 1024) := by
  have hdigits : sizeDigits size = decimal (size ⌈/⌉ 1024) := by
    rw [sizeDigits, Nat.ceilDiv_eq_add_pred_div]
    rfl
  have hlen := sizeDigits_length h
  have hreach : ∀ s, SpreadReaches (spreadStart size) s →
      ∃ gap groups, Spreading (sizeDigits size) s gap groups := by
    intro s hs
    induction hs with
    | start =>
      obtain ⟨gap, hstart⟩ := spreading_start h
      exact ⟨gap, [], hstart⟩
    | round _ hpos ih =>
      obtain ⟨gap, groups, hs⟩ := ih
      exact hs.round hlen hpos
  refine ⟨?_, ?_⟩
  · intro s hs hpos
    obtain ⟨gap, groups, hspread⟩ := hreach s hs
    exact hspread.safe hlen hpos
  · obtain ⟨gap, hstart⟩ := spreading_start h
    obtain ⟨out, groups, hrun, hout, hright, hall⟩ := hstart.loop hlen
      (not_mem_sizeDigits (by decide)) (n := (sizeDigits size).length + 1) (Nat.lt_succ_self _)
    rw [← hdigits]
    refine ⟨groups, hright, hall, ?_, ?_⟩
    · have hformat : formatSize size = (spreadDigits ((sizeDigits size).length + 1)
          (spreadStart size).buf (spreadStart size).len (spreadStart size).dest).bind
          fun s => .ok (cstr s) := rfl
      rw [hformat, hrun, ← hout]
      rfl
    · rw [withoutThinSpaces_groupText (hall ▸ not_mem_sizeDigits (by decide)), hall]

theorem size_digits_spread_largest : ∃ groups, FromRight groups ∧
    formatSize (2 ^ 63 - 1) = .ok (groupText groups) :=
  let ⟨groups, hright, _, hok, _⟩ := (size_digits_spread (2 ^ 63 - 1) (by decide)).2
  ⟨groups, hright, hok⟩

end Sizes

end FilemanagerHttpd.Audit
