import FilemanagerHttpd.Audit.Texts
import FilemanagerHttpd.Server.DataChunk

/-!
# The slices of a text

Every chunk that the extracting functions return lies in the chunk they are given, and what they
leave of it lies behind. The bytes are those of the functions on lists.
-/

namespace FilemanagerHttpd.Audit

open Library Server

/-- The bytes are in the text, from a position on. -/
structure Lies (text : Bytes) (pos : Nat) (t : Bytes) : Prop where
  inside : pos + t.length ≤ text.length
  bytes : t <+: text.drop pos

/-- The chunk is these bytes of the text, or null. -/
inductive Shows (text : Bytes) : ChunkSlice → Bytes → Prop
  | clear : Shows text .clear []
  | lies {pos : Nat} {t : Bytes} : Lies text pos t → t.length < uintSize →
      Shows text ⟨some pos, t.length⟩ t

/-- A chunk is empty or inside the text. -/
def InText (text : Bytes) (c : ChunkSlice) : Prop :=
  match c.data with
  | none => c.len = 0
  | some pos => pos + c.len ≤ text.length

/-- A chunk is null or a part of another. -/
def LiesWithin (c whole : ChunkSlice) : Prop :=
  match c.data with
  | none => c.len = 0
  | some pos => ∃ beg, whole.data = some beg ∧ beg ≤ pos ∧ pos + c.len ≤ beg + whole.len

/-- A chunk ends where another begins, or before. -/
def Before (c d : ChunkSlice) : Prop :=
  ∀ pos beg, c.data = some pos → d.data = some beg → pos + c.len ≤ beg

section Relations

variable {text t : Bytes} {a b c d : ChunkSlice}

theorem Shows.inText (h : Shows text c t) : InText text c := by
  cases h with
  | clear => rfl
  | lies h _ => exact h.inside

theorem Shows.len_eq (h : Shows text c t) : c.len = t.length := by cases h <;> rfl

theorem Shows.within_self (h : Shows text c t) : LiesWithin c c := by
  cases h with
  | clear => rfl
  | lies h _ => exact ⟨_, rfl, le_rfl, le_rfl⟩

theorem within_clear : LiesWithin .clear c := rfl

theorem LiesWithin.len_le (h : LiesWithin c d) : c.len ≤ d.len := by
  unfold LiesWithin at h
  split at h
  · omega
  · obtain ⟨beg, -, hle, hend⟩ := h
    omega

theorem LiesWithin.trans (hab : LiesWithin a b) (hbc : LiesWithin b c) : LiesWithin a c := by
  unfold LiesWithin at hab
  split at hab
  · rename_i hnone
    unfold LiesWithin
    rw [hnone]
    exact hab
  · rename_i pos hpos
    obtain ⟨beg, hbeg, hle, hend⟩ := hab
    unfold LiesWithin at hbc
    rw [hbeg] at hbc
    obtain ⟨beg', hbeg', hle', hend'⟩ := hbc
    unfold LiesWithin
    rw [hpos]
    exact ⟨beg', hbeg', by omega, by omega⟩

theorem Before.within_left (h : Before c d) (ha : LiesWithin a c) : Before a d := by
  intro pos beg hpos hbeg
  unfold LiesWithin at ha
  rw [hpos] at ha
  obtain ⟨beg', hbeg', hle, hend⟩ := ha
  have := h beg' beg hbeg' hbeg
  omega

theorem Before.within_right (h : Before c d) (hb : LiesWithin b d) : Before c b := by
  intro pos beg hpos hbeg
  unfold LiesWithin at hb
  rw [hbeg] at hb
  obtain ⟨beg', hbeg', hle, hend⟩ := hb
  have := h pos beg' hpos hbeg'
  omega

theorem before_clear : Before c .clear := by
  intro _ _ _ h
  cases h

end Relations

section Reading

variable {text t s : Bytes} {pos : Nat} {b : Byte}

theorem Lies.left (h : Lies text pos (t ++ s)) : Lies text pos t where
  inside := by
    have hin := h.inside
    rw [List.length_append] at hin
    omega
  bytes := (List.prefix_append t s).trans h.bytes

theorem Lies.right (h : Lies text pos (t ++ s)) : Lies text (pos + t.length) s where
  inside := by
    have hin := h.inside
    rw [List.length_append] at hin
    omega
  bytes := by
    obtain ⟨back, hback⟩ := h.bytes
    refine ⟨back, ?_⟩
    rw [← List.drop_drop, ← hback, List.append_assoc, List.drop_left]

theorem Lies.read (h : Lies text pos (b :: t)) : readByte text (some pos) = .ok b := by
  obtain ⟨back, hback⟩ := h.bytes
  have hget : text[pos]? = some b := by
    have h0 : (text.drop pos)[0]? = some b := by rw [← hback]; rfl
    simpa using h0
  rw [readByte, hget]

theorem memchr_lies (c : Byte) (h : Lies text pos t) : memchr text c (some pos) t.length =
    .ok ((splitAtByte c t).map fun p => pos + p.1.length) := by
  induction t generalizing pos with
  | nil => rfl
  | cons b t ih =>
    have hrest : Lies text (pos + 1) t := h.right (t := [b])
    rw [List.length_cons, memchr, h.read]
    show (if b = c then _ else _ : Except ChunkFault (Option Nat)) = _
    by_cases hb : b = c
    · rw [if_pos hb, splitAtByte, if_pos hb]
      rfl
    · rw [if_neg hb, splitAtByte, if_neg hb, Option.map_some, ih hrest, Option.map_map]
      congr 2
      funext p
      show pos + 1 + p.1.length = pos + (p.1.length + 1)
      omega

theorem advanceWhile_lies (test : Byte → Bool) (h : Lies text pos t) :
    advanceWhile text test (some pos) t.length =
      .ok ⟨some (pos + (t.takeWhile test).length), (t.dropWhile test).length⟩ := by
  induction t generalizing pos with
  | nil => rfl
  | cons b t ih =>
    have hrest : Lies text (pos + 1) t := h.right (t := [b])
    rw [List.length_cons, advanceWhile, h.read]
    show (if test b then _ else _ : Except ChunkFault ChunkSlice) = _
    by_cases hb : test b = true
    · rw [if_pos hb, Option.map_some, ih hrest, List.takeWhile_cons_of_pos hb,
        List.dropWhile_cons_of_pos hb, List.length_cons, Nat.add_right_comm, Nat.add_assoc]
    · rw [if_neg hb, List.takeWhile_cons_of_neg hb, List.dropWhile_cons_of_neg hb]
      rfl

theorem shortenWhile_lies (test : Byte → Bool) (h : Lies text pos t) :
    shortenWhile text test (some pos) t.length =
      .ok ⟨some pos, (t.reverse.dropWhile test).length⟩ := by
  induction t using List.reverseRecOn with
  | nil => rfl
  | append_singleton t b ih =>
    rw [List.length_append, List.length_singleton, shortenWhile, Option.map_some, h.right.read]
    show (if test b then _ else _ : Except ChunkFault ChunkSlice) = _
    rw [List.reverse_append, List.reverse_singleton, List.singleton_append]
    by_cases hb : test b = true
    · rw [if_pos hb, ih h.left, List.dropWhile_cons_of_pos hb]
    · rw [if_neg hb, List.dropWhile_cons_of_neg hb, List.length_cons, List.length_reverse]
      rfl

end Reading

section Operations

variable {text t : Bytes} {dch : ChunkSlice}

/-- A chunk that is a part of another one, with its bytes. -/
structure PartOf (text : Bytes) (whole c : ChunkSlice) (t : Bytes) : Prop where
  shows : Shows text c t
  within : LiesWithin c whole

theorem PartOf.trans {a b c : ChunkSlice} {s : Bytes} (hab : PartOf text b a s)
    (hbc : PartOf text c b t) : PartOf text c a s :=
  ⟨hab.shows, hab.within.trans hbc.within⟩

theorem advanceWhile_part (test : Byte → Bool) (h : Shows text dch t) :
    ∃ c, advanceWhile text test dch.data dch.len = .ok c ∧
      PartOf text dch c (t.dropWhile test) := by
  cases h with
  | clear => exact ⟨.clear, rfl, .clear, within_clear⟩
  | @lies pos _ h hlen =>
    have hparts : t = t.takeWhile test ++ t.dropWhile test := List.takeWhile_append_dropWhile.symm
    have hl := congrArg List.length hparts
    rw [List.length_append] at hl
    have hback : Lies text (pos + (t.takeWhile test).length) (t.dropWhile test) :=
      (hparts ▸ h).right
    refine ⟨_, advanceWhile_lies test h, .lies hback (by omega), pos, rfl, ?_, ?_⟩
    · omega
    · show pos + (t.takeWhile test).length + (t.dropWhile test).length ≤ pos + t.length
      omega

theorem shortenWhile_part (test : Byte → Bool) (h : Shows text dch t) :
    ∃ c, shortenWhile text test dch.data dch.len = .ok c ∧
      PartOf text dch c (t.reverse.dropWhile test).reverse := by
  cases h with
  | clear => exact ⟨.clear, rfl, .clear, within_clear⟩
  | @lies pos _ h hlen =>
    have hparts : t = (t.reverse.dropWhile test).reverse ++ (t.reverse.takeWhile test).reverse := by
      rw [← List.reverse_append, List.takeWhile_append_dropWhile, List.reverse_reverse]
    have hl := congrArg List.length hparts
    rw [List.length_append] at hl
    have hfront : Lies text pos (t.reverse.dropWhile test).reverse := (hparts ▸ h).left
    refine ⟨_, shortenWhile_lies test h, ?_, pos, rfl, le_rfl, ?_⟩
    · rw [← List.length_reverse]
      exact .lies hfront (by omega)
    · show pos + (t.reverse.dropWhile test).length ≤ pos + t.length
      rw [← List.length_reverse]
      omega

theorem trimWS_part (h : Shows text dch t) :
    ∃ c, dch.trimWS text = .ok c ∧ PartOf text dch c (dchTrimWS t) := by
  obtain ⟨c, hskip, hc⟩ := advanceWhile_part isWhiteSpace h
  obtain ⟨d, htrim, hd⟩ := shortenWhile_part isWhiteSpace hc.shows
  have hrun : dch.trimWS text = advanceWhile text isWhiteSpace dch.data dch.len >>=
      ChunkSlice.trimTrailingWS text := rfl
  rw [hrun, hskip]
  exact ⟨d, htrim, hd.trans hc⟩

/-- What a successful search leaves of a chunk, and what it takes off. -/
structure Cut (text : Bytes) (dch sub rest : ChunkSlice) (before back : Bytes) : Prop where
  front : PartOf text dch sub before
  behind : PartOf text dch rest back
  order : Before sub rest
  shorter : rest.len < dch.len

/-- The chunk around a byte that `memchr` finds. -/
theorem cut_at {pos : Nat} {c : Byte} {before back : Bytes}
    (h : Lies text pos (before ++ c :: back)) (hlen : (before ++ c :: back).length < uintSize) :
    Cut text ⟨some pos, (before ++ c :: back).length⟩ ⟨some pos, before.length⟩
      ⟨some (pos + before.length + 1), back.length⟩ before back := by
  have hl : (before ++ c :: back).length = before.length + 1 + back.length := by
    rw [List.length_append, List.length_cons]
    omega
  have hback : Lies text (pos + before.length + 1) back := h.right.right (t := [c])
  refine ⟨⟨.lies h.left (by omega), pos, rfl, le_rfl, ?_⟩,
    ⟨.lies hback (by omega), pos, rfl, ?_, ?_⟩, ?_, ?_⟩
  · show pos + before.length ≤ pos + (before ++ c :: back).length
    omega
  · omega
  · show pos + before.length + 1 + back.length ≤ pos + (before ++ c :: back).length
    omega
  · intro p beg hp hbeg
    obtain rfl := Option.some.inj hp
    obtain rfl := Option.some.inj hbeg
    show pos + before.length ≤ pos + before.length + 1
    omega
  · show back.length < (before ++ c :: back).length
    omega

theorem subLen_ok {len n : Nat} (hlen : len < uintSize) (h : n ≤ len) :
    subLen len n = .ok (len - n) := by
  rw [subLen, Nat.mod_eq_of_lt (by omega), if_pos h]

theorem extractTillChr_found {delimiter : Byte} {before back : Bytes} (h : Shows text dch t)
    (hsplit : splitAtByte delimiter t = some (before, back)) :
    ∃ sub rest, dch.extractTillChr text delimiter = .ok (true, sub, rest) ∧
      Cut text dch sub rest before back := by
  cases h with
  | clear => cases hsplit
  | @lies pos _ h hlen =>
    obtain ⟨-, rfl⟩ := splitAtByte_eq hsplit
    have hl : (before ++ delimiter :: back).length = before.length + 1 + back.length := by
      rw [List.length_append, List.length_cons]
      omega
    refine ⟨_, _, ?_, cut_at h hlen⟩
    unfold ChunkSlice.extractTillChr
    rw [memchr_lies delimiter h, hsplit]
    show (subLen _ ((pos + before.length - pos) % uintSize + 1) >>= _ :
      Except ChunkFault (Bool × ChunkSlice × ChunkSlice)) = _
    rw [Nat.add_sub_cancel_left, Nat.mod_eq_of_lt (by omega), subLen_ok hlen (by omega)]
    show Except.ok (true, ChunkSlice.mk (some pos) ((pos + before.length - pos) % uintSize), _) = _
    rw [Nat.add_sub_cancel_left, Nat.mod_eq_of_lt (by omega), hl]
    congr 5
    omega

theorem extractTillChr_none {delimiter : Byte} (h : Shows text dch t)
    (hsplit : splitAtByte delimiter t = none) :
    dch.extractTillChr text delimiter = .ok (false, dch, .clear) := by
  cases h with
  | clear => rfl
  | lies h hlen =>
    unfold ChunkSlice.extractTillChr
    rw [memchr_lies delimiter h, hsplit]
    rfl

theorem shiftAfterChr_found {c : Byte} {before back : Bytes} (h : Shows text dch t)
    (hsplit : splitAtByte c t = some (before, back)) :
    ∃ rest, dch.shiftAfterChr text c = .ok (true, rest) ∧ PartOf text dch rest back ∧
      rest.len < dch.len := by
  cases h with
  | clear => cases hsplit
  | @lies pos _ h hlen =>
    obtain ⟨-, rfl⟩ := splitAtByte_eq hsplit
    have hl : (before ++ c :: back).length = before.length + 1 + back.length := by
      rw [List.length_append, List.length_cons]
      omega
    have hcut := cut_at h hlen
    refine ⟨_, ?_, hcut.behind, hcut.shorter⟩
    unfold ChunkSlice.shiftAfterChr
    rw [memchr_lies c h, hsplit]
    show (subLen _ (pos + before.length - pos + 1) >>= _ :
      Except ChunkFault (Bool × ChunkSlice)) = _
    rw [Nat.add_sub_cancel_left, subLen_ok hlen (by omega), hl]
    show Except.ok (true, ChunkSlice.mk _ (before.length + 1 + back.length - _)) = _
    congr 3
    omega

theorem shiftAfterChr_none {c : Byte} (h : Shows text dch t) (hsplit : splitAtByte c t = none) :
    dch.shiftAfterChr text c = .ok (false, dch) := by
  cases h with
  | clear => rfl
  | lies h hlen =>
    unfold ChunkSlice.shiftAfterChr
    rw [memchr_lies c h, hsplit]
    rfl

/-- What a call does to a chunk: it sets parts of it in their order, and leaves what is behind. -/
structure SafeStep (text : Bytes) (dch : ChunkSlice) (step : ChunkStep) : Prop where
  inText : ∀ c ∈ step.rest :: step.slices, InText text c
  within : ∀ c ∈ step.rest :: step.slices, LiesWithin c dch
  inOrder : (step.slices ++ [step.rest]).Pairwise Before
  shorter : step.res = true → step.rest.len < dch.len

theorem extractTillChr_safe (delimiter : Byte) (h : Shows text dch t) :
    ∃ res sub rest, dch.extractTillChr text delimiter = .ok (res, sub, rest) ∧
      res = (dchExtractTillChr t delimiter).1 ∧
      PartOf text dch sub (dchExtractTillChr t delimiter).2.1 ∧
      PartOf text dch rest (dchExtractTillChr t delimiter).2.2 ∧
      Before sub rest ∧ (res = true → rest.len < dch.len) := by
  rw [dchExtractTillChr]
  cases hsplit : splitAtByte delimiter t with
  | none =>
    exact ⟨false, dch, .clear, extractTillChr_none h hsplit, rfl, ⟨h, h.within_self⟩,
      ⟨.clear, within_clear⟩, before_clear, fun h => Bool.noConfusion h⟩
  | some p =>
    obtain ⟨before, back⟩ := p
    obtain ⟨sub, rest, hrun, hcut⟩ := extractTillChr_found h hsplit
    exact ⟨true, sub, rest, hrun, rfl, hcut.front, hcut.behind, hcut.order, fun _ => hcut.shorter⟩

theorem shiftAfterChr_safe (c : Byte) (h : Shows text dch t) :
    ∃ res rest, dch.shiftAfterChr text c = .ok (res, rest) ∧ res = (dchShiftAfterChr t c).1 ∧
      PartOf text dch rest (dchShiftAfterChr t c).2 ∧ (res = true → rest.len < dch.len) := by
  rw [dchShiftAfterChr]
  cases hsplit : splitAtByte c t with
  | none =>
    exact ⟨false, dch, shiftAfterChr_none h hsplit, rfl, ⟨h, h.within_self⟩,
      fun h => Bool.noConfusion h⟩
  | some p =>
    obtain ⟨before, back⟩ := p
    obtain ⟨rest, hrun, hpart, hless⟩ := shiftAfterChr_found h hsplit
    exact ⟨true, rest, hrun, rfl, hpart, fun _ => hless⟩

/-- The word at the front of a chunk that starts with no blank. -/
theorem word_cut {b : Byte} {tail : Bytes} (h : Shows text dch (b :: tail))
    (hb : isWhiteSpace b = false) :
    ∃ rest, advanceWhile text (! isWhiteSpace ·) dch.data dch.len = .ok rest ∧
      Cut text dch ⟨dch.data, (rest.data.getD 0 - dch.data.getD 0) % uintSize⟩ rest
        ((b :: tail).takeWhile (! isWhiteSpace ·)) ((b :: tail).dropWhile (! isWhiteSpace ·)) := by
  obtain ⟨rest, hrun, hpart⟩ := advanceWhile_part (! isWhiteSpace ·) h
  refine ⟨rest, hrun, ?_⟩
  generalize hword : (b :: tail).takeWhile (! isWhiteSpace ·) = word
  have hpos : 0 < word.length := by
    rw [← hword, List.takeWhile_cons_of_pos (by simp [hb])]
    exact Nat.succ_pos _
  have hparts : b :: tail = word ++ (b :: tail).dropWhile (! isWhiteSpace ·) := by
    rw [← hword]
    exact List.takeWhile_append_dropWhile.symm
  generalize (b :: tail).dropWhile (! isWhiteSpace ·) = back at hparts hpart ⊢
  generalize b :: tail = t at h hparts hword hrun
  cases h with
  | clear =>
    have hl := congrArg List.length hparts
    rw [List.length_append, List.length_nil] at hl
    omega
  | @lies pos _ h hlen =>
    subst hparts
    have hl : (word ++ back).length = word.length + back.length := List.length_append
    have hrest : rest.data = some (pos + word.length) := by
      have hexact := hrun.symm.trans (advanceWhile_lies (! isWhiteSpace ·) h)
      rw [hword] at hexact
      rw [Except.ok.inj hexact]
    have hdiff : (rest.data.getD 0 - (some pos).getD 0) % uintSize = word.length := by
      rw [hrest]
      show (pos + word.length - pos) % uintSize = _
      rw [Nat.add_sub_cancel_left, Nat.mod_eq_of_lt (by omega)]
    rw [hdiff]
    have hlenRest := hpart.shows.len_eq
    refine ⟨⟨.lies h.left (by omega), pos, rfl, le_rfl, ?_⟩, hpart, ?_, ?_⟩
    · show pos + word.length ≤ pos + (word ++ back).length
      omega
    · intro p beg hp hbeg
      obtain rfl := Option.some.inj hp
      obtain rfl := Option.some.inj (hrest.symm.trans hbeg)
      exact le_rfl
    · show rest.len < (word ++ back).length
      omega

/-- A word is at least one byte, and what follows is shorter by it. -/
theorem extractTillWS_safe (h : Shows text dch t) :
    ∃ res sub rest, dch.extractTillWS text = .ok (res, sub, rest) ∧
      match dchExtractTillWS t with
      | none => res = false ∧ sub = .clear ∧ PartOf text dch rest []
      | some (word, back) => res = true ∧ PartOf text dch sub word ∧ PartOf text dch rest back ∧
        Before sub rest ∧ rest.len < dch.len := by
  obtain ⟨c, hskip, hc⟩ := advanceWhile_part isWhiteSpace h
  change PartOf text dch c (skipLeadingWS t) at hc
  have hrun : dch.extractTillWS text = (advanceWhile text isWhiteSpace dch.data dch.len >>= fun c =>
      if c.len = 0 then return (false, .clear, c)
      else do
        let rest ← advanceWhile text (! isWhiteSpace ·) c.data c.len
        let sub := ⟨c.data, (rest.data.getD 0 - c.data.getD 0) % uintSize⟩
        return (true, sub, ← rest.skipLeadingWS text)) := rfl
  rw [hrun, hskip, dchExtractTillWS]
  cases hword : skipLeadingWS t with
  | nil =>
    rw [hword] at hc
    have hlen : c.len = 0 := hc.shows.len_eq
    exact ⟨false, .clear, c, if_pos hlen, rfl, rfl, hc⟩
  | cons b tail =>
    rw [hword] at hc
    have hb : isWhiteSpace b = false := by
      have hhead : (t.dropWhile isWhiteSpace).head? = some b := by
        rw [show t.dropWhile isWhiteSpace = b :: tail from hword]
        rfl
      exact head?_of_dropWhile hhead
    have hlen : c.len ≠ 0 := by
      rw [hc.shows.len_eq]
      exact Nat.succ_ne_zero _
    obtain ⟨mid, hmid, hcut⟩ := word_cut hc.shows hb
    obtain ⟨rest, hrest, hpart⟩ := advanceWhile_part isWhiteSpace hcut.behind.shows
    refine ⟨true, _, rest, ?_, rfl, hcut.front.trans hc, (hpart.trans hcut.behind).trans hc,
      hcut.order.within_right hpart.within, ?_⟩
    · show (if c.len = 0 then _ else _ : Except ChunkFault (Bool × ChunkSlice × ChunkSlice)) = _
      rw [if_neg hlen, hmid]
      show (advanceWhile text isWhiteSpace mid.data mid.len >>= _ :
        Except ChunkFault (Bool × ChunkSlice × ChunkSlice)) = _
      rw [hrest]
      rfl
    · have h₁ := hpart.within.len_le
      have h₂ := hcut.shorter
      have h₃ := hc.within.len_le
      omega

/-- The test for a quoted value reads the first byte of the chunk, if there is one. -/
theorem quoted_shows (h : Shows text dch t) :
    (if 0 < dch.len then return (← readByte text dch.data) == quote else return false :
      Except ChunkFault Bool) = .ok (t.head? == some quote) := by
  cases h with
  | clear => rfl
  | @lies pos _ h hlen =>
    cases t with
    | nil => rfl
    | cons b tail =>
      show (readByte text (some pos) >>= fun b => pure (b == quote) : Except ChunkFault Bool) = _
      rw [h.read]
      rfl

theorem shiftOne_part {b : Byte} {tail : Bytes} (h : Shows text dch (b :: tail)) :
    PartOf text dch dch.shiftOne tail := by
  cases h with
  | @lies pos _ h hlen =>
    have hrest : Lies text (pos + 1) tail := h.right (t := [b])
    have hl : (b :: tail).length = tail.length + 1 := rfl
    have hshift : ChunkSlice.shiftOne ⟨some pos, (b :: tail).length⟩ =
        ⟨some (pos + 1), tail.length⟩ := rfl
    rw [hshift]
    refine ⟨.lies hrest (by omega), pos, rfl, by omega, ?_⟩
    show pos + 1 + tail.length ≤ pos + (b :: tail).length
    omega

/-- The value and the rest of a line from behind the `=` and the blanks on. -/
def valueTexts (delimiter : Byte) : DataChunk → DataChunk × DataChunk
  | 34 :: quoted =>
    let (_, value, line) := dchExtractTillChr quoted quote
    (value, (dchShiftAfterChr line delimiter).2)
  | line =>
    let (_, value, line) := dchExtractTillChr line delimiter
    (trimTrailingWS value, line)

theorem valueTexts_plain (delimiter : Byte) {line : DataChunk}
    (h : ∀ quoted, line = quote :: quoted → False) : valueTexts delimiter line =
      (trimTrailingWS (dchExtractTillChr line delimiter).2.1,
        (dchExtractTillChr line delimiter).2.2) := by
  unfold valueTexts
  split
  · exact (h _ rfl).elim
  · rfl

theorem dchExtractParam_eq (line : DataChunk) (delimiter : Byte) :
    dchExtractParam line delimiter = match dchExtractTillChr line equalsSign with
      | (false, _, _) => none
      | (true, name, line) => some ⟨dchTrimWS name,
          (valueTexts delimiter (skipLeadingWS line)).1,
          (valueTexts delimiter (skipLeadingWS line)).2⟩ := by
  unfold dchExtractParam
  generalize dchExtractTillChr line equalsSign = r
  obtain ⟨res, name, rest⟩ := r
  cases res with
  | false => rfl
  | true =>
    dsimp only
    generalize skipLeadingWS rest = t
    split
    · rfl
    · rename_i hplain
      rw [valueTexts_plain delimiter hplain]

theorem paramValue_safe (delimiter : Byte) (h : Shows text dch t) :
    ∃ value rest, dch.paramValue text delimiter = .ok (value, rest) ∧
      PartOf text dch value (valueTexts delimiter t).1 ∧
      PartOf text dch rest (valueTexts delimiter t).2 ∧ Before value rest := by
  have hrun : dch.paramValue text delimiter = ((if 0 < dch.len
      then return (← readByte text dch.data) == quote else return false :
        Except ChunkFault Bool) >>= fun quoted =>
      if quoted then
        dch.shiftOne.extractTillChr text quote >>= fun value =>
          value.2.2.shiftAfterChr text delimiter >>= fun line => return (value.2.1, line.2)
      else
        dch.extractTillChr text delimiter >>= fun value =>
          value.2.1.trimTrailingWS text >>= fun valueBuf => return (valueBuf, value.2.2)) := rfl
  rw [hrun, quoted_shows h]
  by_cases hquoted : t.head? = some quote
  · obtain ⟨tail, rfl⟩ : ∃ tail, t = quote :: tail := by
      cases t with
      | nil => cases hquoted
      | cons b tail => exact ⟨tail, by rw [Option.some.inj hquoted]⟩
    have hshift := shiftOne_part h
    obtain ⟨res, value, line, hextract, -, hvalue, hline, horder, -⟩ :=
      extractTillChr_safe quote hshift.shows
    obtain ⟨res', rest, hafter, -, hrest, -⟩ := shiftAfterChr_safe delimiter hline.shows
    refine ⟨value, rest, ?_, hvalue.trans hshift, (hrest.trans hline).trans hshift,
      horder.within_right hrest.within⟩
    show (ChunkSlice.extractTillChr text dch.shiftOne quote >>= _ :
      Except ChunkFault (ChunkSlice × ChunkSlice)) = _
    rw [hextract]
    show (ChunkSlice.shiftAfterChr text line delimiter >>= _ :
      Except ChunkFault (ChunkSlice × ChunkSlice)) = _
    rw [hafter]
    rfl
  · have hplain := valueTexts_plain delimiter fun quoted (hq : t = quote :: quoted) =>
      hquoted (by rw [hq]; rfl)
    obtain ⟨res, sub, rest, hextract, -, hsub, hrest, horder, -⟩ := extractTillChr_safe delimiter h
    obtain ⟨value, htrim, hvalue⟩ := shortenWhile_part isWhiteSpace hsub.shows
    rw [hplain]
    refine ⟨value, rest, ?_, hvalue.trans hsub, hrest, horder.within_left hvalue.within⟩
    rw [beq_eq_false_iff_ne.mpr hquoted]
    show (ChunkSlice.extractTillChr text dch delimiter >>= _ :
      Except ChunkFault (ChunkSlice × ChunkSlice)) = _
    rw [hextract]
    show (shortenWhile text isWhiteSpace sub.data sub.len >>= _ :
      Except ChunkFault (ChunkSlice × ChunkSlice)) = _
    rw [htrim]
    rfl

theorem extractParam_safe (delimiter : Byte) (h : Shows text dch t) :
    ∃ res name value rest, dch.extractParam text delimiter = .ok (res, name, value, rest) ∧
      match dchExtractParam t delimiter with
      | none => res = false ∧ value = none ∧ PartOf text dch name t ∧ rest = .clear
      | some p => res = true ∧ ∃ v, value = some v ∧ PartOf text dch name p.name ∧
        PartOf text dch v p.value ∧ PartOf text dch rest p.rest ∧ Before name v ∧
        Before name rest ∧ Before v rest ∧ rest.len < dch.len := by
  rw [dchExtractParam_eq, dchExtractTillChr]
  cases hsplit : splitAtByte equalsSign t with
  | none =>
    refine ⟨false, dch, none, .clear, ?_, rfl, rfl, ⟨h, h.within_self⟩, rfl⟩
    unfold ChunkSlice.extractParam
    rw [extractTillChr_none h hsplit]
    rfl
  | some p =>
    obtain ⟨before, back⟩ := p
    obtain ⟨sub, line, hextract, hcut⟩ := extractTillChr_found h hsplit
    obtain ⟨name, htrim, hname⟩ := trimWS_part hcut.front.shows
    obtain ⟨line', hskip, hline'⟩ := advanceWhile_part isWhiteSpace hcut.behind.shows
    obtain ⟨value, rest, hrun, hvalue, hrest, horder⟩ := paramValue_safe delimiter hline'.shows
    have hvalueLine := hvalue.trans hline'
    have hrestLine := hrest.trans hline'
    refine ⟨true, name, some value, rest, ?_, rfl, value, rfl, hname.trans hcut.front,
      hvalueLine.trans hcut.behind, hrestLine.trans hcut.behind, ?_, ?_, horder, ?_⟩
    · unfold ChunkSlice.extractParam
      rw [hextract]
      show (ChunkSlice.trimWS text sub >>= _ :
        Except ChunkFault (Bool × ChunkSlice × Option ChunkSlice × ChunkSlice)) = _
      rw [htrim]
      show (advanceWhile text isWhiteSpace line.data line.len >>= _ :
        Except ChunkFault (Bool × ChunkSlice × Option ChunkSlice × ChunkSlice)) = _
      rw [hskip]
      show (ChunkSlice.paramValue text line' delimiter >>= _ :
        Except ChunkFault (Bool × ChunkSlice × Option ChunkSlice × ChunkSlice)) = _
      rw [hrun]
      rfl
    · exact (hcut.order.within_left hname.within).within_right hvalueLine.within
    · exact (hcut.order.within_left hname.within).within_right hrestLine.within
    · have h₁ := hrestLine.within.len_le
      have h₂ := hcut.shorter
      omega

/-- A step lemma for each call. -/
theorem run_safe (op : ChunkOp) (h : Shows text dch t) :
    ∃ step, op.run text dch = .ok step ∧ SafeStep text dch step ∧ ∃ s, Shows text step.rest s := by
  cases op with
  | extractParam delimiter =>
    obtain ⟨res, name, value, rest, hrun, hspec⟩ := extractParam_safe delimiter h
    have hstep : (ChunkOp.extractParam delimiter).run text dch =
        .ok ⟨res, name :: value.toList, rest⟩ := by
      show (ChunkSlice.extractParam text dch delimiter >>= _ : Except ChunkFault ChunkStep) = _
      rw [hrun]
      rfl
    refine ⟨_, hstep, ?_⟩
    cases hparam : dchExtractParam t delimiter with
    | none =>
      rw [hparam] at hspec
      obtain ⟨rfl, rfl, hname, rfl⟩ := hspec
      refine ⟨⟨?_, ?_, ?_, nofun⟩, [], .clear⟩
      · simp [hname.shows.inText, Shows.clear.inText]
      · simp [hname.within, within_clear]
      · simp [before_clear]
    | some p =>
      rw [hparam] at hspec
      obtain ⟨rfl, v, rfl, hname, hv, hrest, h₁, h₂, h₃, hless⟩ := hspec
      refine ⟨⟨?_, ?_, ?_, fun _ => hless⟩, p.rest, hrest.shows⟩
      · simp [hname.shows.inText, hv.shows.inText, hrest.shows.inText]
      · simp [hname.within, hv.within, hrest.within]
      · simp [h₁, h₂, h₃]
  | extractTillWS =>
    obtain ⟨res, sub, rest, hrun, hspec⟩ := extractTillWS_safe h
    have hstep : ChunkOp.extractTillWS.run text dch = .ok ⟨res, [sub], rest⟩ := by
      show (ChunkSlice.extractTillWS text dch >>= _ : Except ChunkFault ChunkStep) = _
      rw [hrun]
      rfl
    refine ⟨_, hstep, ?_⟩
    cases hword : dchExtractTillWS t with
    | none =>
      rw [hword] at hspec
      obtain ⟨rfl, rfl, hrest⟩ := hspec
      refine ⟨⟨?_, ?_, ?_, nofun⟩, [], hrest.shows⟩
      · simp [hrest.shows.inText, Shows.clear.inText]
      · simp [hrest.within, within_clear]
      · have hclear : Before .clear rest := fun _ _ h => nomatch h
        simp [hclear]
    | some p =>
      obtain ⟨word, back⟩ := p
      rw [hword] at hspec
      obtain ⟨rfl, hsub, hrest, horder, hless⟩ := hspec
      refine ⟨⟨?_, ?_, ?_, fun _ => hless⟩, back, hrest.shows⟩
      · simp [hsub.shows.inText, hrest.shows.inText]
      · simp [hsub.within, hrest.within]
      · simp [horder]
  | extractTillChr delimiter =>
    obtain ⟨res, sub, rest, hrun, -, hsub, hrest, horder, hless⟩ := extractTillChr_safe delimiter h
    have hstep : (ChunkOp.extractTillChr delimiter).run text dch = .ok ⟨res, [sub], rest⟩ := by
      show (ChunkSlice.extractTillChr text dch delimiter >>= _ : Except ChunkFault ChunkStep) = _
      rw [hrun]
      rfl
    refine ⟨_, hstep, ⟨?_, ?_, ?_, hless⟩, _, hrest.shows⟩
    · simp [hsub.shows.inText, hrest.shows.inText]
    · simp [hsub.within, hrest.within]
    · simp [horder]
  | shiftAfterChr c =>
    obtain ⟨res, rest, hrun, -, hrest, hless⟩ := shiftAfterChr_safe c h
    have hstep : (ChunkOp.shiftAfterChr c).run text dch = .ok ⟨res, [], rest⟩ := by
      show (ChunkSlice.shiftAfterChr text dch c >>= _ : Except ChunkFault ChunkStep) = _
      rw [hrun]
      rfl
    refine ⟨_, hstep, ⟨?_, ?_, ?_, hless⟩, _, hrest.shows⟩
    · simp [hrest.shows.inText]
    · simp [hrest.within]
    · simp

/-- Every call of a sequence is safe for the chunk that the one before it leaves. -/
def SafeSteps (text : Bytes) : ChunkSlice → List ChunkStep → Prop
  | _, [] => True
  | dch, step :: steps => SafeStep text dch step ∧ SafeSteps text step.rest steps

theorem runAll_safe (ops : List ChunkOp) (h : Shows text dch t) :
    ∃ steps, ChunkOp.runAll text dch ops = .ok steps ∧ steps.length = ops.length ∧
      SafeSteps text dch steps ∧ (steps.flatMap ChunkStep.slices).Pairwise Before ∧
      ∀ c ∈ steps.flatMap ChunkStep.slices, LiesWithin c dch := by
  induction ops generalizing dch t with
  | nil => exact ⟨[], rfl, rfl, trivial, .nil, nofun⟩
  | cons op ops ih =>
    obtain ⟨step, hrun, hsafe, s, hs⟩ := run_safe op h
    obtain ⟨steps, hruns, hlen, hsteps, hpairs, hwithin⟩ := ih hs
    refine ⟨step :: steps, ?_, by simp [hlen], ⟨hsafe, hsteps⟩, ?_, ?_⟩
    · rw [ChunkOp.runAll, hrun]
      show (ChunkOp.runAll text step.rest ops >>= _ : Except ChunkFault (List ChunkStep)) = _
      rw [hruns]
      rfl
    · obtain ⟨hslices, -, hrest⟩ := List.pairwise_append.mp hsafe.inOrder
      rw [List.flatMap_cons, List.pairwise_append]
      refine ⟨hslices, hpairs, fun a ha b hb => ?_⟩
      exact (hrest a ha step.rest List.mem_cons_self).within_right (hwithin b hb)
    · intro c hc
      rw [List.flatMap_cons, List.mem_append] at hc
      rcases hc with hc | hc
      · exact hsafe.within c (List.mem_cons_of_mem _ hc)
      · exact (hwithin c hc).trans (hsafe.within step.rest List.mem_cons_self)

/-- A loop takes at least a byte off the chunk each time, so it has one call more than bytes. -/
theorem untilFalse_ends (next : Nat → ChunkOp) (h : Shows text dch t) {n : Nat} (i : Nat)
    (hn : dch.len < n) : ∃ steps, ChunkOp.untilFalse text next n i dch = .ok (some steps) := by
  induction n generalizing dch t i with
  | zero => omega
  | succ n ih =>
    obtain ⟨step, hrun, hsafe, s, hs⟩ := run_safe (next i) h
    rw [ChunkOp.untilFalse, hrun]
    show ∃ steps, (if step.res then _ else _ : Except ChunkFault (Option (List ChunkStep))) = _
    cases hres : step.res with
    | false => exact ⟨[step], rfl⟩
    | true =>
      have hless := hsafe.shorter hres
      obtain ⟨steps, hsteps⟩ := ih hs (i + 1) (by omega)
      refine ⟨step :: steps, ?_⟩
      rw [if_pos rfl, hsteps]
      rfl

end Operations

/-- **Whatever the text and the calls, every chunk lies in the text, the slices come in its order
and do not overlap, and a loop that goes on while a call succeeds ends.** -/
theorem chunk_slices_safe (front t back : Bytes) (ops : List ChunkOp) :
    let text := front ++ t ++ back
    let dch : ChunkSlice := ⟨some front.length, t.length % uintSize⟩
    (∃ steps, ChunkOp.runAll text dch ops = .ok steps ∧ steps.length = ops.length ∧
      SafeSteps text dch steps ∧ (steps.flatMap ChunkStep.slices).Pairwise Before) ∧
    ∀ next : Nat → ChunkOp,
      ∃ steps, ChunkOp.untilFalse text next (dch.len + 1) 0 dch = .ok (some steps) := by
  intro text dch
  have hmod : t.length % uintSize ≤ t.length := Nat.mod_le _ _
  have hlt : t.length % uintSize < uintSize := Nat.mod_lt _ (by decide)
  have hlen : (t.take (t.length % uintSize)).length = t.length % uintSize := by
    rw [List.length_take]
    omega
  have hlies : Lies text front.length (t.take (t.length % uintSize)) := by
    refine ⟨?_, t.drop (t.length % uintSize) ++ back, ?_⟩
    · rw [hlen]
      show _ ≤ (front ++ t ++ back).length
      rw [List.length_append, List.length_append]
      omega
    · show _ = (front ++ t ++ back).drop front.length
      rw [← List.append_assoc, List.take_append_drop, List.append_assoc, List.drop_left]
  have hshows : Shows text dch (t.take (t.length % uintSize)) := by
    have hdch : dch = ⟨some front.length, (t.take (t.length % uintSize)).length⟩ := by rw [hlen]
    rw [hdch]
    exact .lies hlies (by omega)
  obtain ⟨steps, hruns, hcount, hsafe, hpairs, -⟩ := runAll_safe ops hshows
  exact ⟨⟨steps, hruns, hcount, hsafe, hpairs⟩,
    fun next => untilFalse_ends next hshows 0 (Nat.lt_succ_self _)⟩

end FilemanagerHttpd.Audit
