import FilemanagerHttpd.Audit.RequestText

/-!
# Request lines with percent signs

Which request lines are split where their text says. A percent sign takes the next two
characters with it whatever they are, the question mark or the space that ends the path among
them.
-/

namespace FilemanagerHttpd.Audit

open Library Server

/-- Each `%HH` is the byte it stands for, and every other byte stands for itself. -/
def urlDecode : Bytes → Bytes
  | 37 :: h :: l :: rest =>
    if isDigit 16 h && isDigit 16 l then (digitsVal 16 [h, l]).toUInt8 :: urlDecode rest
    else 37 :: urlDecode (h :: l :: rest)
  | b :: rest => b :: urlDecode rest
  | [] => []

/-- The text of a target in front of its first question mark. -/
def pathText (target : Bytes) : Bytes := target.takeWhile (· != question)

/-- The text behind it. -/
def queryText (target : Bytes) : Option Bytes := (splitAtByte question target).map (·.2)

structure StartLine where
  method : Bytes
  target : Bytes
  version : Bytes
  method_nonempty : method ≠ []
  method_clean : ∀ b ∈ method, b ∉ [space, lf, cr, nul]
  target_clean : ∀ b ∈ target, b ∉ [space, lf, cr, nul]
  version_clean : nul ∉ version

def StartLine.line (x : StartLine) : Bytes :=
  x.method ++ space :: (x.target ++ (ascii " HTTP/" ++ x.version))

/-- The line is split where its text says. -/
structure ReadsLine (x : StartLine) (req : RequestHeader) : Prop where
  path : req.path = some (urlDecode (pathText x.target))
  query : req.query = queryText x.target
  version : req.version = x.version

section Percent

theorem stripSign_sublist (s : Bytes) : (stripSign s).2.Sublist s := by
  unfold stripSign
  split
  · exact List.sublist_cons_self _ _
  · exact List.sublist_cons_self _ _
  · exact List.Sublist.refl _

theorem stripHexPrefix_short {s : Bytes} (h : s.length ≤ 2) : stripHexPrefix s = s := by
  unfold stripHexPrefix
  split
  · simp at h
  · simp at h
  · rfl

/-- What is no escape does not give the percent sign. -/
theorem percentByte_ne {num : Bytes} (hlen : num.length ≤ 2)
    (hnum : ¬ (num.length = 2 ∧ ∀ b ∈ num, isDigit 16 b = true)) : percentByte num ≠ percent := by
  have hsub := (stripSign_sublist ((cstr num).dropWhile isSpace)).trans
    ((List.dropWhile_sublist isSpace).trans (List.takeWhile_sublist _))
  rw [percentByte, strtoul]
  generalize stripSign ((cstr num).dropWhile isSpace) = r at hsub ⊢
  obtain ⟨negative, s⟩ := r
  simp only [if_true]
  have hs : s.length ≤ 2 := hsub.length_le.trans hlen
  rw [stripHexPrefix_short hs]
  have hdigits : ∀ b ∈ s.takeWhile (isDigit 16), isDigit 16 b = true :=
    fun b hb => List.mem_takeWhile_imp hb
  have htake : (s.takeWhile (isDigit 16)).Sublist num := (List.takeWhile_sublist _).trans hsub
  generalize s.takeWhile (isDigit 16) = ds at hdigits htake ⊢
  have hone : ds.length ≤ 1 := by
    by_contra htwo
    have hfull : ds = num := htake.eq_of_length (by have := htake.length_le; omega)
    exact hnum ⟨by rw [← hfull]; have := htake.length_le; omega, hfull ▸ hdigits⟩
  have hsmall : digitsVal 16 ds < 16 := by
    rcases ds with _ | ⟨d, _ | ⟨e, ds⟩⟩
    · decide
    · have hd : digitVal d < 16 := of_decide_eq_true (hdigits d List.mem_cons_self)
      simpa [digitsVal] using hd
    · exact absurd hone (by simp)
  generalize digitsVal 16 ds = n at hsmall ⊢
  rw [if_neg (by unfold ulongSize; omega)]
  interval_cases n <;> cases negative <;> decide

theorem digitsVal_pair {h l : Byte} (hh : isDigit 16 h = true) (hl : isDigit 16 l = true) :
    digitsVal 16 [h, l] < 256 := by
  have hh' : digitVal h < 16 := of_decide_eq_true hh
  have hl' : digitVal l < 16 := of_decide_eq_true hl
  simp only [digitsVal, List.foldl_cons, List.foldl_nil]
  omega

theorem toNat_digitsVal_pair {h l : Byte} (hh : isDigit 16 h = true) (hl : isDigit 16 l = true) :
    digitsVal 16 [h, l] = ((digitsVal 16 [h, l]).toUInt8).toNat := by
  have hlt := digitsVal_pair hh hl
  simp only [Nat.toUInt8, UInt8.toNat_ofNat']
  omega

theorem urlDecode_other {b : Byte} (h : b ≠ percent) (rest : Bytes) :
    urlDecode (b :: rest) = b :: urlDecode rest := by
  rw [urlDecode]
  rintro _ _ _ rfl
  exact absurd rfl h

theorem urlDecode_escaped {path text : Bytes} (h : Escaped path text) : urlDecode text = path := by
  induction h with
  | nil => rfl
  | @raw b path text hb _ ih =>
    have hpercent : b ≠ percent := by
      rintro rfl
      exact hb (by decide)
    rw [urlDecode_other hpercent, ih]
  | @hex b h l path text hh hl hval _ _ ih =>
    rw [percent, urlDecode, hh, hl, ih, hval]
    exact congrArg (· :: path) UInt8.ofNat_toNat

theorem cstr_cons {b : Byte} (h : b ≠ nul) (s : Bytes) : cstr (b :: s) = b :: cstr s :=
  List.takeWhile_cons_of_pos (by simpa using h)

/-- A text whose decoded form is what the server reads has escapes only where it has percent
signs. -/
theorem escaped_of_decodePath {text tail : Bytes} {stop : Byte}
    (hclean : ∀ b ∈ text, b ∉ [space, question, cr, lf, nul]) (hstop : isDigit 16 stop = false)
    (h : cstr (decodePath (text ++ stop :: tail)).1 = urlDecode text) :
    ∃ path, Escaped path text := by
  -- the first byte of what a percent sign gives
  have hfirst : ∀ {num rest decoded : Bytes}, num.length ≤ 2 →
      ¬ (num.length = 2 ∧ ∀ b ∈ num, isDigit 16 b = true) →
      cstr (percentByte num :: rest) ≠ 37 :: decoded := by
    intro num rest decoded hlen hnum he
    have hne := percentByte_ne hlen hnum
    rw [cstr, List.takeWhile_cons] at he
    split at he
    · exact hne (List.cons.inj he).1
    · cases he
  induction text using urlDecode.induct with
  | case1 b l rest hhex ih =>
    have hh : isDigit 16 b = true := (Bool.and_eq_true _ _ ▸ hhex).1
    have hl : isDigit 16 l = true := (Bool.and_eq_true _ _ ▸ hhex).2
    rw [urlDecode, if_pos hhex, ← percent, List.cons_append, List.cons_append, List.cons_append,
      decodePath_hex, percentByte_hex hh hl (toNat_digitsVal_pair hh hl), cstr,
      List.takeWhile_cons] at h
    split at h
    · rename_i hne
      obtain ⟨path, hpath⟩ := ih (fun c hc => hclean c (.tail _ (.tail _ (.tail _ hc))))
        (List.cons.inj h).2
      exact ⟨_, .hex hh hl (toNat_digitsVal_pair hh hl) (by simpa using hne) hpath⟩
    · cases h
  | case2 b l rest hhex _ =>
    rw [urlDecode, if_neg hhex, ← percent, List.cons_append, List.cons_append, List.cons_append,
      decodePath_hex] at h
    refine absurd h (hfirst (le_refl 2) ?_)
    rintro ⟨-, hall⟩
    exact hhex (by rw [hall b (by simp), hall l (by simp)]; rfl)
  | case3 b rest hne ih =>
    by_cases hb : b = percent
    · subst hb
      -- the text ends before two more characters
      rcases rest with _ | ⟨c, _ | ⟨d, rest⟩⟩
      · cases tail with
        | nil => exact absurd h (hfirst (by simp) (by simp))
        | cons c tail =>
          refine absurd h (hfirst (by simp) ?_)
          rintro ⟨-, hall⟩
          rw [hall stop (by simp)] at hstop
          cases hstop
      · refine absurd h (hfirst (by simp) ?_)
        rintro ⟨-, hall⟩
        rw [hall stop (by simp)] at hstop
        cases hstop
      · exact absurd rfl (hne c d rest rfl)
    · have hcb := hclean b List.mem_cons_self
      have hend : ¬ (b = space ∨ b = question) := by
        rintro (rfl | rfl)
        · exact hcb (by simp)
        · exact hcb (by simp)
      have hnul : b ≠ nul := fun he => hcb (by simp [he])
      rw [List.cons_append, decodePath_raw _ hend hb, urlDecode_other hb, cstr_cons hnul] at h
      obtain ⟨path, hpath⟩ := ih (fun c hc => hclean c (.tail _ hc)) (List.cons.inj h).2
      refine ⟨b :: path, .raw (fun hm => ?_) hpath⟩
      simp only [List.mem_cons, List.not_mem_nil, or_false] at hm hcb
      tauto
  | case4 => exact ⟨[], .nil⟩

end Percent

section Split

variable (x : StartLine)

/-- A target is its path and its query. -/
theorem target_split :
    x.target = pathText x.target ++ queryPart (queryText x.target) ∧
      question ∉ pathText x.target := by
  have hno : question ∉ pathText x.target := fun hm => by
    simpa using List.mem_takeWhile_imp hm
  refine ⟨?_, hno⟩
  rw [queryText]
  cases hsplit : splitAtByte question x.target with
  | none =>
    have hall := not_mem_of_splitAtByte hsplit
    have hpath : pathText x.target = x.target :=
      List.takeWhile_eq_self_iff.mpr fun b hb => by
        simpa using fun he : b = question => hall (he ▸ hb)
    rw [hpath]
    exact (List.append_nil _).symm
  | some p =>
    obtain ⟨before, rest⟩ := p
    obtain ⟨hbefore, heq⟩ := splitAtByte_eq hsplit
    have hpath : pathText x.target = before := by
      rw [pathText, heq, List.takeWhile_append_of_pos]
      · exact List.append_nil before
      · exact fun b hb => by simpa using fun he : b = question => hbefore (he ▸ hb)
    rw [hpath]
    exact heq

theorem pathText_clean : ∀ b ∈ pathText x.target, b ∉ [space, question, cr, lf, nul] := by
  intro b hb hm
  have hmem : b ∈ x.target := (List.takeWhile_sublist _).mem hb
  have htarget := x.target_clean b hmem
  have hquestion : b ≠ question := fun he => (target_split x).2 (he ▸ hb)
  simp only [List.mem_cons, List.not_mem_nil, or_false] at hm htarget
  tauto

/-- The line is split where its text says if and only if each percent sign in front of the first
question mark begins an escape, and none of them stands for a zero byte. -/
theorem start_line_read_iff :
    ReadsLine x (decodeRequestStartLine { reqhdrNew with request := x.line }) ↔
      ∃ path, Escaped path (pathText x.target) := by
  obtain ⟨htarget, hpath⟩ := target_split x
  have hmethod : space ∉ x.method := fun hm => x.method_clean space hm (by simp)
  have hquery : ∀ q ∈ queryText x.target, space ∉ q := by
    intro q hq hm
    refine x.target_clean space ?_ (by simp)
    rw [htarget, hq]
    exact List.mem_append_right _ (.tail _ hm)
  have hline : x.line = x.method ++ space :: (pathText x.target ++
      (queryPart (queryText x.target) ++ (ascii " HTTP/" ++ x.version))) := by
    rw [StartLine.line, ← List.append_assoc (pathText x.target), ← htarget]
  have hclean : nul ∉ x.line := by
    rw [StartLine.line]
    simp only [List.mem_append, List.mem_cons, not_or]
    refine ⟨fun hm => x.method_clean nul hm (by simp), by decide, ?_, by decide, x.version_clean⟩
    exact fun hm => x.target_clean nul hm (by simp)
  constructor
  · intro h
    have hread := h.path
    obtain ⟨stop, tail, hstop, htail⟩ : ∃ stop tail, isDigit 16 stop = false ∧
        queryPart (queryText x.target) ++ (ascii " HTTP/" ++ x.version) = stop :: tail := by
      cases queryText x.target with
      | none => exact ⟨space, _, rfl, rfl⟩
      | some q => exact ⟨question, _, rfl, rfl⟩
    have hdecoded : (decodeRequestStartLine { reqhdrNew with request := x.line }).path =
        some (cstr (decodePath (pathText x.target ++ stop :: tail)).1) := by
      have hcstr := cstr_eq_self hclean
      rw [hline, htail] at hcstr ⊢
      simp only [decodeRequestStartLine, hcstr, splitAtByte_append _ hmethod]
      split
      · rename_i hdecode
        rw [hdecode]
      · rename_i hdecode
        rw [hdecode]
    rw [hdecoded, Option.some.injEq] at hread
    exact escaped_of_decodePath (pathText_clean x) hstop hread
  · rintro ⟨path, hescaped⟩
    rw [hline] at hclean ⊢
    rw [decodeRequestStartLine_line hclean hmethod (escaped_nul hescaped) hquery
      (decodePath_escaped hescaped)]
    exact ⟨by rw [urlDecode_escaped hescaped], rfl, rfl⟩

/-- The escape `%?` takes the question mark with it. -/
theorem escape_takes_question :
    ∃ x : StartLine,
      ¬ ReadsLine x (decodeRequestStartLine { reqhdrNew with request := x.line }) := by
  refine ⟨⟨ascii "GET", ascii "/a%?q=1", ascii "1.1", ?_, ?_, ?_, ?_⟩, fun h => ?_⟩
  · decide +kernel
  · decide +kernel
  · decide +kernel
  · decide +kernel
  · exact absurd h.query (by decide +kernel)

end Split

end FilemanagerHttpd.Audit
