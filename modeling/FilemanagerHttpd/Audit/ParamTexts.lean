import FilemanagerHttpd.Audit.Texts

/-!
# Parameter lists as text

A list of parameters as a client may write it, quoted or not and with blanks wherever they
are allowed, and what the scanner finds in it.
-/

namespace FilemanagerHttpd.Audit

open Library Server

/-- Text without blanks at its ends. -/
structure Trimmed (s : Bytes) : Prop where
  first : ∀ b ∈ s.head?, isWhiteSpace b = false
  last : ∀ b ∈ s.getLast?, isWhiteSpace b = false

def Blank (s : Bytes) : Prop := ∀ b ∈ s, isWhiteSpace b = true

instance (s : Bytes) : Decidable (Trimmed s) :=
  decidable_of_iff ((∀ b ∈ s.head?, isWhiteSpace b = false) ∧
    ∀ b ∈ s.getLast?, isWhiteSpace b = false) ⟨fun h => ⟨h.1, h.2⟩, fun h => ⟨h.1, h.2⟩⟩

instance (s : Bytes) : Decidable (Blank s) :=
  inferInstanceAs (Decidable (∀ b ∈ s, isWhiteSpace b = true))

section Blanks

theorem skipLeadingWS_blank {ws : Bytes} (s : Bytes) (hws : Blank ws)
    (hs : ∀ b ∈ s.head?, isWhiteSpace b = false) : skipLeadingWS (ws ++ s) = s := by
  rw [skipLeadingWS, List.dropWhile_append_of_pos hws]
  cases s with
  | nil => rfl
  | cons b s => exact List.dropWhile_cons_of_neg (by simp [hs b rfl])

theorem skipLeadingWS_nil {ws : Bytes} (hws : Blank ws) : skipLeadingWS ws = [] := by
  have h := skipLeadingWS_blank [] hws nofun
  rwa [List.append_nil] at h

theorem trimTrailingWS_blank {ws s : Bytes} (hws : Blank ws)
    (hs : ∀ b ∈ s.getLast?, isWhiteSpace b = false) : trimTrailingWS (s ++ ws) = s := by
  have hrev : Blank ws.reverse := fun b hb => hws b (List.mem_reverse.mp hb)
  have hskip := skipLeadingWS_blank s.reverse hrev fun b hb =>
    hs b (by rwa [List.head?_reverse] at hb)
  rw [trimTrailingWS, List.reverse_append]
  exact (congrArg List.reverse hskip).trans (List.reverse_reverse s)

theorem dchTrimWS_blank {front back s : Bytes} (hf : Blank front) (hb : Blank back)
    (hs : Trimmed s) : dchTrimWS (front ++ (s ++ back)) = s := by
  rw [dchTrimWS]
  by_cases hnil : s = []
  · subst hnil
    have hall : Blank (front ++ ([] ++ back)) := by
      intro b hm
      rcases List.mem_append.mp hm with hm | hm
      · exact hf b hm
      · exact hb b hm
    rw [skipLeadingWS_nil hall]
    rfl
  · have hhead : ∀ b ∈ (s ++ back).head?, isWhiteSpace b = false := by
      intro b hm
      rw [List.head?_append_of_ne_nil _ hnil] at hm
      exact hs.first b hm
    rw [skipLeadingWS_blank _ hf hhead, trimTrailingWS_blank hb hs.last]

theorem not_mem_blank {ws : Bytes} {c : Byte} (hws : Blank ws) (hc : isWhiteSpace c = false) :
    c ∉ ws := fun hm => by rw [hws c hm] at hc; cases hc

end Blanks

/-- A name and a value as they are written: `name = value` or `name = "value"`. -/
structure PairText (delimiter : Byte) where
  name : Bytes
  value : Bytes
  quoted : Bool
  lead : Bytes
  behindName : Bytes
  beforeValue : Bytes
  trail : Bytes
  lead_blank : Blank lead
  behindName_blank : Blank behindName
  beforeValue_blank : Blank beforeValue
  trail_blank : Blank trail
  name_trimmed : Trimmed name
  name_clean : equalsSign ∉ name
  value_clean : if quoted then quote ∉ value
    else Trimmed value ∧ delimiter ∉ value ∧ value.head? ≠ some quote

/-- A parameter: a pair that has a name. -/
structure ParamText (delimiter : Byte) extends PairText delimiter where
  name_nonempty : name ≠ []

variable {delimiter : Byte}

def PairText.valueText (p : PairText delimiter) : Bytes :=
  if p.quoted then quote :: (p.value ++ [quote]) else p.value

def PairText.text (p : PairText delimiter) : Bytes :=
  p.lead ++ (p.name ++ p.behindName) ++ equalsSign :: (p.beforeValue ++ (p.valueText ++ p.trail))

/-- A delimiter that is no blank and means nothing else to the scanner. -/
structure IsDelimiter (delimiter : Byte) : Prop where
  not_blank : isWhiteSpace delimiter = false
  not_quote : delimiter ≠ quote

theorem isDelimiter_comma : IsDelimiter comma := ⟨by decide, by decide⟩

theorem dchExtractTillChr_append {c : Byte} {before : Bytes} (rest : Bytes) (h : c ∉ before) :
    dchExtractTillChr (before ++ c :: rest) c = (true, before, rest) := by
  rw [dchExtractTillChr, splitAtByte_append rest h]

theorem dchExtractTillChr_none {c : Byte} {s : Bytes} (h : c ∉ s) :
    dchExtractTillChr s c = (false, s, []) := by
  rw [dchExtractTillChr, splitAtByte_none h]

theorem dchExtractParam_quoted {line name rest quoted : DataChunk}
    (h : dchExtractTillChr line equalsSign = (true, name, rest))
    (hquoted : skipLeadingWS rest = quote :: quoted) :
    dchExtractParam line delimiter =
      some ⟨dchTrimWS name, (dchExtractTillChr quoted quote).2.1,
        (dchShiftAfterChr (dchExtractTillChr quoted quote).2.2 delimiter).2⟩ := by
  rw [dchExtractParam, h]
  dsimp only
  rw [hquoted]
  rfl

theorem dchExtractParam_plain {line name rest : DataChunk}
    (h : dchExtractTillChr line equalsSign = (true, name, rest))
    (hplain : (skipLeadingWS rest).head? ≠ some quote) :
    dchExtractParam line delimiter =
      some ⟨dchTrimWS name, trimTrailingWS (dchExtractTillChr (skipLeadingWS rest) delimiter).2.1,
        (dchExtractTillChr (skipLeadingWS rest) delimiter).2.2⟩ := by
  rw [dchExtractParam, h]
  dsimp only
  split
  · rename_i he
    rw [he] at hplain
    exact absurd rfl hplain
  · rfl

/-- The name of a parameter is found in front of what follows it. -/
theorem PairText.extract_name (p : PairText delimiter) (rest : Bytes) :
    dchExtractTillChr (p.text ++ rest) equalsSign =
      (true, p.lead ++ (p.name ++ p.behindName),
        p.beforeValue ++ (p.valueText ++ (p.trail ++ rest))) := by
  have hname : equalsSign ∉ p.lead ++ (p.name ++ p.behindName) := by
    intro hm
    rcases List.mem_append.mp hm with hm | hm
    · exact not_mem_blank p.lead_blank (by decide) hm
    · rcases List.mem_append.mp hm with hm | hm
      · exact p.name_clean hm
      · exact not_mem_blank p.behindName_blank (by decide) hm
  have htext : p.text ++ rest = p.lead ++ (p.name ++ p.behindName) ++
      equalsSign :: (p.beforeValue ++ (p.valueText ++ (p.trail ++ rest))) := by
    simp [PairText.text]
  rw [htext, dchExtractTillChr_append _ hname]

/-- A value without quotes is found behind the blanks in front of it. -/
theorem PairText.skip_value (p : PairText delimiter) (hq : p.quoted = false) {t : Bytes}
    (ht : ∀ b ∈ t.head?, isWhiteSpace b = false ∧ b ≠ quote) :
    ∃ w, Blank w ∧ skipLeadingWS (p.beforeValue ++ (p.valueText ++ (p.trail ++ t))) =
        p.value ++ (w ++ t) ∧ (p.value ++ (w ++ t)).head? ≠ some quote := by
  have hclean := p.value_clean
  have htext : p.valueText = p.value := by
    unfold PairText.valueText
    rw [hq]
    rfl
  rw [hq] at hclean
  obtain ⟨htrim, -, hquote⟩ := hclean
  rw [htext]
  by_cases hnil : p.value = []
  · have hfront : Blank (p.beforeValue ++ p.trail) := by
      intro b hb
      rcases List.mem_append.mp hb with hb | hb
      · exact p.beforeValue_blank b hb
      · exact p.trail_blank b hb
    refine ⟨[], nofun, ?_, ?_⟩
    · rw [hnil, List.nil_append, ← List.append_assoc,
        skipLeadingWS_blank t hfront fun b hb => (ht b hb).1]
      rfl
    · rw [hnil]
      exact fun hh => (ht quote hh).2 rfl
  · refine ⟨p.trail, p.trail_blank, ?_, ?_⟩
    · refine skipLeadingWS_blank _ p.beforeValue_blank fun b hb => ?_
      rw [List.head?_append_of_ne_nil _ hnil] at hb
      exact htrim.first b hb
    · rwa [List.head?_append_of_ne_nil _ hnil]

/-- A parameter in front of a delimiter. -/
theorem dchExtractParam_text (hd : IsDelimiter delimiter) (p : PairText delimiter)
    (rest : Bytes) :
    dchExtractParam (p.text ++ delimiter :: rest) delimiter = some ⟨p.name, p.value, rest⟩ := by
  have hname := dchTrimWS_blank p.lead_blank p.behindName_blank p.name_trimmed
  have htrail : delimiter ∉ p.trail := not_mem_blank p.trail_blank hd.not_blank
  have hclean := p.value_clean
  cases hq : p.quoted with
  | true =>
    rw [hq, if_pos rfl] at hclean
    have hskip : skipLeadingWS (p.beforeValue ++ (p.valueText ++ (p.trail ++ delimiter :: rest))) =
        quote :: (p.value ++ quote :: (p.trail ++ delimiter :: rest)) := by
      rw [skipLeadingWS_blank]
      · simp [PairText.valueText, hq]
      · exact p.beforeValue_blank
      · simp [PairText.valueText, hq]; decide
    rw [dchExtractParam_quoted (p.extract_name _) hskip, hname,
      dchExtractTillChr_append _ hclean, dchShiftAfterChr, splitAtByte_append _ htrail]
  | false =>
    rw [hq] at hclean
    obtain ⟨htrim, hdelim, -⟩ := hclean
    obtain ⟨w, hw, hskip, hhead⟩ := p.skip_value hq (t := delimiter :: rest) fun b hb => by
      obtain rfl : delimiter = b := Option.some.inj hb
      exact ⟨hd.not_blank, hd.not_quote⟩
    have hfront : delimiter ∉ p.value ++ w := by
      intro hm
      rcases List.mem_append.mp hm with hm | hm
      · exact hdelim hm
      · exact not_mem_blank hw hd.not_blank hm
    rw [← hskip] at hhead
    rw [dchExtractParam_plain (p.extract_name _) hhead, hname, hskip, ← List.append_assoc,
      dchExtractTillChr_append _ hfront, trimTrailingWS_blank hw htrim.last]

/-- The last parameter; blanks at most are left behind it. -/
theorem dchExtractParam_last (hd : IsDelimiter delimiter) (p : PairText delimiter) :
    ∃ left, Blank left ∧ dchExtractParam p.text delimiter = some ⟨p.name, p.value, left⟩ := by
  have hname := dchTrimWS_blank p.lead_blank p.behindName_blank p.name_trimmed
  have htrail : delimiter ∉ p.trail := not_mem_blank p.trail_blank hd.not_blank
  have hextract := p.extract_name []
  have hclean := p.value_clean
  rw [List.append_nil, List.append_nil] at hextract
  cases hq : p.quoted with
  | true =>
    rw [hq, if_pos rfl] at hclean
    have hskip : skipLeadingWS (p.beforeValue ++ (p.valueText ++ p.trail)) =
        quote :: (p.value ++ quote :: p.trail) := by
      rw [skipLeadingWS_blank]
      · simp [PairText.valueText, hq]
      · exact p.beforeValue_blank
      · simp [PairText.valueText, hq]; decide
    refine ⟨p.trail, p.trail_blank, ?_⟩
    rw [dchExtractParam_quoted hextract hskip, hname, dchExtractTillChr_append _ hclean,
      dchShiftAfterChr, splitAtByte_none htrail]
  | false =>
    rw [hq] at hclean
    obtain ⟨htrim, hdelim, -⟩ := hclean
    obtain ⟨w, hw, hskip, hhead⟩ := p.skip_value hq (t := []) nofun
    rw [List.append_nil, List.append_nil] at hskip
    rw [List.append_nil] at hhead
    have hall : delimiter ∉ p.value ++ w := by
      intro hm
      rcases List.mem_append.mp hm with hm | hm
      · exact hdelim hm
      · exact not_mem_blank hw hd.not_blank hm
    refine ⟨[], nofun, ?_⟩
    rw [← hskip] at hhead
    rw [dchExtractParam_plain hextract hhead, hname, hskip, dchExtractTillChr_none hall,
      trimTrailingWS_blank hw htrim.last]

/-- A list of pairs. -/
def pairList (delimiter : Byte) : List (PairText delimiter) → Bytes
  | [] => []
  | [p] => p.text
  | p :: q :: rest => p.text ++ delimiter :: pairList delimiter (q :: rest)

/-- A list of parameters. -/
def paramList (delimiter : Byte) : List (ParamText delimiter) → Bytes
  | [] => []
  | [p] => p.text
  | p :: q :: rest => p.text ++ delimiter :: paramList delimiter (q :: rest)

theorem PairText.mem_text (p : PairText delimiter) {b : Byte} (hb : b ∈ p.value) :
    b ∈ p.text := by
  unfold PairText.text PairText.valueText
  split <;> simp [hb]

theorem mem_paramList {ps : List (ParamText delimiter)} {p : ParamText delimiter} (hp : p ∈ ps)
    {b : Byte} (hb : b ∈ p.text) : b ∈ paramList delimiter ps := by
  induction ps with
  | nil => cases hp
  | cons q ps ih =>
    cases ps with
    | nil =>
      obtain rfl := List.mem_singleton.mp hp
      exact hb
    | cons r rest =>
      rw [paramList]
      rcases List.mem_cons.mp hp with rfl | hp
      · exact List.mem_append_left _ hb
      · exact List.mem_append_right _ (.tail _ (ih hp))

theorem blank_nil : Blank [] := List.forall_mem_nil _

/-- Without the blanks in front. -/
def ParamText.stripped (p : ParamText delimiter) : ParamText delimiter :=
  { p with lead := [], lead_blank := blank_nil }

/-- Blanks in front of a list belong to its first parameter. -/
theorem skipLeadingWS_paramList {ws : Bytes} (hws : Blank ws) (p : ParamText delimiter)
    (ps : List (ParamText delimiter)) :
    skipLeadingWS (ws ++ paramList delimiter (p :: ps)) =
      paramList delimiter (p.stripped :: ps) := by
  have htext : ∀ t : Bytes, skipLeadingWS (ws ++ (p.text ++ t)) = p.stripped.text ++ t := by
    intro t
    have hfront : Blank (ws ++ p.lead) := by
      intro b hb
      rcases List.mem_append.mp hb with hb | hb
      · exact hws b hb
      · exact p.lead_blank b hb
    have hsplit : ws ++ (p.text ++ t) = ws ++ p.lead ++ (p.stripped.text ++ t) := by
      have hvalue : p.stripped.valueText = p.valueText := rfl
      simp only [PairText.text, hvalue, List.append_assoc]
      rfl
    rw [hsplit]
    refine skipLeadingWS_blank _ hfront fun b hb => p.name_trimmed.first b ?_
    have hhead : (p.stripped.text ++ t).head? = p.name.head? := by
      simp [PairText.text, ParamText.stripped, List.head?_append_of_ne_nil _ p.name_nonempty]
    rwa [hhead] at hb
  cases ps with
  | nil =>
    have h := htext []
    rwa [List.append_nil, List.append_nil] at h
  | cons q rest => exact htext (delimiter :: paramList delimiter (q :: rest))

theorem dchExtractParam_blank {line : DataChunk} (h : Blank line) :
    dchExtractParam line delimiter = none := by
  rw [dchExtractParam, dchExtractTillChr_none (not_mem_blank h (by decide))]

/-- The scanner finds the parameters that were written. -/
theorem dchParams_pairs (hd : IsDelimiter delimiter) (ps : List (PairText delimiter)) {n : Nat}
    (hn : ps.length ≤ n) :
    (dchParams delimiter n (pairList delimiter ps)).map (fun p => (p.name, p.value)) =
      ps.map fun p => (p.name, p.value) := by
  induction ps generalizing n with
  | nil =>
    cases n with
    | zero => rfl
    | succ n =>
      have hblank : Blank [] := blank_nil
      rw [pairList, dchParams, dchExtractParam_blank hblank]
      rfl
  | cons p ps ih =>
    obtain ⟨n, rfl⟩ : ∃ m, n = m + 1 := ⟨n - 1, by rw [List.length_cons] at hn; omega⟩
    rw [List.length_cons] at hn
    cases ps with
    | nil =>
      obtain ⟨left, hleft, hlast⟩ := dchExtractParam_last hd p
      rw [pairList, dchParams, hlast]
      have hnone : dchParams delimiter n left = [] := by
        cases n with
        | zero => rfl
        | succ n => rw [dchParams, dchExtractParam_blank hleft]
      simp [hnone]
    | cons q rest =>
      have hrec := ih (n := n) (by omega)
      rw [pairList, dchParams, dchExtractParam_text hd p]
      simp only [List.map_cons] at hrec ⊢
      rw [hrec]

theorem paramList_eq (ps : List (ParamText delimiter)) :
    paramList delimiter ps = pairList delimiter (ps.map (·.toPairText)) := by
  induction ps with
  | nil => rfl
  | cons p ps ih =>
    cases ps with
    | nil => rfl
    | cons q rest => exact congrArg (p.text ++ delimiter :: ·) ih

theorem dchParams_text (hd : IsDelimiter delimiter) (ps : List (ParamText delimiter)) {n : Nat}
    (hn : ps.length ≤ n) :
    (dchParams delimiter n (paramList delimiter ps)).map (fun p => (p.name, p.value)) =
      ps.map fun p => (p.name, p.value) := by
  rw [paramList_eq, dchParams_pairs hd _ (by rwa [List.length_map]), List.map_map]
  rfl

/-- Each parameter takes a byte at least. -/
theorem length_le_paramList (ps : List (ParamText delimiter)) :
    ps.length ≤ (paramList delimiter ps).length := by
  have htext : ∀ p : ParamText delimiter, 1 ≤ p.text.length := by
    intro p
    simp only [PairText.text, List.length_append, List.length_cons]
    omega
  induction ps with
  | nil => exact le_refl 0
  | cons p ps ih =>
    have hp := htext p
    cases ps with
    | nil => exact hp
    | cons q rest =>
      simp only [paramList, List.length_append, List.length_cons] at ih ⊢
      omega

section ReadBack

/-- The delimiters of the lists that the server reads. -/
inductive ListDelimiter
  | comma | semicolon
  deriving DecidableEq, Repr

def ListDelimiter.byte : ListDelimiter → Byte
  | .comma => Server.comma
  | .semicolon => Server.semicolon

theorem isDelimiter_byte (d : ListDelimiter) : IsDelimiter d.byte := by
  cases d with
  | comma => exact ⟨by decide, by decide⟩
  | semicolon => exact ⟨by decide, by decide⟩

/-- Calls of the scanner one after the other: what they find, and what is left of the line. -/
inductive Extracts (delimiter : Byte) : DataChunk → List (Bytes × Bytes) → DataChunk → Prop
  | nil (line : DataChunk) : Extracts delimiter line [] line
  | cons {line next left : DataChunk} {name value : Bytes} {pairs : List (Bytes × Bytes)} :
      dchExtractParam line delimiter = some ⟨name, value, next⟩ →
      Extracts delimiter next pairs left → Extracts delimiter line ((name, value) :: pairs) left

/-- A list is read back as it was written, and nothing after it. -/
theorem pairs_read_back (d : ListDelimiter) (ps : List (PairText d.byte)) :
    ∃ left, Extracts d.byte (pairList d.byte ps) (ps.map fun p => (p.name, p.value)) left ∧
      dchExtractParam left d.byte = none := by
  have hd := isDelimiter_byte d
  induction ps with
  | nil => exact ⟨[], .nil [], dchExtractParam_blank nofun⟩
  | cons p ps ih =>
    cases ps with
    | nil =>
      obtain ⟨left, hleft, hlast⟩ := dchExtractParam_last hd p
      exact ⟨left, .cons hlast (.nil left), dchExtractParam_blank hleft⟩
    | cons q rest =>
      obtain ⟨left, hrest, hend⟩ := ih
      exact ⟨left, .cons (dchExtractParam_text hd p _) hrest, hend⟩

end ReadBack

end FilemanagerHttpd.Audit
