import FilemanagerHttpd.Audit.ParamTexts
import FilemanagerHttpd.Server.ConfigFile

/-!
# The lines of the configuration files

A line is an option with a value or nothing, and an option changes one table: a share or a
credential is added, and patterns are added or dropped.
-/

namespace FilemanagerHttpd.Audit

open Library Server

/-- The lines of a text; the last one need not be ended. -/
def fileLines : Bytes → List Bytes
  | [] => []
  | b :: rest =>
    if b = lf then [] :: fileLines rest
    else match fileLines rest with
      | [] => [[b]]
      | line :: lines => (b :: line) :: lines

/-- The option of a line, its name and its value without blanks around them. Comments, blank lines
and lines without a `=` have none. -/
def lineOption (line : Bytes) : Option (Bytes × Bytes) :=
  let text := dchTrimWS (cstr line)
  if text.head? = some hash then none
  else (splitAtByte equalsSign text).map fun o => (dchTrimWS o.1, dchTrimWS o.2)

/-- The options of all files that can be opened, in order. -/
def fileOptions (files : List (Option Bytes)) : List (Bytes × Bytes) :=
  files.flatMap fun content => ((content.map fileLines).getD []).filterMap lineOption

/-- The options that a line may have besides shares. -/
def optionNames : List Bytes :=
  [ascii "index", ascii "cgi", ascii "port", ascii "user", ascii "dirops", ascii "guestops",
    ascii "credentials", ascii "maxclients"]

section Tables

variable (options : List (Bytes × Bytes))

/-- The values of an option, in order. -/
def valuesOf (name : Bytes) : List Bytes := (options.filter fun o => o.1 = name).map Prod.snd

/-- The values behind the last empty one. -/
def afterLastEmpty (values : List Bytes) : List Bytes :=
  (values.reverse.takeWhile (· ≠ [])).reverse

/-- The words of a text. -/
def blankWords (s : Bytes) : List Bytes := (s.splitOnP isWhiteSpace).filter (· ≠ [])

def patternsOf (name : Bytes) : List Bytes :=
  (afterLastEmpty (valuesOf options name)).flatMap blankWords

def sharesOf : List Share :=
  (options.filter fun o => o.1.head? = some slash).map fun o =>
    ⟨dchTrimTrailing o.1 slash, dchTrimTrailing o.2 slash⟩

/-- The tables are not longer than their counters count. -/
structure Room : Prop where
  shares : (sharesOf options).length < intBound
  credentials : (valuesOf options (ascii "credentials")).length < intBound
  index : (patternsOf options (ascii "index")).length < uintSize
  cgi : (patternsOf options (ascii "cgi")).length < uintSize

end Tables

section Words

variable {s : Bytes}

theorem blankWords_skip (s : Bytes) : blankWords (skipLeadingWS s) = blankWords s := by
  induction s with
  | nil => rfl
  | cons b s ih =>
    by_cases hb : isWhiteSpace b = true
    · have hskip : skipLeadingWS (b :: s) = skipLeadingWS s := List.dropWhile_cons_of_pos hb
      rw [hskip, ih, blankWords, blankWords, List.splitOnP_cons_eq_if_modifyHead, if_pos hb]
      rfl
    · have hskip : skipLeadingWS (b :: s) = b :: s := List.dropWhile_cons_of_neg hb
      rw [hskip]

theorem blankWords_none (h : dchExtractTillWS s = none) : blankWords s = [] := by
  rw [dchExtractTillWS] at h
  split at h
  · rename_i hskip
    rw [← blankWords_skip, hskip]
    rfl
  · cases h

/-- The tokenizer takes the first word off. -/
theorem blankWords_some {word rest : Bytes} (h : dchExtractTillWS s = some (word, rest)) :
    blankWords s = word :: blankWords rest ∧ rest.length < s.length := by
  rw [dchExtractTillWS] at h
  split at h
  · cases h
  · rename_i b tail hskip
    obtain ⟨rfl, rfl⟩ := Prod.mk.inj (Option.some.inj h)
    have hb : isWhiteSpace b = false := by
      have hhead : (s.dropWhile isWhiteSpace).head? = some b := by
        rw [show s.dropWhile isWhiteSpace = b :: tail from hskip]
        rfl
      exact head?_of_dropWhile hhead
    have hle : (b :: tail).length ≤ s.length := by
      rw [← hskip]
      exact (List.dropWhile_suffix isWhiteSpace).length_le
    have hfirst : (b :: tail).takeWhile (! isWhiteSpace ·) =
        b :: tail.takeWhile (! isWhiteSpace ·) := List.takeWhile_cons_of_pos (by simp [hb])
    have hall : ∀ x ∈ (b :: tail).takeWhile (! isWhiteSpace ·), isWhiteSpace x = false := by
      intro x hx
      simpa using List.mem_takeWhile_imp hx
    have hparts : (b :: tail).takeWhile (! isWhiteSpace ·) ++
        (b :: tail).dropWhile (! isWhiteSpace ·) = b :: tail := List.takeWhile_append_dropWhile
    have hkeep : ((b :: tail).takeWhile (! isWhiteSpace ·) ≠ []) := by rw [hfirst]; simp
    refine ⟨?_, ?_⟩
    · rw [← blankWords_skip s, hskip, blankWords_skip]
      generalize (b :: tail).takeWhile (! isWhiteSpace ·) = word at *
      cases hdrop : (b :: tail).dropWhile (! isWhiteSpace ·) with
      | nil =>
        rw [hdrop, List.append_nil] at hparts
        rw [← hparts, blankWords, List.splitOnP_eq_singleton hall]
        simp [hkeep, blankWords]
      | cons c back =>
        have hc : isWhiteSpace c = true := by
          have hhead : ((b :: tail).dropWhile (! isWhiteSpace ·)).head? = some c := by
            rw [hdrop]
            rfl
          simpa using head?_of_dropWhile hhead
        rw [hdrop] at hparts
        have hrest : blankWords (c :: back) = blankWords back := by
          rw [← blankWords_skip, skipLeadingWS, List.dropWhile_cons_of_pos hc]
          exact blankWords_skip back
        rw [hrest, ← hparts, blankWords, List.splitOnP_append_cons_of_forall_mem hall c hc]
        simp [hkeep, blankWords]
    · have hl := congrArg List.length hparts
      rw [List.length_append, hfirst] at hl
      have hless := (List.dropWhile_suffix isWhiteSpace
        (l := (b :: tail).dropWhile (! isWhiteSpace ·))).length_le
      simp only [List.length_cons] at hl hle
      show (((b :: tail).dropWhile _).dropWhile isWhiteSpace).length < _
      omega

theorem appendPatterns_eq {n : Nat} {patterns : List Bytes} (hn : s.length < n)
    (hroom : patterns.length < uintSize) : appendPatterns n s patterns =
      if patterns.length + (blankWords s).length < uintSize then .ok (patterns ++ blankWords s)
      else .error .heapOverflow := by
  induction n generalizing s patterns with
  | zero => omega
  | succ n ih =>
    rw [appendPatterns]
    cases hword : dchExtractTillWS s with
    | none =>
      rw [blankWords_none hword, List.append_nil]
      exact (if_pos hroom).symm
    | some p =>
      obtain ⟨word, rest⟩ := p
      obtain ⟨hwords, hless⟩ := blankWords_some hword
      rw [hwords, List.length_cons]
      by_cases hmore : patterns.length + 1 < uintSize
      · have hstep : appendEntry uintSize patterns word = .ok (patterns ++ [word]) := if_pos hmore
        have hlen : (patterns ++ [word]).length = patterns.length + 1 := List.length_append
        show (appendEntry uintSize patterns word >>= _ : Except Fault (List Bytes)) = _
        rw [hstep]
        show appendPatterns n rest (patterns ++ [word]) = _
        rw [ih (by omega) (by omega), hlen, List.append_assoc, List.singleton_append,
          Nat.add_assoc, Nat.add_comm 1]
      · have hstep : appendEntry uintSize patterns word = .error .heapOverflow := if_neg hmore
        show (appendEntry uintSize patterns word >>= _ : Except Fault (List Bytes)) = _
        rw [hstep, if_neg (by omega)]
        rfl

end Words

section Options

variable {st : ConfigState} {buf : Bytes}

/-- A text is what trimming leaves of it between blanks. -/
theorem trimmed_parts (t : Bytes) : ∃ front back, Blank front ∧ Blank back ∧
    t = front ++ (dchTrimWS t ++ back) ∧ Trimmed (dchTrimWS t) := by
  have hfront : t.takeWhile isWhiteSpace ++ t.dropWhile isWhiteSpace = t :=
    List.takeWhile_append_dropWhile
  have hskip : ∀ b ∈ (skipLeadingWS t).head?, isWhiteSpace b = false :=
    fun b hb => head?_of_dropWhile hb
  have hback : skipLeadingWS t = dchTrimWS t ++
      ((skipLeadingWS t).reverse.takeWhile isWhiteSpace).reverse := by
    rw [dchTrimWS, trimTrailingWS, ← List.reverse_append, List.takeWhile_append_dropWhile,
      List.reverse_reverse]
  refine ⟨t.takeWhile isWhiteSpace, ((skipLeadingWS t).reverse.takeWhile isWhiteSpace).reverse,
    fun b hb => List.mem_takeWhile_imp hb,
    fun b hb => List.mem_takeWhile_imp (List.mem_reverse.mp hb), ?_, ?_, ?_⟩
  · rw [← hback]
    exact hfront.symm
  · intro b hb
    apply hskip
    rw [hback, List.head?_append, hb]
    rfl
  · intro b hb
    rw [dchTrimWS, trimTrailingWS, List.getLast?_reverse] at hb
    exact head?_of_dropWhile hb

theorem dchTrimWS_trimmed (t : Bytes) : Trimmed (dchTrimWS t) := by
  obtain ⟨_, _, _, _, _, h⟩ := trimmed_parts t
  exact h

/-- The end of the line is a blank. -/
theorem dchTrimWS_lf (t : Bytes) : dchTrimWS (t ++ [lf]) = dchTrimWS t := by
  obtain ⟨front, back, hf, hb, ht, htrim⟩ := trimmed_parts t
  have hb' : Blank (back ++ [lf]) := by
    intro b hm
    rcases List.mem_append.mp hm with hm | hm
    · exact hb b hm
    · rw [List.mem_singleton.mp hm]
      rfl
  have hlf : t ++ [lf] = front ++ (dchTrimWS t ++ (back ++ [lf])) := by
    nth_rewrite 1 [ht]
    simp only [List.append_assoc]
  rw [hlf, dchTrimWS_blank hf hb' htrim]

theorem lineOption_lf (line : Bytes) : lineOption (line ++ [lf]) = lineOption line := by
  have htext : dchTrimWS (cstr (line ++ [lf])) = dchTrimWS (cstr line) := by
    by_cases hnul : ∀ b ∈ line, (b != nul) = true
    · have hall : ∀ b ∈ line ++ [lf], (b != nul) = true := by
        intro b hb
        rcases List.mem_append.mp hb with hb | hb
        · exact hnul b hb
        · rw [List.mem_singleton.mp hb]
          rfl
      rw [cstr, cstr, List.takeWhile_eq_self_iff.mpr hall, List.takeWhile_eq_self_iff.mpr hnul]
      exact dchTrimWS_lf line
    · have hcut : cstr (line ++ [lf]) = cstr line := by
        have hlen : (line.takeWhile (· != nul)).length ≠ line.length := by
          intro h
          exact hnul (List.takeWhile_eq_self_iff.mp
            ((List.takeWhile_prefix _).eq_of_length h))
        rw [cstr, cstr, List.takeWhile_append, if_neg hlen]
      rw [hcut]
  rw [lineOption, lineOption, htext]

/-- The name and the value as the code cuts them out of the line. -/
theorem extract_option (buf : Bytes) :
    (if dchTrimWS (cstr buf) = [] ∨ (dchTrimWS (cstr buf)).head? = some hash then none
      else match dchExtractTillChrStripWS (dchTrimWS (cstr buf)) equalsSign with
        | (true, name, value) => some (name, value)
        | (false, _, _) => none) = lineOption buf := by
  have htrim := dchTrimWS_trimmed (cstr buf)
  rw [lineOption]
  generalize dchTrimWS (cstr buf) = text at htrim
  by_cases hhash : text.head? = some hash
  · rw [if_pos (.inr hhash), if_pos hhash]
  by_cases hnil : text = []
  · rw [if_pos (.inl hnil), if_neg hhash, hnil]
    rfl
  rw [if_neg (by simp [hnil, hhash]), if_neg hhash]
  cases hsplit : splitAtByte equalsSign text with
  | none =>
    have hextract : dchExtractTillChrStripWS text equalsSign = (false, text, []) := by
      rw [dchExtractTillChrStripWS, dchExtractTillChr, hsplit]
    rw [hextract]
    rfl
  | some p =>
    obtain ⟨before, rest⟩ := p
    obtain ⟨-, htext⟩ := splitAtByte_eq hsplit
    have hbefore : trimTrailingWS before = dchTrimWS before := by
      have hskip : skipLeadingWS before = before := by
        have h := skipLeadingWS_blank before blank_nil fun b hb => htrim.first b (by
          rw [htext, List.head?_append, hb]
          rfl)
        rwa [List.nil_append] at h
      rw [dchTrimWS, hskip]
    have hrest : skipLeadingWS rest = dchTrimWS rest := by
      have h := trimTrailingWS_blank blank_nil
        fun b (hb : b ∈ (skipLeadingWS rest).getLast?) => htrim.last b (by
          obtain ⟨front, hfront⟩ := List.dropWhile_suffix isWhiteSpace (l := rest)
          have hlast : rest.getLast? = some b := by
            rw [← hfront, List.getLast?_append, show (rest.dropWhile isWhiteSpace).getLast? = some b
              from hb]
            rfl
          rw [htext, List.getLast?_append, List.getLast?_cons, hlast]
          rfl)
      rw [List.append_nil] at h
      rw [dchTrimWS, h]
    have hextract : dchExtractTillChrStripWS text equalsSign =
        (true, dchTrimWS before, dchTrimWS rest) := by
      rw [dchExtractTillChrStripWS, dchExtractTillChr, hsplit, ← hbefore, ← hrest]
    rw [hextract]
    rfl

/-- What `parseFile` reads of a line is its option. -/
theorem parseLine_eq (st : ConfigState) (buf : Bytes) : parseLine st buf =
    match lineOption buf with
    | none => .ok st
    | some (name, value) => parseOption st name value := by
  rw [← extract_option, parseLine]
  split
  · rfl
  · rcases dchExtractTillChrStripWS (dchTrimWS (cstr buf)) equalsSign with ⟨_ | _, name, value⟩ <;>
      rfl

/-- The share of an option. -/
def shareOfOption (o : Bytes × Bytes) : Option Share :=
  if o.1.head? = some slash then
    some ⟨dchTrimTrailing o.1 slash, dchTrimTrailing o.2 slash⟩
  else none

theorem shareOfLine_eq (line : Bytes) :
    shareOfLine line = (lineOption line).bind shareOfOption := by
  rw [← extract_option, shareOfLine]
  split
  · rfl
  · rcases dchExtractTillChrStripWS (dchTrimWS (cstr line)) equalsSign with ⟨_ | _, name, value⟩ <;>
      rfl

theorem sharesOf_eq (options : List (Bytes × Bytes)) :
    sharesOf options = options.filterMap shareOfOption := by
  induction options with
  | nil => rfl
  | cons o options ih =>
    by_cases hslash : o.1.head? = some slash
    · have hshare : shareOfOption o =
          some ⟨dchTrimTrailing o.1 slash, dchTrimTrailing o.2 slash⟩ := if_pos hslash
      rw [List.filterMap_cons_some hshare, ← ih, sharesOf, List.filter_cons_of_pos (by simpa),
        List.map_cons, sharesOf]
    · have hshare : shareOfOption o = none := if_neg hslash
      rw [List.filterMap_cons_none hshare, ← ih, sharesOf, List.filter_cons_of_neg (by simpa),
        sharesOf]

/-- Without a share the welcome page is the only one. -/
def sharesOrWelcome (htmlDir : Bytes) (shares : List Share) : List Share :=
  if shares = [] then [⟨[], htmlDir ++ ascii "/welcome.html"⟩] else shares

/-- The shares that the server is modelled with are those of the options. -/
theorem configParseShares_eq (htmlDir : Bytes) (lines : List Bytes) :
    configParseShares htmlDir lines =
      sharesOrWelcome htmlDir (sharesOf (lines.filterMap lineOption)) := by
  have hshares : lines.filterMap shareOfLine = sharesOf (lines.filterMap lineOption) := by
    rw [sharesOf_eq, List.filterMap_filterMap]
    congr 1
    funext line
    exact shareOfLine_eq line
  rw [configParseShares, hshares]
  cases sharesOf (lines.filterMap lineOption) <;> rfl

end Options

section Steps

variable {options : List (Bytes × Bytes)} {st : ConfigState} {name value : Bytes}

/-- The tables are those of the options so far. -/
structure Parsed (options : List (Bytes × Bytes)) (st : ConfigState) : Prop where
  shares : st.shares = sharesOf options
  credentials : st.credentials = valuesOf options (ascii "credentials")
  index : st.indexPatterns = patternsOf options (ascii "index")
  cgi : st.cgiPatterns = patternsOf options (ascii "cgi")

theorem sharesOf_snoc (h : name.head? = some slash) : sharesOf (options ++ [(name, value)]) =
    sharesOf options ++ [⟨dchTrimTrailing name slash, dchTrimTrailing value slash⟩] := by
  simp [sharesOf, List.filter_append, h]

theorem sharesOf_snoc_other (h : name.head? ≠ some slash) :
    sharesOf (options ++ [(name, value)]) = sharesOf options := by
  simp [sharesOf, List.filter_append, h]

theorem valuesOf_snoc (options : List (Bytes × Bytes)) (name value : Bytes) :
    valuesOf (options ++ [(name, value)]) name = valuesOf options name ++ [value] := by
  simp [valuesOf, List.filter_append]

theorem valuesOf_snoc_other {other : Bytes} (h : name ≠ other) :
    valuesOf (options ++ [(name, value)]) other = valuesOf options other := by
  simp [valuesOf, List.filter_append, h]

theorem patternsOf_snoc (options : List (Bytes × Bytes)) (name value : Bytes) :
    patternsOf (options ++ [(name, value)]) name =
      if value = [] then [] else patternsOf options name ++ blankWords value := by
  rw [patternsOf, patternsOf, valuesOf_snoc, afterLastEmpty, List.reverse_append,
    List.reverse_singleton, List.singleton_append]
  by_cases hnil : value = []
  · rw [if_pos hnil, List.takeWhile_cons_of_neg (by simp [hnil])]
    rfl
  · rw [if_neg hnil, List.takeWhile_cons_of_pos (by simp [hnil]), List.reverse_cons,
      List.flatMap_append]
    simp [afterLastEmpty]

theorem patternsOf_snoc_other {other : Bytes} (h : name ≠ other) :
    patternsOf (options ++ [(name, value)]) other = patternsOf options other := by
  rw [patternsOf, valuesOf_snoc_other h, patternsOf]

theorem blankWords_ne_nil (h : Trimmed value) (hne : value ≠ []) : blankWords value ≠ [] := by
  cases value with
  | nil => exact absurd rfl hne
  | cons b tail =>
    have hskip : skipLeadingWS (b :: tail) = b :: tail :=
      List.dropWhile_cons_of_neg (by simp [h.first b rfl])
    cases hword : dchExtractTillWS (b :: tail) with
    | none =>
      rw [dchExtractTillWS, hskip] at hword
      cases hword
    | some p =>
      obtain ⟨word, rest⟩ := p
      rw [(blankWords_some hword).1]
      exact List.cons_ne_nil _ _

/-- The words are added, or without one all patterns are dropped. -/
theorem parsePatterns_eq {patterns : List Bytes} (h : Trimmed value)
    (hroom : patterns.length < uintSize) : parsePatterns value patterns =
      if value = [] then .ok []
      else if patterns.length + (blankWords value).length < uintSize then
        .ok (patterns ++ blankWords value)
      else .error .heapOverflow := by
  have hrun := appendPatterns_eq (Nat.lt_succ_self value.length) hroom
  unfold parsePatterns
  rw [hrun]
  by_cases hnil : value = []
  · rw [if_pos hnil, hnil]
    show (if patterns.length + 0 < uintSize then _ else _ : Except Fault (List Bytes)) >>= _ = _
    rw [Nat.add_zero, if_pos hroom]
    show Except.ok (if (patterns ++ []).length = patterns.length then [] else _) = _
    rw [List.append_nil, if_pos rfl]
  · rw [if_neg hnil]
    have hpos := List.length_pos_iff.mpr (blankWords_ne_nil h hnil)
    by_cases hfits : patterns.length + (blankWords value).length < uintSize
    · rw [if_pos hfits]
      show Except.ok (if (patterns ++ blankWords value).length = patterns.length then _ else _) = _
      rw [if_neg (by rw [List.length_append]; omega)]
    · rw [if_neg hfits]
      rfl

/-- An option with another name leaves the tables as they are. -/
theorem Parsed.other (h : Parsed options st) (hroom : Room options) {st' : ConfigState}
    (hslash : name.head? ≠ some slash) (hindex : name ≠ ascii "index") (hcgi : name ≠ ascii "cgi")
    (hcred : name ≠ ascii "credentials") (hs : st'.shares = st.shares)
    (hi : st'.indexPatterns = st.indexPatterns) (hc : st'.cgiPatterns = st.cgiPatterns)
    (hp : st'.credentials = st.credentials) :
    Parsed (options ++ [(name, value)]) st' ∧ Room (options ++ [(name, value)]) := by
  constructor
  · constructor
    · rw [sharesOf_snoc_other hslash, hs, h.shares]
    · rw [valuesOf_snoc_other hcred, hp, h.credentials]
    · rw [patternsOf_snoc_other hindex, hi, h.index]
    · rw [patternsOf_snoc_other hcgi, hc, h.cgi]
  · constructor
    · rw [sharesOf_snoc_other hslash]
      exact hroom.shares
    · rw [valuesOf_snoc_other hcred]
      exact hroom.credentials
    · rw [patternsOf_snoc_other hindex]
      exact hroom.index
    · rw [patternsOf_snoc_other hcgi]
      exact hroom.cgi

/-- The tables after some options, or a table has become too long. -/
def TablesOr (options : List (Bytes × Bytes)) : Except Fault ConfigState → Prop
  | .ok st => Parsed options st ∧ Room options
  | .error _ => ¬ Room options

theorem share_step (h : Parsed options st) (hroom : Room options) (hslash : name.head? = some slash) :
    TablesOr (options ++ [(name, value)]) (parseOption st name value) := by
  have hother : ∀ t : Bytes, t.head? ≠ some slash → name ≠ t := fun t ht heq => ht (heq ▸ hslash)
  have hindex := hother (ascii "index") (by decide)
  have hcgi := hother (ascii "cgi") (by decide)
  have hcred := hother (ascii "credentials") (by decide)
  have hshares : sharesOf (options ++ [(name, value)]) = _ := sharesOf_snoc hslash
  have hrun : parseOption st name value = (appendEntry intBound st.shares
      ⟨dchTrimTrailing name slash, dchTrimTrailing value slash⟩ >>= fun table =>
        .ok { st with shares := table }) := by
    rw [parseOption, if_pos hslash]
    rfl
  rw [hrun, h.shares]
  by_cases hfits : (sharesOf options).length + 1 < intBound
  · rw [appendEntry, if_pos hfits]
    refine ⟨⟨hshares.symm, ?_, ?_, ?_⟩, ?_, ?_, ?_, ?_⟩
    · rw [valuesOf_snoc_other hcred, ← h.credentials]
    · rw [patternsOf_snoc_other hindex, ← h.index]
    · rw [patternsOf_snoc_other hcgi, ← h.cgi]
    · rw [hshares, List.length_append]
      exact hfits
    · rw [valuesOf_snoc_other hcred]
      exact hroom.credentials
    · rw [patternsOf_snoc_other hindex]
      exact hroom.index
    · rw [patternsOf_snoc_other hcgi]
      exact hroom.cgi
  · rw [appendEntry, if_neg hfits]
    intro hroom'
    have hlen := hroom'.shares
    rw [hshares, List.length_append] at hlen
    exact hfits hlen

theorem credentials_step (h : Parsed options st) (hroom : Room options) :
    TablesOr (options ++ [(ascii "credentials", value)])
      (parseOption st (ascii "credentials") value) := by
  have hslash : (ascii "credentials").head? ≠ some slash := by decide
  have hvalues := valuesOf_snoc options (ascii "credentials") value
  have hrun : parseOption st (ascii "credentials") value =
      (appendEntry intBound st.credentials value >>= fun table =>
        .ok { st with credentials := table }) := rfl
  rw [hrun, h.credentials]
  by_cases hfits : (valuesOf options (ascii "credentials")).length + 1 < intBound
  · rw [appendEntry, if_pos hfits]
    refine ⟨⟨?_, hvalues.symm, ?_, ?_⟩, ?_, ?_, ?_, ?_⟩
    · rw [sharesOf_snoc_other hslash, ← h.shares]
    · rw [patternsOf_snoc_other (by decide), ← h.index]
    · rw [patternsOf_snoc_other (by decide), ← h.cgi]
    · rw [sharesOf_snoc_other hslash]
      exact hroom.shares
    · rw [hvalues, List.length_append]
      exact hfits
    · rw [patternsOf_snoc_other (by decide)]
      exact hroom.index
    · rw [patternsOf_snoc_other (by decide)]
      exact hroom.cgi
  · rw [appendEntry, if_neg hfits]
    intro hroom'
    have hlen := hroom'.credentials
    rw [hvalues, List.length_append] at hlen
    exact hfits hlen

/-- The patterns of an `index` or `cgi` option, in the terms of its values. -/
theorem parsePatterns_step (hroom : (patternsOf options name).length < uintSize)
    (hv : Trimmed value) :
    (parsePatterns value (patternsOf options name) =
        .ok (patternsOf (options ++ [(name, value)]) name) ∧
      (patternsOf (options ++ [(name, value)]) name).length < uintSize) ∨
    (∃ f, parsePatterns value (patternsOf options name) = .error f) ∧
      ¬ (patternsOf (options ++ [(name, value)]) name).length < uintSize := by
  rw [parsePatterns_eq hv hroom, patternsOf_snoc]
  by_cases hnil : value = []
  · rw [if_pos hnil, if_pos hnil]
    exact .inl ⟨rfl, by decide⟩
  · rw [if_neg hnil, if_neg hnil, List.length_append]
    by_cases hfits : (patternsOf options name).length + (blankWords value).length < uintSize
    · rw [if_pos hfits]
      exact .inl ⟨rfl, hfits⟩
    · rw [if_neg hfits]
      exact .inr ⟨⟨_, rfl⟩, hfits⟩

theorem index_step (h : Parsed options st) (hroom : Room options) (hv : Trimmed value) :
    TablesOr (options ++ [(ascii "index", value)]) (parseOption st (ascii "index") value) := by
  have hslash : (ascii "index").head? ≠ some slash := by decide
  have hrun : parseOption st (ascii "index") value = (parsePatterns value st.indexPatterns >>=
      fun table => .ok { st with indexPatterns := table }) := rfl
  rw [hrun, h.index]
  rcases parsePatterns_step hroom.index hv with ⟨hok, hfits⟩ | ⟨⟨f, herr⟩, hlong⟩
  · rw [hok]
    refine ⟨⟨?_, ?_, rfl, ?_⟩, ?_, ?_, hfits, ?_⟩
    · rw [sharesOf_snoc_other hslash, ← h.shares]
    · rw [valuesOf_snoc_other (by decide), ← h.credentials]
    · show st.cgiPatterns = _
      rw [patternsOf_snoc_other (by decide), ← h.cgi]
    · rw [sharesOf_snoc_other hslash]
      exact hroom.shares
    · rw [valuesOf_snoc_other (by decide)]
      exact hroom.credentials
    · rw [patternsOf_snoc_other (by decide)]
      exact hroom.cgi
  · rw [herr]
    exact fun hroom' => hlong hroom'.index

theorem cgi_step (h : Parsed options st) (hroom : Room options) (hv : Trimmed value) :
    TablesOr (options ++ [(ascii "cgi", value)]) (parseOption st (ascii "cgi") value) := by
  have hslash : (ascii "cgi").head? ≠ some slash := by decide
  have hrun : parseOption st (ascii "cgi") value = (parsePatterns value st.cgiPatterns >>=
      fun table => .ok { st with cgiPatterns := table }) := rfl
  rw [hrun, h.cgi]
  rcases parsePatterns_step hroom.cgi hv with ⟨hok, hfits⟩ | ⟨⟨f, herr⟩, hlong⟩
  · rw [hok]
    refine ⟨⟨?_, ?_, ?_, rfl⟩, ?_, ?_, ?_, hfits⟩
    · rw [sharesOf_snoc_other hslash, ← h.shares]
    · rw [valuesOf_snoc_other (by decide), ← h.credentials]
    · show st.indexPatterns = _
      rw [patternsOf_snoc_other (by decide), ← h.index]
    · rw [sharesOf_snoc_other hslash]
      exact hroom.shares
    · rw [valuesOf_snoc_other (by decide)]
      exact hroom.credentials
    · rw [patternsOf_snoc_other (by decide)]
      exact hroom.index
  · rw [herr]
    exact fun hroom' => hlong hroom'.cgi

theorem parseOption_step (h : Parsed options st) (hroom : Room options) (hv : Trimmed value) :
    TablesOr (options ++ [(name, value)]) (parseOption st name value) := by
  by_cases hslash : name.head? = some slash
  · exact share_step h hroom hslash
  by_cases hindex : name = ascii "index"
  · rw [hindex]
    exact index_step h hroom hv
  by_cases hcgi : name = ascii "cgi"
  · rw [hcgi]
    exact cgi_step h hroom hv
  by_cases hcred : name = ascii "credentials"
  · rw [hcred]
    exact credentials_step h hroom
  have hother : ∀ st' : ConfigState, st'.shares = st.shares →
      st'.indexPatterns = st.indexPatterns → st'.cgiPatterns = st.cgiPatterns →
      st'.credentials = st.credentials → TablesOr (options ++ [(name, value)]) (.ok st') :=
    fun st' => h.other hroom hslash hindex hcgi hcred
  rw [parseOption, if_neg hslash, if_neg hindex, if_neg hcgi]
  simp only [if_neg hcred]
  split
  · exact hother _ rfl rfl rfl rfl
  split
  · exact hother _ rfl rfl rfl rfl
  split
  · exact hother _ rfl rfl rfl rfl
  split
  · exact hother _ rfl rfl rfl rfl
  split
  · exact hother _ rfl rfl rfl rfl
  · exact hother _ rfl rfl rfl rfl

end Steps

end FilemanagerHttpd.Audit
