import FilemanagerHttpd.Audit.ConfigLines

/-!
# The configuration as a fold over its lines

The tables after all files are those of the list of options, and what decides whether the code gets
there is the number of lines and of entries that its counters count.
-/

namespace FilemanagerHttpd.Audit

open Library Server

/-- A result that is there exactly under a condition, and is then such a one. -/
def Exactly {α : Type} (cond : Prop) (post : α → Prop) : Except Fault α → Prop
  | .ok a => cond ∧ post a
  | .error _ => ¬ cond

theorem Exactly.bind {α β : Type} {c d e : Prop} {P : α → Prop} {Q : β → Prop}
    {x : Except Fault α} {k : α → Except Fault β} (hx : Exactly c P x)
    (hk : ∀ a, c → P a → Exactly d Q (k a)) (he : e ↔ c ∧ d) : Exactly e Q (x >>= k) := by
  cases x with
  | error f => exact fun h => hx (he.mp h).1
  | ok a =>
    have hrest := hk a hx.1 hx.2
    show Exactly e Q (k a)
    cases hka : k a with
    | error f =>
      rw [hka] at hrest
      exact fun h => hrest (he.mp h).2
    | ok b =>
      rw [hka] at hrest
      exact ⟨he.mpr ⟨hx.1, hrest.1⟩, hrest.2⟩

section Lines

/-- The lines, with what `fgets` has read of the first one. -/
def withFront (buf : Bytes) : List Bytes → List Bytes
  | [] => if buf = [] then [] else [buf]
  | line :: lines => (buf ++ line) :: lines

/-- A buffer has a line, and mostly its end. -/
def HoldsLine (buf line : Bytes) : Prop := buf = line ∨ buf = line ++ [lf]

theorem withFront_nil (lines : List Bytes) : withFront [] lines = lines := by
  cases lines <;> rfl

theorem withFront_snoc (buf : Bytes) {b : Byte} (hb : b ≠ lf) (rest : Bytes) :
    withFront buf (fileLines (b :: rest)) = withFront (buf ++ [b]) (fileLines rest) := by
  rw [fileLines, if_neg hb]
  cases fileLines rest with
  | nil =>
    show [buf ++ [b]] = if buf ++ [b] = [] then [] else [buf ++ [b]]
    rw [if_neg (by simp)]
  | cons line lines =>
    show (buf ++ b :: line) :: lines = (buf ++ [b] ++ line) :: lines
    rw [List.append_assoc, List.singleton_append]

/-- Lines that fit in the buffer are read one by one. -/
theorem fgetsAll_lines (content : Bytes) : ∀ (buf : Bytes),
    (∀ line ∈ withFront buf (fileLines content), line.length < 1023) →
    List.Forall₂ HoldsLine (fgetsAll 1024 buf content) (withFront buf (fileLines content)) := by
  induction content with
  | nil =>
    intro buf _
    show List.Forall₂ HoldsLine (if buf = [] then [] else [buf]) (if buf = [] then [] else [buf])
    split
    · exact .nil
    · exact .cons (.inl rfl) .nil
  | cons b rest ih =>
    intro buf hshort
    rw [fgetsAll]
    by_cases hb : b = lf
    · have hlines : withFront buf (fileLines (b :: rest)) = buf :: fileLines rest := by
        rw [fileLines, if_pos hb]
        show (buf ++ []) :: fileLines rest = _
        rw [List.append_nil]
      rw [hlines] at hshort ⊢
      rw [if_pos (.inl hb), hb]
      refine .cons (.inr rfl) ?_
      have hrest := ih []
      rw [withFront_nil] at hrest
      exact hrest fun line hline => hshort line (List.mem_cons_of_mem _ hline)
    · rw [withFront_snoc buf hb] at hshort ⊢
      have hlen : (buf ++ [b]).length < 1023 := by
        cases hlines : fileLines rest with
        | nil =>
          rw [hlines] at hshort
          have hone : withFront (buf ++ [b]) [] = [buf ++ [b]] := if_neg (by simp)
          rw [hone] at hshort
          exact hshort _ List.mem_cons_self
        | cons line lines =>
          rw [hlines] at hshort
          have hfirst := hshort (buf ++ [b] ++ line) List.mem_cons_self
          rw [List.length_append] at hfirst
          omega
      have hmore : ¬ (b = lf ∨ (buf ++ [b]).length = 1024 - 1) := by
        rintro (h | h)
        · exact hb h
        · omega
      rw [if_neg hmore]
      exact ih (buf ++ [b]) hshort

theorem HoldsLine.option_eq {buf line : Bytes} (h : HoldsLine buf line) :
    lineOption buf = lineOption line := by
  rcases h with rfl | rfl
  · rfl
  · exact lineOption_lf line

end Lines

section Runs

variable {options : List (Bytes × Bytes)} {st : ConfigState}

/-- At no time is a table too long. -/
def AllRoom (options : List (Bytes × Bytes)) : Prop := ∀ o, o <+: options → Room o

theorem AllRoom.left {more : List (Bytes × Bytes)} (h : AllRoom (options ++ more)) :
    AllRoom options := fun o ho => h o (ho.trans (List.prefix_append _ _))

theorem allRoom_snoc {o : Bytes × Bytes} :
    AllRoom (options ++ [o]) ↔ AllRoom options ∧ Room (options ++ [o]) := by
  constructor
  · intro h
    exact ⟨h.left, h _ List.prefix_rfl⟩
  · rintro ⟨h, hlast⟩ p hp
    rcases List.prefix_concat_iff.mp hp with rfl | hp
    · exact hlast
    · exact h p hp

/-- One line: its option is added to those before it. -/
theorem parseLine_exactly (h : Parsed options st) (hall : AllRoom options) {buf line : Bytes}
    (hline : HoldsLine buf line) :
    Exactly (AllRoom (options ++ (lineOption line).toList))
      (Parsed (options ++ (lineOption line).toList)) (parseLine st buf) := by
  rw [parseLine_eq, hline.option_eq]
  cases hoption : lineOption line with
  | none =>
    have hnil : options ++ (none : Option (Bytes × Bytes)).toList = options := List.append_nil _
    rw [hnil]
    exact ⟨hall, h⟩
  | some o =>
    obtain ⟨name, value⟩ := o
    have hv : Trimmed value := by
      rw [lineOption] at hoption
      split at hoption
      · cases hoption
      · obtain ⟨p, -, hp⟩ := Option.map_eq_some_iff.mp hoption
        rw [← (Prod.mk.inj hp).2]
        exact dchTrimWS_trimmed _
    have hstep : TablesOr (options ++ [(name, value)]) (parseOption st name value) :=
      parseOption_step h (hall _ List.prefix_rfl) hv
    show Exactly (AllRoom (options ++ [(name, value)])) _ (parseOption st name value)
    cases hrun : parseOption st name value with
    | error f =>
      rw [hrun] at hstep
      exact fun hroom => hstep (hroom _ List.prefix_rfl)
    | ok st' =>
      rw [hrun] at hstep
      exact ⟨allRoom_snoc.mpr ⟨hall, hstep.2⟩, hstep.1⟩

end Runs

section Files

variable {options : List (Bytes × Bytes)} {st : ConfigState}

/-- The rounds of the loop, by the lines that the buffers hold. -/
theorem parseRounds_exactly {bufs lines : List Bytes} (hlines : List.Forall₂ HoldsLine bufs lines) :
    ∀ {options : List (Bytes × Bytes)} {st : ConfigState} {n : Nat}, Parsed options st →
      AllRoom options → n < intBound →
      Exactly (AllRoom (options ++ lines.filterMap lineOption) ∧ n + lines.length < intBound)
        (fun cur => Parsed (options ++ lines.filterMap lineOption) cur.2)
        (bufs.foldlM parseRound (n, st)) := by
  induction hlines with
  | nil =>
    intro options st n h hall hn
    have hnil : options ++ ([] : List Bytes).filterMap lineOption = options := List.append_nil _
    rw [hnil]
    exact ⟨⟨hall, hn⟩, h⟩
  | @cons buf line bufs lines hline _ ih =>
    intro options st n h hall hn
    have hoptions : options ++ (line :: lines).filterMap lineOption =
        options ++ (lineOption line).toList ++ lines.filterMap lineOption := by
      rw [List.append_assoc]
      congr 1
      cases hoption : lineOption line with
      | none => exact List.filterMap_cons_none hoption
      | some o => exact List.filterMap_cons_some hoption
    rw [hoptions, List.foldlM_cons, List.length_cons]
    by_cases hmore : n + 1 < intBound
    · have hround : parseRound (n, st) buf =
          (parseLine st buf >>= fun st => .ok (n + 1, st)) := if_pos hmore
      have hfirst : Exactly (AllRoom (options ++ (lineOption line).toList))
          (fun cur => cur.1 = n + 1 ∧ Parsed (options ++ (lineOption line).toList) cur.2 ∧
            AllRoom (options ++ (lineOption line).toList)) (parseRound (n, st) buf) := by
        rw [hround]
        apply (parseLine_exactly h hall hline).bind (d := True) _ (by simp)
        exact fun st' hroom hparsed => ⟨trivial, rfl, hparsed, hroom⟩
      refine hfirst.bind (fun cur hroom hcur => ?_) ?_ (d := AllRoom (options ++
        (lineOption line).toList ++ lines.filterMap lineOption) ∧
          n + 1 + lines.length < intBound)
      · obtain ⟨m, st'⟩ := cur
        obtain ⟨rfl, hparsed, -⟩ := hcur
        exact ih hparsed hroom hmore
      · rw [Nat.add_right_comm, Nat.add_assoc]
        exact ⟨fun h => ⟨h.1.left, h⟩, fun h => h.2⟩
    · have hround : parseRound (n, st) buf = .error .heapOverflow := if_neg hmore
      rw [hround]
      rintro ⟨-, hlen⟩
      omega

/-- The options of one file. -/
def contentOptions (content : Option Bytes) : List (Bytes × Bytes) :=
  ((content.map fileLines).getD []).filterMap lineOption

/-- The lines of a file are not more than the counter of the lines counts. -/
def LinesCounted (content : Option Bytes) : Prop :=
  ((content.map fileLines).getD []).length < intBound

theorem parseFile_exactly (h : Parsed options st) (hall : AllRoom options) (content : Option Bytes)
    (hshort : ∀ line ∈ (content.map fileLines).getD [], line.length < 1023) :
    Exactly (AllRoom (options ++ contentOptions content) ∧ LinesCounted content)
      (Parsed (options ++ contentOptions content)) (parseFile st content) := by
  cases content with
  | none =>
    have hnil : options ++ contentOptions none = options := List.append_nil _
    rw [hnil]
    exact ⟨⟨hall, show 0 < intBound by decide⟩, h⟩
  | some content =>
    have hlines := fgetsAll_lines content []
    rw [withFront_nil] at hlines
    have hrounds := parseRounds_exactly (hlines hshort) h hall (show 0 < intBound by decide)
    rw [Nat.zero_add] at hrounds
    apply hrounds.bind (d := True) _ (by simp [LinesCounted, contentOptions])
    exact fun cur _ hcur => ⟨trivial, hcur⟩

theorem parseFiles_exactly (files : List (Option Bytes))
    (hshort : ∀ content ∈ files, ∀ line ∈ (content.map fileLines).getD [], line.length < 1023) :
    ∀ {options : List (Bytes × Bytes)} {st : ConfigState}, Parsed options st → AllRoom options →
      Exactly (AllRoom (options ++ fileOptions files) ∧ ∀ content ∈ files, LinesCounted content)
        (Parsed (options ++ fileOptions files)) (files.foldlM parseFile st) := by
  induction files with
  | nil =>
    intro options st h hall
    have hnil : options ++ fileOptions [] = options := List.append_nil _
    rw [hnil]
    exact ⟨⟨hall, nofun⟩, h⟩
  | cons content files ih =>
    intro options st h hall
    have hoptions : options ++ fileOptions (content :: files) =
        options ++ contentOptions content ++ fileOptions files := by
      rw [List.append_assoc]
      rfl
    have hfirst := parseFile_exactly h hall content (hshort content List.mem_cons_self)
    rw [hoptions, List.foldlM_cons]
    apply hfirst.bind fun st' hcond hparsed =>
      ih (fun c hc => hshort c (List.mem_cons_of_mem _ hc)) hparsed hcond.1
    rw [List.forall_mem_cons]
    exact ⟨fun h => ⟨⟨h.1.left, h.2.1⟩, h.1, h.2.2⟩, fun h => ⟨h.2.1, h.1.2, h.2.2⟩⟩

end Files

section Tables

variable {htmlDir : Bytes} {isRoot : Bool} {options : List (Bytes × Bytes)} {st : ConfigState}

/-- The tables that belong to some options, with the null entries that end them. -/
structure TablesFold (htmlDir : Bytes) (options : List (Bytes × Bytes)) (tables : ConfigTables) :
    Prop where
  cgi : tables.cgiPatterns = patternsOf options (ascii "cgi")
  index : tables.indexPatterns = patternsOf options (ascii "index")
  shares : tables.shares = (sharesOrWelcome htmlDir (sharesOf options)).map some ++ [none]
  credentials : tables.credentials =
    if valuesOf options (ascii "credentials") = [] then none
    else some ((valuesOf options (ascii "credentials")).map some ++ [none])

theorem endTable_exactly {α : Type} (table : List α) :
    Exactly (table.length + 1 < intBound) (· = table.map some ++ [none]) (endTable table) := by
  unfold endTable appendEntry
  rw [List.length_map]
  by_cases hfits : table.length + 1 < intBound
  · rw [if_pos hfits]
    exact ⟨hfits, rfl⟩
  · rw [if_neg hfits]
    exact hfits

theorem welcome_exactly (htmlDir : Bytes) (shares : List Share) :
    Exactly True (· = sharesOrWelcome htmlDir shares)
      (if shares.length = 0 then
        appendEntry intBound shares ⟨[], htmlDir ++ ascii "/welcome.html"⟩
      else return shares : Except Fault (List Share)) := by
  cases shares with
  | nil => exact ⟨trivial, rfl⟩
  | cons share shares => exact ⟨trivial, rfl⟩

theorem credentials_exactly (credentials : List Bytes) :
    Exactly (credentials.length + 1 < intBound)
      (· = if credentials = [] then none else some (credentials.map some ++ [none]))
      (if 0 < credentials.length then return some (← endTable credentials)
      else return none : Except Fault (Option (List (Option Bytes)))) := by
  cases credentials with
  | nil => exact ⟨show 0 + 1 < intBound by decide, rfl⟩
  | cons c credentials =>
    apply (endTable_exactly (c :: credentials)).bind (d := True) _ (by simp)
    intro table _ htable
    exact ⟨trivial, by rw [htable, if_neg (List.cons_ne_nil _ _)]⟩

theorem configTables_exactly (htmlDir : Bytes) (isRoot : Bool) (h : Parsed options st) :
    Exactly ((sharesOf options).length + 1 < intBound ∧
        (valuesOf options (ascii "credentials")).length + 1 < intBound)
      (TablesFold htmlDir options) (configTables htmlDir isRoot st) := by
  have hwelcome : (sharesOrWelcome htmlDir (sharesOf options)).length + 1 < intBound ↔
      (sharesOf options).length + 1 < intBound := by
    unfold sharesOrWelcome
    split
    · rename_i hnil
      rw [hnil]
      exact ⟨fun _ => show 0 + 1 < intBound by decide, fun _ => show 1 + 1 < intBound by decide⟩
    · rfl
  unfold configTables
  rw [h.shares, h.credentials, h.index, h.cgi]
  refine (welcome_exactly htmlDir (sharesOf options)).bind (fun shares _ hshares => ?_)
    ⟨fun h => ⟨trivial, h⟩, fun h => h.2⟩
  rw [hshares]
  refine (endTable_exactly _).bind (fun table _ htable => ?_) (and_congr_left' hwelcome.symm)
  refine (credentials_exactly _).bind (d := True) (fun credentials _ hcred => ?_) (by simp)
  exact ⟨trivial, rfl, rfl, htable, hcred⟩

end Tables

/-- What the counters of lines and entries are enough for. -/
structure ConfigFits (files : List (Option Bytes)) : Prop where
  lines : ∀ content ∈ files, LinesCounted content
  tables : AllRoom (fileOptions files)
  shares : (sharesOf (fileOptions files)).length + 1 < intBound
  credentials : (valuesOf (fileOptions files) (ascii "credentials")).length + 1 < intBound

/-- The configuration is parsed, and the tables are those of the options in its files. -/
def ConfigFolds (htmlDir : Bytes) (isRoot : Bool) (configLoc : ConfigLoc) : Prop :=
  ∃ tables, configParse htmlDir isRoot configLoc = .ok tables ∧
    TablesFold htmlDir (fileOptions (configFiles configLoc)) tables

section Folds

variable {htmlDir : Bytes} {isRoot : Bool} {configLoc : ConfigLoc}

/-- The lines that `parseFile` has room for in its buffer. -/
def LinesShort (files : List (Option Bytes)) : Prop :=
  ∀ content ∈ files, ∀ line ∈ (content.map fileLines).getD [], line.length < 1023

theorem allRoom_nil : AllRoom [] := by
  intro o ho
  rw [List.prefix_nil.mp ho]
  constructor <;> decide

theorem parsed_init : Parsed [] configInit := ⟨rfl, rfl, rfl, rfl⟩

theorem configParse_exactly (htmlDir : Bytes) (isRoot : Bool)
    (hshort : LinesShort (configFiles configLoc)) :
    Exactly (ConfigFits (configFiles configLoc))
      (TablesFold htmlDir (fileOptions (configFiles configLoc)))
      (configParse htmlDir isRoot configLoc) := by
  have hfiles := parseFiles_exactly (configFiles configLoc) hshort parsed_init allRoom_nil
  rw [List.nil_append] at hfiles
  apply hfiles.bind fun st _ hst => configTables_exactly htmlDir isRoot hst
  exact ⟨fun h => ⟨⟨h.tables, h.lines⟩, h.shares, h.credentials⟩,
    fun h => ⟨h.1.2, h.1.1, h.2.1, h.2.2⟩⟩

theorem configFolds_exactly (htmlDir : Bytes) (isRoot : Bool)
    (hshort : LinesShort (configFiles configLoc)) :
    ConfigFolds htmlDir isRoot configLoc ↔ ConfigFits (configFiles configLoc) := by
  have h := configParse_exactly htmlDir isRoot hshort
  unfold ConfigFolds
  cases hrun : configParse htmlDir isRoot configLoc with
  | error f =>
    rw [hrun] at h
    exact ⟨fun ⟨_, hok, _⟩ => (nomatch hok), fun hfits => (h hfits).elim⟩
  | ok tables =>
    rw [hrun] at h
    exact ⟨fun _ => h.1, fun _ => ⟨tables, rfl, h.2⟩⟩

theorem parseOption_unknown {st : ConfigState} {name value : Bytes}
    (hslash : name.head? ≠ some slash) (hname : name ∉ optionNames) :
    parseOption st name value = .ok st := by
  simp only [optionNames, List.mem_cons, not_or] at hname
  obtain ⟨h₁, h₂, h₃, h₄, h₅, h₆, h₇, h₈, -⟩ := hname
  rw [parseOption, if_neg hslash, if_neg h₁, if_neg h₂, if_neg h₃, if_neg h₄, if_neg h₅, if_neg h₆,
    if_neg h₇, if_neg h₈]
  rfl

/-- **The tables are the fold of the lines, exactly while no counter of lines or entries is used
up; a line without an option that the server knows changes nothing.** -/
theorem config_folds_iff (htmlDir : Bytes) (isRoot : Bool) (configLoc : ConfigLoc)
    (hshort : LinesShort (configFiles configLoc)) :
    (ConfigFolds htmlDir isRoot configLoc ↔ ConfigFits (configFiles configLoc)) ∧
    ∀ st line, (∀ name value, lineOption line = some (name, value) →
        name.head? ≠ some slash ∧ name ∉ optionNames) → parseLine st line = .ok st := by
  refine ⟨configFolds_exactly htmlDir isRoot hshort, fun st line hline => ?_⟩
  rw [parseLine_eq]
  cases hoption : lineOption line with
  | none => rfl
  | some o =>
    obtain ⟨name, value⟩ := o
    obtain ⟨hslash, hname⟩ := hline name value hoption
    exact parseOption_unknown hslash hname

theorem config_folds_pattern : ConfigFolds [] false (.file (some (ascii "cgi = *.pl"))) :=
  (config_folds_iff [] false (.file (some (ascii "cgi = *.pl"))) (by
    intro content hcontent
    rw [List.mem_singleton.mp hcontent]
    decide)).1.mpr (by
    have hoptions : fileOptions [some (ascii "cgi = *.pl")] = [(ascii "cgi", ascii "*.pl")] := by
      decide +kernel
    have hfits : Room [(ascii "cgi", ascii "*.pl")] :=
      ⟨by decide, by decide, by decide, by decide +kernel⟩
    refine ⟨?_, ?_, ?_, ?_⟩
    · intro content hcontent
      rw [List.mem_singleton.mp hcontent]
      show 1 < intBound
      decide
    · show AllRoom (fileOptions [some (ascii "cgi = *.pl")])
      rw [hoptions]
      exact allRoom_snoc.mpr ⟨allRoom_nil, hfits⟩
    · show (sharesOf (fileOptions [some (ascii "cgi = *.pl")])).length + 1 < intBound
      rw [hoptions]
      decide
    · show (valuesOf (fileOptions [some (ascii "cgi = *.pl")]) (ascii "credentials")).length + 1 <
        intBound
      rw [hoptions]
      decide)

/-- The same share on every line of a file. -/
def shareLines (n : Nat) : Bytes := (List.replicate n (ascii "/=\n")).flatten

theorem fileLines_shareLines (n : Nat) :
    fileLines (shareLines n) = List.replicate n (ascii "/=") := by
  induction n with
  | zero => rfl
  | succ n ih =>
    have hcons : shareLines (n + 1) = slash :: equalsSign :: lf :: shareLines n := by
      rw [shareLines, List.replicate_succ, List.flatten_cons]
      rfl
    rw [hcons, List.replicate_succ, ← ih, fileLines, if_neg (by decide), fileLines,
      if_neg (by decide), fileLines, if_pos rfl]
    rfl

/-- With 2^31 - 1 shares there is no room for the entry that ends the table. -/
theorem config_shares_overflow :
    LinesShort (configFiles (.file (some (shareLines (2 ^ 31 - 1))))) ∧
      ¬ ConfigFolds [] false (.file (some (shareLines (2 ^ 31 - 1)))) := by
  have hshort : LinesShort (configFiles (.file (some (shareLines (2 ^ 31 - 1))))) := by
    intro content hcontent line hline
    rw [List.mem_singleton.mp hcontent, Option.map_some, Option.getD_some,
      fileLines_shareLines] at hline
    rw [List.eq_of_mem_replicate hline]
    decide
  refine ⟨hshort, fun h => ?_⟩
  have hlen := ((configFolds_exactly [] false hshort).mp h).shares
  have hoptions : fileOptions (configFiles (.file (some (shareLines (2 ^ 31 - 1))))) =
      List.replicate (2 ^ 31 - 1) ([slash], []) := by
    show (fileLines (shareLines (2 ^ 31 - 1))).filterMap lineOption ++ [] = _
    rw [fileLines_shareLines, List.append_nil, List.filterMap_replicate_of_some (b := ([slash], []))]
    decide +kernel
  have hshares : ∀ n, (sharesOf (List.replicate n ([slash], []))).length = n := by
    intro n
    rw [sharesOf, List.length_map, List.filter_replicate_of_pos (by decide), List.length_replicate]
  rw [hoptions, hshares] at hlen
  have hbound : intBound = 2 ^ 31 := rfl
  omega

end Folds

end FilemanagerHttpd.Audit
