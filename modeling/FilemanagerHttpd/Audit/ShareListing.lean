import FilemanagerHttpd.Audit.ShareTable
import FilemanagerHttpd.Audit.Pages
import FilemanagerHttpd.Audit.Texts

/-!
# The listing of shares

A path that no share covers lists the next components of the shares below it, each of them
once, in an array that a null file name ends. Following the listings from the root leads to
every share that no other share hides.
-/

namespace FilemanagerHttpd.Audit

open Library Server

/-- The program returns, with such a result, whatever the system answers. -/
abbrev Returns {α : Type} (Q : α → Prop) (p : Prog α) : Prop :=
  Within (S := sys) (fun _ => True) (fun _ => False) Q p

/-- A share's URL path as the options are meant to give it. -/
structure TidyUrl (url : Bytes) : Prop where
  rooted : url = [] ∨ ∃ t, url = slash :: t
  no_repeat : ¬ [slash, slash] <:+: url
  no_slash_end : url.getLast? ≠ some slash

/-- The URL path goes on below a path. -/
def StrictlyBelow (p url : Bytes) : Prop := ∃ rest, url = p ++ slash :: rest ∧ rest ≠ []

/-- The component of a URL path that comes next below a path. -/
def NextComponent (p url name : Bytes) : Prop :=
  ∃ rest, url = p ++ slash :: name ++ rest ∧ name ≠ [] ∧ slash ∉ name ∧
    (rest = [] ∨ ∃ t, rest = slash :: t)

/-- How the array of a folder is made. -/
inductive FolderBuilt (cfg : Config) : FolderArray → Folder → Prop
  | new : FolderBuilt cfg folderNew []
  | add {array array' : FolderArray} {folder : Folder} {name : Bytes} {isDir : Bool}
      {mode size : Nat} :
      FolderBuilt cfg array folder → folderAddEntryChunk array name isDir mode size = some array' →
      FolderBuilt cfg array' (folderAddEntry folder name isDir mode size)
  | sort {array : FolderArray} {folder : Folder} :
      FolderBuilt cfg array folder →
      FolderBuilt cfg (folderSortArray cfg array) (folderSortEntries cfg folder)

variable {cfg : Config}

section Arrays

/-- The array holds the entries and then the null file name, within what is allocated. -/
structure Represents (array : FolderArray) (folder : Folder) : Prop where
  held : ∃ rest, array.entries = folder.map .entry ++ .terminator :: rest
  count : array.entryCount = folder.length
  alloc : array.entries.length = array.entryAlloc + 1

theorem Represents.read {array : FolderArray} {folder : Folder} (h : Represents array folder) :
    folderGetEntries array.entries = some folder := by
  obtain ⟨rest, hheld⟩ := h.held
  rw [hheld]
  clear hheld h
  induction folder with
  | nil => rfl
  | cons fe folder ih =>
    show (folderGetEntries (folder.map .entry ++ .terminator :: rest)).map (fe :: ·) = _
    rw [ih]
    rfl

/-- After a reallocation there is room for an entry and the null file name. -/
theorem Represents.grow {array : FolderArray} {folder : Folder} (h : Represents array folder) :
    Represents (folderGrow array) folder ∧
      (folderGrow array).entryCount < (folderGrow array).entryAlloc := by
  obtain ⟨rest, hheld⟩ := h.held
  have hcount := h.count
  have halloc := h.alloc
  have hlen : array.entries.length = folder.length + 1 + rest.length := by
    rw [hheld]
    simp
    omega
  by_cases hfull : array.entryCount = array.entryAlloc
  · obtain ⟨n, hn, hgrow⟩ : ∃ n, array.entryAlloc < n ∧ folderGrow array =
        ⟨array.entries ++ List.replicate (n + 1 - array.entries.length) .unset,
          array.entryCount, n⟩ := by
      refine ⟨(if array.entryAlloc ≠ 0 then 2 * array.entryAlloc else 6) + 1, ?_, if_pos hfull⟩
      split <;> omega
    rw [hgrow]
    refine ⟨⟨⟨rest ++ List.replicate (n + 1 - array.entries.length) .unset, ?_⟩, hcount, ?_⟩, ?_⟩
    · show array.entries ++ List.replicate (n + 1 - array.entries.length) .unset = _
      generalize n + 1 - array.entries.length = k
      rw [hheld, List.append_assoc]
      rfl
    · show (array.entries ++ List.replicate _ _).length = n + 1
      rw [List.length_append, List.length_replicate]
      omega
    · show array.entryCount < n
      omega
  · rw [folderGrow, if_neg hfull]
    exact ⟨h, by omega⟩

theorem Represents.add {array : FolderArray} {folder : Folder} (h : Represents array folder)
    (name : Bytes) (isDir : Bool) (mode size : Nat) :
    ∃ array', folderAddEntryChunk array name isDir mode size = some array' ∧
      Represents array' (folderAddEntry folder name isDir mode size) := by
  obtain ⟨hrep, hroom⟩ := h.grow
  obtain ⟨rest, hheld⟩ := hrep.held
  have hcount := hrep.count
  have halloc := hrep.alloc
  have hlen : (folderGrow array).entries.length = folder.length + 1 + rest.length := by
    rw [hheld]
    simp
    omega
  unfold folderAddEntryChunk
  rw [if_pos (by omega)]
  refine ⟨_, rfl, ?_⟩
  obtain ⟨slot, rest', rfl⟩ : ∃ slot rest', rest = slot :: rest' := by
    cases rest with
    | nil => simp at hlen; omega
    | cons slot rest' => exact ⟨slot, rest', rfl⟩
  have hset : ∀ (s t : FolderSlot),
      ((folder.map FolderSlot.entry ++ .terminator :: slot :: rest').set
      folder.length s).set (folder.length + 1) t =
        folder.map .entry ++ s :: t :: rest' := by
    intro s t
    have hl : (folder.map FolderSlot.entry).length = folder.length := List.length_map _
    rw [List.set_append_right _ _ (by omega), hl, Nat.sub_self, List.set_cons_zero,
      List.set_append_right _ _ (by omega), hl, Nat.add_sub_cancel_left]
    rfl
  constructor
  · refine ⟨rest', ?_⟩
    show (((folderGrow array).entries.set _ _).set _ _) = _
    rw [hheld, hcount, hset, folderAddEntry, List.map_append, List.append_assoc]
    rfl
  · show (folderGrow array).entryCount + 1 = _
    rw [folderAddEntry, List.length_append, hcount]
    rfl
  · show (((folderGrow array).entries.set _ _).set _ _).length = _
    rw [List.length_set, List.length_set, halloc]

theorem Represents.sort {array : FolderArray} {folder : Folder} (h : Represents array folder) :
    Represents (folderSortArray cfg array) (folderSortEntries cfg folder) := by
  obtain ⟨rest, hheld⟩ := h.held
  have hl : (folder.map FolderSlot.entry).length = array.entryCount := by
    rw [List.length_map, h.count]
  have hsorted : (folderSortEntries cfg folder).length = folder.length :=
    List.length_mergeSort folder
  have htake : (array.entries.take array.entryCount).filterMap FolderSlot.entry? = folder := by
    rw [hheld, ← hl, List.take_left, List.filterMap_map]
    exact List.filterMap_some
  have hdrop : array.entries.drop array.entryCount = .terminator :: rest := by
    rw [hheld, ← hl, List.drop_left]
  constructor
  · exact ⟨rest, by unfold folderSortArray; rw [htake, hdrop]⟩
  · show array.entryCount = _
    rw [h.count, hsorted]
  · have halloc := h.alloc
    have hlen := congrArg List.length hdrop
    unfold folderSortArray
    rw [htake]
    show (_ ++ _ : List FolderSlot).length = array.entryAlloc + 1
    rw [List.length_append, List.length_map, hsorted, List.length_drop, ← h.count]
    rw [List.length_drop, List.length_cons] at hlen
    omega

theorem FolderBuilt.represents {array : FolderArray} {folder : Folder}
    (h : FolderBuilt cfg array folder) : Represents array folder := by
  induction h with
  | new => exact ⟨⟨[], rfl⟩, rfl, rfl⟩
  | add _ hadd ih =>
    rename_i name isDir mode size _
    obtain ⟨array'', hadd', hrep⟩ := ih.add name isDir mode size
    rw [hadd] at hadd'
    rw [Option.some.inj hadd']
    exact hrep
  | sort _ ih => exact ih.sort

/-- Every entry finds its place in the array. -/
theorem FolderBuilt.added {array : FolderArray} {folder : Folder}
    (h : FolderBuilt cfg array folder) (name : Bytes) (isDir : Bool) (mode size : Nat) :
    ∃ array', FolderBuilt cfg array' (folderAddEntry folder name isDir mode size) := by
  obtain ⟨array', hadd, -⟩ := h.represents.add name isDir mode size
  exact ⟨array', h.add hadd⟩

end Arrays

section Listing

/-- The names of the entries; a null folder has none. -/
def namesOf (folder : Option Folder) : List Bytes := (folder.getD []).map (·.fileName)

/-- What the listing of a path is to be, for the shares that have been seen. -/
structure ListsShares (cfg : Config) (shares : List Share) (p : Bytes) (folder : Option Folder) :
    Prop where
  none_iff : folder = none ↔ ∀ s ∈ shares, ¬ StrictlyBelow p s.urlpath
  names_nodup : (namesOf folder).Nodup
  names_iff : ∀ name, name ∈ namesOf folder ↔ ∃ s ∈ shares, NextComponent p s.urlpath name
  terminated : ∀ f, folder = some f →
    ∃ array, FolderBuilt cfg array f ∧ folderGetEntries array.entries = some f

/-- A tidy URL path below another has one next component. -/
theorem TidyUrl.next {p url : Bytes} (htidy : TidyUrl url) {rest : Bytes}
    (hurl : url = p ++ slash :: rest) (hne : rest ≠ []) :
    ∃ name after, rest = name ++ after ∧ name ≠ [] ∧ slash ∉ name ∧
      (after = [] ∨ ∃ t, after = slash :: t) := by
  have hstart : ∀ t, rest ≠ slash :: t := by
    intro t ht
    apply htidy.no_repeat
    rw [hurl, ht]
    exact ⟨p, t, by simp⟩
  cases hcut : splitAtByte slash rest with
  | none => exact ⟨rest, [], by simp, hne, not_mem_of_splitAtByte hcut, .inl rfl⟩
  | some cut =>
    obtain ⟨name, after⟩ := cut
    obtain ⟨hno, rfl⟩ := splitAtByte_eq hcut
    refine ⟨name, slash :: after, rfl, ?_, hno, .inr ⟨after, rfl⟩⟩
    intro hnil
    rw [hnil] at hstart
    exact hstart after rfl

/-- Two components that stand at one place are the same. -/
theorem component_unique {name name' after after' : Bytes} (hno : slash ∉ name)
    (hno' : slash ∉ name') (hafter : after = [] ∨ ∃ t, after = slash :: t)
    (hafter' : after' = [] ∨ ∃ t, after' = slash :: t)
    (h : name ++ after = name' ++ after') : name = name' := by
  have hkey : ∀ (n a : Bytes), slash ∉ n → (a = [] ∨ ∃ t, a = slash :: t) →
      (n ++ a).takeWhile (· != slash) = n := by
    intro n a hn ha
    have hall : ∀ b ∈ n, (b != slash) = true := by
      intro b hb
      rw [bne_iff_ne]
      intro he
      exact hn (he ▸ hb)
    rw [List.takeWhile_append_of_pos hall]
    rcases ha with rfl | ⟨t, rfl⟩
    · simp
    · simp
  rw [← hkey name after hno hafter, h, hkey name' after' hno' hafter']

theorem nextComponent_iff {p url name after : Bytes} (hurl : url = p ++ slash :: (name ++ after))
    (hne : name ≠ []) (hno : slash ∉ name) (hafter : after = [] ∨ ∃ t, after = slash :: t)
    (other : Bytes) : NextComponent p url other ↔ other = name := by
  constructor
  · intro h
    obtain ⟨rest, hurl', -, hno', hrest⟩ := h
    have he : name ++ after = other ++ rest := by
      rw [hurl, List.append_assoc] at hurl'
      have := List.append_cancel_left hurl'
      exact List.cons.inj this |>.2
    exact (component_unique hno hno' hafter hrest he).symm
  · intro h
    subst h
    exact ⟨after, by rw [hurl]; simp, hne, hno, hafter⟩

variable {shares : List Share} {p : Bytes} {folder : Option Folder}

/-- A share that is not below the path changes nothing. -/
theorem ListsShares.skip (h : ListsShares cfg shares p folder) {s : Share}
    (hbelow : ¬ StrictlyBelow p s.urlpath) : ListsShares cfg (shares ++ [s]) p folder := by
  have hnext : ∀ name, ¬ NextComponent p s.urlpath name := by
    intro name hname
    obtain ⟨rest, hurl, hne, -⟩ := hname
    apply hbelow
    exact ⟨name ++ rest, by rw [hurl]; simp, by simp [hne]⟩
  constructor
  · rw [h.none_iff]
    simp [or_imp, forall_and, hbelow]
  · exact h.names_nodup
  · intro name
    rw [h.names_iff]
    simp [or_and_right, exists_or, hnext]
  · exact h.terminated

/-- A share whose next component is listed already changes nothing either. -/
theorem ListsShares.again {f : Folder} (h : ListsShares cfg shares p (some f)) {s : Share}
    {name : Bytes} (hbelow : StrictlyBelow p s.urlpath)
    (hnext : ∀ other, NextComponent p s.urlpath other ↔ other = name)
    (hmem : name ∈ namesOf (some f)) : ListsShares cfg (shares ++ [s]) p (some f) := by
  constructor
  · constructor
    · intro hnone
      cases hnone
    · intro hall
      exact absurd hbelow (hall s (by simp))
  · exact h.names_nodup
  · intro other
    rw [h.names_iff]
    constructor
    · intro hs
      obtain ⟨t, ht, hc⟩ := hs
      exact ⟨t, List.mem_append_left _ ht, hc⟩
    · intro hs
      obtain ⟨t, ht, hc⟩ := hs
      rcases List.mem_append.mp ht with ht | ht
      · exact ⟨t, ht, hc⟩
      · rw [List.mem_singleton.mp ht, hnext] at hc
        rw [hc]
        exact (h.names_iff name).mp hmem
  · exact h.terminated

/-- A share with a new component is listed behind the others. -/
theorem ListsShares.add (h : ListsShares cfg shares p folder) {s : Share} {name : Bytes}
    (hbuilt : ∃ array, FolderBuilt cfg array (folder.getD []))
    (hbelow : StrictlyBelow p s.urlpath)
    (hnext : ∀ other, NextComponent p s.urlpath other ↔ other = name)
    (hnew : name ∉ namesOf folder) (isDir : Bool) (mode size : Nat) :
    ListsShares cfg (shares ++ [s]) p
      (some (folderAddEntry (folder.getD []) name isDir mode size)) := by
  have hnames : namesOf (some (folderAddEntry (folder.getD []) name isDir mode size)) =
      namesOf folder ++ [name] := by
    simp [namesOf, folderAddEntry]
  constructor
  · constructor
    · intro hnone
      cases hnone
    · intro hall
      exact absurd hbelow (hall s (by simp))
  · rw [hnames, List.nodup_append]
    refine ⟨h.names_nodup, by simp, ?_⟩
    intro a ha b hb
    rw [List.mem_singleton.mp hb]
    intro he
    exact hnew (he ▸ ha)
  · intro other
    rw [hnames, List.mem_append, h.names_iff, List.mem_singleton]
    simp [or_and_right, exists_or, hnext]
  · intro f hf
    obtain ⟨array, hb⟩ := hbuilt
    obtain ⟨array', hb'⟩ := hb.added name isDir mode size
    rw [← Option.some.inj hf]
    exact ⟨array', hb', hb'.represents.read⟩

theorem ListsShares.built (h : ListsShares cfg shares p folder) :
    ∃ array, FolderBuilt cfg array (folder.getD []) := by
  cases folder with
  | none => exact ⟨folderNew, .new⟩
  | some f =>
    obtain ⟨array, hb, -⟩ := h.terminated f rfl
    exact ⟨array, hb⟩

/-- What `subShare` sees of a share that starts with the path and goes on with a slash. -/
theorem subShare_guard {p url rest : Bytes} (hurl : url = p ++ slash :: rest) :
    (! p.isPrefixOf url || (url.drop p.length).head? != some slash) = false ∧
      url.drop (p.length + 1) = rest := by
  subst hurl
  have hbegin : p.isPrefixOf (p ++ slash :: rest) = true :=
    List.isPrefixOf_iff_prefix.mpr (List.prefix_append _ _)
  constructor
  · rw [hbegin, List.drop_left]
    rfl
  · rw [← List.drop_drop, List.drop_left]
    rfl

theorem subShare_above {s : Share} (h : ¬ StrictlyBelow p s.urlpath) (folder : Option Folder) :
    subShare p folder s = pure folder := by
  unfold subShare
  by_cases hguard :
      (! p.isPrefixOf s.urlpath || (s.urlpath.drop p.length).head? != some slash) = true
  · rw [if_pos hguard]
  · rw [if_neg hguard]
    simp only [Bool.or_eq_true, Bool.not_eq_true', bne_iff_ne, not_or, Bool.not_eq_false,
      List.isPrefixOf_iff_prefix, ne_eq, not_not] at hguard
    obtain ⟨⟨rest, hurl⟩, hhead⟩ := hguard
    rw [← hurl, List.drop_left] at hhead
    cases rest with
    | nil => cases hhead
    | cons b rest =>
      obtain rfl : b = slash := Option.some.inj hhead
      have hnil : rest = [] := by
        by_contra hne
        exact h ⟨rest, hurl.symm, hne⟩
      rw [(subShare_guard hurl.symm).2, hnil]
      rfl

/-- One share of the loop. -/
theorem subShare_lists {s : Share} (htidy : TidyUrl s.urlpath)
    (h : ListsShares cfg shares p folder) :
    Returns (ListsShares cfg (shares ++ [s]) p) (subShare p folder s) := by
  by_cases hbelow : StrictlyBelow p s.urlpath
  · obtain ⟨rest, hurl, hne⟩ := hbelow
    obtain ⟨name, after, hrest, hname, hno, hafter⟩ := htidy.next hurl hne
    have hbelow : StrictlyBelow p s.urlpath := ⟨rest, hurl, hne⟩
    have hnext := nextComponent_iff (hrest ▸ hurl) hname hno hafter
    obtain ⟨hguard, hdrop⟩ := subShare_guard hurl
    obtain ⟨b, name', rfl⟩ := List.exists_cons_of_ne_nil hname
    have hb : b ≠ slash := by
      intro he
      exact hno (he ▸ List.mem_cons_self)
    have hskip : dchSkipLeading rest slash = rest := by
      rw [hrest]
      exact List.dropWhile_cons_of_neg (by simpa using hb)
    obtain ⟨found, left, hcut⟩ : ∃ found left, dchExtractTillChr rest slash =
        (found, b :: name', left) := by
      unfold dchExtractTillChr
      rcases hafter with rfl | ⟨t, rfl⟩
      · rw [hrest, List.append_nil, splitAtByte_none hno]
        exact ⟨false, [], rfl⟩
      · rw [hrest, splitAtByte_append t hno]
        exact ⟨true, t, rfl⟩
    have hadd : ∀ isDir mode size, (b :: name') ∉ namesOf folder →
        ListsShares cfg (shares ++ [s]) p
          (some (folderAddEntry (folder.getD []) (b :: name') isDir mode size)) :=
      fun isDir mode size hnew => h.add h.built hbelow hnext hnew isDir mode size
    unfold subShare
    rw [hguard, if_neg (by decide)]
    dsimp only
    rw [hdrop, hskip, if_neg hne, hcut]
    dsimp only
    by_cases hmem : (b :: name') ∈ namesOf folder
    · have hany : ((folder.getD []).any fun fe => fe.fileName == b :: name') = true := by
        obtain ⟨fe, hfe, he⟩ := List.mem_map.mp hmem
        exact List.any_eq_true.mpr ⟨fe, hfe, by simpa using he⟩
      rw [if_pos hany]
      cases folder with
      | none => cases hmem
      | some f => exact .pure (h.again hbelow hnext hmem)
    · have hany : ¬ ((folder.getD []).any fun fe => fe.fileName == b :: name') = true := by
        intro hany
        obtain ⟨fe, hfe, he⟩ := List.any_eq_true.mp hany
        exact hmem (List.mem_map.mpr ⟨fe, hfe, by simpa using he⟩)
      rw [if_neg hany]
      refine .ite (.pure (hadd _ _ _ hmem)) (within_perform trivial fun r => ?_)
      cases r with
      | error e => exact .pure (hadd _ _ _ hmem)
      | ok st => exact .pure (hadd _ _ _ hmem)
  · rw [subShare_above hbelow]
    exact .pure (h.skip hbelow)

/-- The loop over the shares. -/
theorem subShares_list {more : List Share} (htidy : ∀ s ∈ more, TidyUrl s.urlpath)
    (h : ListsShares cfg shares p folder) :
    Returns (ListsShares cfg (shares ++ more) p) (more.foldlM (subShare p) folder) := by
  induction more generalizing shares folder with
  | nil =>
    rw [List.append_nil]
    exact .pure h
  | cons s more ih =>
    rw [List.foldlM_cons, ← List.singleton_append, ← List.append_assoc]
    refine (subShare_lists (htidy s List.mem_cons_self) h).bind fun folder' h' => ?_
    exact ih (fun t ht => htidy t (List.mem_cons_of_mem _ ht)) h'

theorem listsShares_nil (p : Bytes) : ListsShares cfg [] p none := by
  constructor
  · exact ⟨fun _ s hs => absurd hs List.not_mem_nil, fun _ => rfl⟩
  · exact List.nodup_nil
  · intro name
    constructor
    · intro h
      cases h
    · intro h
      obtain ⟨s, hs, -⟩ := h
      cases hs
  · intro f hf
    cases hf

/-- Sorting keeps the names. -/
theorem ListsShares.sort (h : ListsShares cfg shares p folder) :
    ListsShares cfg shares p (folder.map (folderSortEntries cfg)) := by
  cases folder with
  | none => exact h
  | some f =>
    have hperm : (namesOf (some (folderSortEntries cfg f))).Perm (namesOf (some f)) :=
      (List.mergeSort_perm f _).map _
    constructor
    · constructor
      · intro hnone
        cases hnone
      · intro hall
        cases h.none_iff.mpr hall
    · exact hperm.nodup_iff.mpr h.names_nodup
    · intro name
      exact hperm.mem_iff.trans (h.names_iff name)
    · intro f' hf'
      obtain ⟨array, hb, -⟩ := h.terminated f rfl
      rw [← Option.some.inj hf']
      exact ⟨_, hb.sort, hb.sort.represents.read⟩

end Listing

section Reachable

/-- The listing of a path returns, whatever the system answers, as it should. -/
def SharesListed (cfg : Config) (urlPath : Bytes) : Prop :=
  Returns (ListsShares cfg cfg.shares (dchTrimTrailing urlPath slash))
    (configGetSubSharesForPath cfg urlPath)

/-- The paths to which the listings lead from the root. -/
inductive Reaches (cfg : Config) : Bytes → Prop
  | root : Reaches cfg []
  | step {p name : Bytes} :
      Reaches cfg p → configGetSysPathForUrlPath cfg (p ++ [slash]) = none →
      Returns (fun folder => name ∈ namesOf folder)
        (configGetSubSharesForPath cfg (p ++ [slash])) →
      Reaches cfg (p ++ slash :: name)

theorem sharesListed_of_short (htidy : ∀ s ∈ cfg.shares, TidyUrl s.urlpath) {urlPath : Bytes}
    (hlen : urlPath.length < 2 ^ 31) : SharesListed cfg urlPath := by
  unfold SharesListed configGetSubSharesForPath
  rw [if_neg (by omega)]
  have hnone : ListsShares cfg [] (dchTrimTrailing urlPath slash) none := listsShares_nil _
  have hloop := subShares_list htidy hnone
  exact hloop.bind fun folder hlists => .pure hlists.sort

/-- Nothing is listed below a path whose length does not fit. -/
theorem sharesListed_long {urlPath : Bytes} (hlen : 2 ^ 31 ≤ urlPath.length) :
    SharesListed cfg urlPath ↔
      ∀ s ∈ cfg.shares, ¬ StrictlyBelow (dchTrimTrailing urlPath slash) s.urlpath := by
  unfold SharesListed configGetSubSharesForPath
  rw [if_pos hlen]
  constructor
  · intro h
    have hlists : ListsShares cfg cfg.shares (dchTrimTrailing urlPath slash) none := h
    exact hlists.none_iff.mp rfl
  · intro h
    have hlists : ListsShares cfg ([] ++ cfg.shares) (dchTrimTrailing urlPath slash) none := by
      generalize cfg.shares = more at h
      clear hlen
      generalize hseen : ([] : List Share) = seen
      have hnil : ListsShares cfg seen (dchTrimTrailing urlPath slash) none :=
        hseen ▸ listsShares_nil _
      clear hseen
      induction more generalizing seen with
      | nil => rwa [List.append_nil]
      | cons s more ih =>
        rw [← List.singleton_append, ← List.append_assoc]
        apply ih (fun t ht => h t (List.mem_cons_of_mem _ ht))
        exact hnil.skip (h s List.mem_cons_self)
    exact hlists

/-- A share that covers a path with a slash behind it covers the path. -/
theorem not_covers_slash {t : Share} (htidy : TidyUrl t.urlpath) {p : Bytes}
    (h : ¬ Covers t p) : ¬ Covers t (lookupText (p ++ [slash])) := by
  intro hcov
  unfold lookupText at hcov
  split at hcov
  · rename_i hp
    obtain rfl : p = [] := by
      have := congrArg List.length hp
      simpa using this
    exact h hcov
  · obtain ⟨rest, hu, hrest⟩ := hcov
    rcases List.eq_nil_or_concat rest with rfl | ⟨init, b, rfl⟩
    · apply htidy.no_slash_end
      rw [List.append_nil] at hu
      rw [← hu, List.getLast?_concat]
    · rw [List.concat_eq_append, ← List.append_assoc] at hu
      obtain ⟨hp, hb⟩ := List.append_inj' hu rfl
      apply h
      refine ⟨init, hp, ?_⟩
      rcases hrest with hnil | ⟨t', ht'⟩
      · simp at hnil
      · cases init with
        | nil => exact .inl rfl
        | cons c init =>
          rw [List.concat_eq_append, List.cons_append] at ht'
          exact .inr ⟨init, by rw [(List.cons.inj ht').1]⟩

/-- A path that no tidy share covers is not found. -/
theorem sysPath_of_uncovered (htidy : ∀ s ∈ cfg.shares, TidyUrl s.urlpath) {p : Bytes}
    (h : ∀ t ∈ cfg.shares, ¬ Covers t p) :
    configGetSysPathForUrlPath cfg (p ++ [slash]) = none := by
  by_cases hlen : (p ++ [slash]).length < 2 ^ 31
  · rw [configGetSysPathForUrlPath_eq cfg hlen, Option.map_eq_none_iff, foldl_betterShare_none]
    intro t ht
    exact not_covers_slash (htidy t ht) (h t ht)
  · exact configGetSysPathForUrlPath_too_long cfg (by omega)

/-- A path that does not end with a slash, and one behind it. -/
theorem trim_slash {p : Bytes} (h : p.getLast? ≠ some slash) :
    dchTrimTrailing (p ++ [slash]) slash = p := by
  unfold dchTrimTrailing
  rw [List.reverse_append]
  show ((slash :: p.reverse).dropWhile (· == slash)).reverse = p
  rw [List.dropWhile_cons_of_pos (by simp)]
  cases hrev : p.reverse with
  | nil =>
    have := congrArg List.reverse hrev
    simpa using this.symm
  | cons b q =>
    have hlast : p.getLast? = some b := by
      rw [List.getLast?_eq_head?_reverse, hrev]
      rfl
    have hb : b ≠ slash := by
      intro he
      exact h (he ▸ hlast)
    rw [List.dropWhile_cons_of_neg (by simpa using hb), ← hrev, List.reverse_reverse]

/-- The part of a path before its last slash, and the component behind it. -/
theorem exists_last_component {p : Bytes} (h : slash ∈ p) :
    ∃ q name, p = q ++ slash :: name ∧ slash ∉ name := by
  obtain ⟨name, q, hp, hno⟩ := List.eq_append_cons_of_mem (List.mem_reverse.mpr h)
  refine ⟨q.reverse, name.reverse, ?_, by simpa using hno⟩
  have := congrArg List.reverse hp
  simpa using this

/-- The listings lead to every part of a share's path that ends before a slash. -/
theorem reaches_part (htidy : ∀ s ∈ cfg.shares, TidyUrl s.urlpath) {s : Share}
    (hs : s ∈ cfg.shares)
    (hfree : ∀ p, StrictlyBelow p s.urlpath →
      p.length + 1 < 2 ^ 31 ∧ ∀ t ∈ cfg.shares, ¬ Covers t p)
    (n : Nat) {p rest : Bytes} (hn : p.length ≤ n) (hurl : s.urlpath = p ++ rest)
    (hrest : rest = [] ∨ ∃ t, rest = slash :: t) : Reaches cfg p := by
  have hurls := htidy s hs
  induction n generalizing p rest with
  | zero =>
    rw [List.length_eq_zero_iff.mp (Nat.le_zero.mp hn)]
    exact .root
  | succ n ih =>
    by_cases hnil : p = []
    · rw [hnil]
      exact .root
    have hmem : slash ∈ p := by
      rcases hurls.rooted with h | ⟨t, ht⟩
      · rw [h] at hurl
        exact absurd (List.append_eq_nil_iff.mp hurl.symm).1 hnil
      · obtain ⟨b, q, rfl⟩ := List.exists_cons_of_ne_nil hnil
        rw [ht, List.cons_append] at hurl
        rw [(List.cons.inj hurl).1]
        exact List.mem_cons_self
    obtain ⟨q, name, rfl, hno⟩ := exists_last_component hmem
    have hname : name ≠ [] := by
      intro h
      subst h
      rcases hrest with rfl | ⟨t, rfl⟩
      · apply hurls.no_slash_end
        rw [hurl, List.append_nil, List.getLast?_concat]
      · apply hurls.no_repeat
        exact ⟨q, t, by rw [hurl]; simp⟩
    have hbelow : StrictlyBelow q s.urlpath := ⟨name ++ rest, by rw [hurl]; simp, by simp [hname]⟩
    have hlast : q.getLast? ≠ some slash := by
      intro hq
      obtain ⟨q', rfl⟩ := List.getLast?_eq_some_iff.mp hq
      apply hurls.no_repeat
      exact ⟨q', name ++ rest, by rw [hurl]; simp⟩
    obtain ⟨hlen, huncovered⟩ := hfree q hbelow
    have hreach : Reaches cfg q := by
      have hcut : s.urlpath = q ++ (slash :: name ++ rest) := by rw [hurl]; simp
      rw [List.length_append, List.length_cons] at hn
      exact ih (by omega) hcut (.inr ⟨name ++ rest, rfl⟩)
    have hlisted : SharesListed cfg (q ++ [slash]) :=
      sharesListed_of_short htidy (by simpa using hlen)
    unfold SharesListed at hlisted
    rw [trim_slash hlast] at hlisted
    refine .step hreach (sysPath_of_uncovered htidy huncovered) (hlisted.mono ?_ ?_ ?_)
    · exact fun _ h => h
    · exact fun _ h => h
    · intro folder hlists
      exact (hlists.names_iff name).mpr ⟨s, hs, rest, hurl, hname, hno, hrest⟩

/-- The listing is complete and without duplicates for the paths whose length fits in an `int`
and for those with no share below, and it leads to every share that is not hidden. -/
theorem shares_listed_iff (cfg : Config) (htidy : ∀ s ∈ cfg.shares, TidyUrl s.urlpath) :
    (∀ urlPath, SharesListed cfg urlPath ↔ urlPath.length < 2 ^ 31 ∨
      ∀ s ∈ cfg.shares, ¬ StrictlyBelow (dchTrimTrailing urlPath slash) s.urlpath) ∧
    ∀ s ∈ cfg.shares, (∀ p, StrictlyBelow p s.urlpath →
      p.length + 1 < 2 ^ 31 ∧ ∀ t ∈ cfg.shares, ¬ Covers t p) → Reaches cfg s.urlpath := by
  constructor
  · intro urlPath
    by_cases hlen : urlPath.length < 2 ^ 31
    · exact ⟨fun _ => .inl hlen, fun _ => sharesListed_of_short htidy hlen⟩
    · rw [sharesListed_long (by omega)]
      exact ⟨.inr, fun h => h.resolve_left hlen⟩
  · intro s hs hfree
    exact reaches_part htidy hs hfree s.urlpath.length le_rfl (List.append_nil _).symm (.inl rfl)

instance (url : Bytes) : Decidable (TidyUrl url) :=
  decidable_of_iff ((url = [] ∨ url.head? = some slash) ∧ ¬ [slash, slash] <:+: url ∧
      url.getLast? ≠ some slash) <| by
    constructor
    · intro h
      refine ⟨?_, h.2.1, h.2.2⟩
      rcases h.1 with h | h
      · exact .inl h
      · obtain ⟨t, ht⟩ := List.head?_eq_some_iff.mp h
        exact .inr ⟨t, ht⟩
    · intro h
      refine ⟨?_, h.no_repeat, h.no_slash_end⟩
      rcases h.rooted with h | ⟨t, rfl⟩
      · exact .inl h
      · exact .inr rfl

/-- Shares below each other, and names that are prefixes of each other. -/
def nestedShares : Config :=
  { bareConfig with shares := [⟨ascii "/a/b", ascii "/srv/b"⟩, ⟨ascii "/a", ascii "/srv"⟩,
      ⟨ascii "/ab/c", ascii "/srv/c"⟩] }

theorem shares_listed_iff_nested : (∀ s ∈ nestedShares.shares, TidyUrl s.urlpath) ∧
    (SharesListed nestedShares (ascii "/") ↔ (ascii "/").length < 2 ^ 31 ∨
      ∀ s ∈ nestedShares.shares,
        ¬ StrictlyBelow (dchTrimTrailing (ascii "/") slash) s.urlpath) := by
  have htidy : ∀ s ∈ nestedShares.shares, TidyUrl s.urlpath := by decide +kernel
  exact ⟨htidy, (shares_listed_iff nestedShares htidy).1 (ascii "/")⟩

/-- Below 2^31 slashes no share is listed. -/
theorem shares_listed_long : ¬ SharesListed nestedShares (List.replicate (2 ^ 31) slash) := by
  have hlen : 2 ^ 31 ≤ (List.replicate (2 ^ 31) slash).length := by
    rw [List.length_replicate]
  have htrim : dchTrimTrailing (List.replicate (2 ^ 31) slash) slash = [] := by
    unfold dchTrimTrailing
    rw [List.reverse_replicate, List.reverse_eq_nil_iff, List.dropWhile_eq_nil_iff]
    intro b hb
    rw [List.eq_of_mem_replicate hb]
    rfl
  rw [sharesListed_long hlen, htrim]
  intro h
  exact h ⟨ascii "/a", ascii "/srv"⟩ (by decide) ⟨ascii "a", by decide, by decide⟩

end Reachable

end FilemanagerHttpd.Audit
