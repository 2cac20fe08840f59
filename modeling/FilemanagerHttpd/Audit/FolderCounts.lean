import FilemanagerHttpd.Audit.ShareListing
import FilemanagerHttpd.Server.FolderSlots

/-!
# How many entries a folder holds

The number of slots is a power of two, one more than `entryAlloc`, so the last array that the
counters can describe has 2^31 of them. The entry after that asks for 2^32, which is none.
-/

namespace FilemanagerHttpd.Audit

open Library Server

/-- The calls return, every write was inside the array, and this holds the added entries in order
and then the null file name; sorting permutes the entries only. -/
def FolderKept (adds : List FolderAdd) : Prop :=
  ∃ folder, folderAddAll folderNew adds = .ok folder ∧
    folder.entryCount ≤ folder.entryAlloc ∧
    folder.entryAlloc + 1 ≤ folder.entries.length ∧
    folder.entries[folder.entryCount]? = some .terminator ∧
    folder.entries.take folder.entryCount = adds.map (.entry ∘ FolderAdd.fe) ∧
    ∀ cfg, let sorted := folderSortArray cfg folder
      (sorted.entries.take folder.entryCount).Perm (folder.entries.take folder.entryCount) ∧
      sorted.entries.drop folder.entryCount = folder.entries.drop folder.entryCount ∧
      sorted.entryCount = folder.entryCount ∧ sorted.entryAlloc = folder.entryAlloc

section Growth

variable {folder : FolderArray} {held : Folder} {name : DataChunk} {isDir : Bool} {mode size : Nat}

/-- The array holds the entries, and its size is the smallest that has room for them. -/
structure Filled (folder : FolderArray) (held : Folder) : Prop where
  represents : Represents folder held
  room : folder.entryCount ≤ folder.entryAlloc
  alloc : held = [] ∧ folder.entryAlloc = 0 ∨ ∃ k, k ≤ 31 ∧ folder.entryAlloc + 1 = 2 ^ k ∧
    (k = 3 ∨ 3 < k ∧ 2 ^ (k - 1) ≤ held.length)

theorem filled_new : Filled folderNew [] where
  represents := ⟨⟨[], rfl⟩, rfl, rfl⟩
  room := Nat.le_refl 0
  alloc := .inl ⟨rfl, rfl⟩

/-- There is room for one entry less than 2^31. -/
theorem Filled.length_lt (h : Filled folder held) : held.length < 2 ^ 31 := by
  have hcount := h.represents.count
  have hroom := h.room
  rcases h.alloc with ⟨rfl, -⟩ | ⟨k, hk, halloc, -⟩
  · simp
  · have hpow : 2 ^ k ≤ 2 ^ 31 := Nat.pow_le_pow_right (by decide) hk
    omega

/-- The full array before the last one, by its size. -/
theorem Filled.grown (h : Filled folder held) (hfull : folder.entryCount = folder.entryAlloc)
    (hlen : held.length + 1 < 2 ^ 31) :
    ∃ k, k ≤ 31 ∧ nextEntryAlloc folder.entryAlloc + 1 = 2 ^ k ∧
      (k = 3 ∨ 3 < k ∧ 2 ^ (k - 1) ≤ held.length + 1) ∧
      nextEntryAlloc folder.entryAlloc =
        (if folder.entryAlloc ≠ 0 then 2 * folder.entryAlloc else 6) + 1 := by
  have hcount := h.represents.count
  rcases h.alloc with ⟨rfl, halloc⟩ | ⟨k, hk, halloc, hleast⟩
  · refine ⟨3, by omega, ?_, .inl rfl, ?_⟩ <;> rw [halloc] <;> rfl
  · have hk31 : k < 31 := by
      apply (Nat.pow_lt_pow_iff_right (show 1 < 2 by decide)).mp
      omega
    have hpos : 8 ≤ 2 ^ k := by
      have h3 : 3 ≤ k := by omega
      exact Nat.pow_le_pow_right (show 0 < 2 by decide) h3
    have hne : folder.entryAlloc ≠ 0 := by omega
    have hsize : uintSize = 2 ^ 32 := rfl
    have hnext : nextEntryAlloc folder.entryAlloc = 2 * folder.entryAlloc + 1 := by
      rw [nextEntryAlloc, if_pos hne, Nat.mod_eq_of_lt (by omega)]
    have hsucc : 2 ^ (k + 1) = 2 * 2 ^ k := Nat.pow_succ'
    refine ⟨k + 1, by omega, by omega, .inr ⟨by omega, ?_⟩, by rw [if_pos hne, hnext]⟩
    rw [Nat.add_sub_cancel]
    omega

theorem reallocEntries_longer {entries : List FolderSlot} {slots : Nat}
    (h : entries.length ≤ slots) : reallocEntries entries slots =
      entries ++ List.replicate (slots - entries.length) .unset := by
  rw [reallocEntries, List.take_of_length_le h]

theorem setSlot_ok {entries : List FolderSlot} {i : Nat} (h : i < entries.length)
    (slot : FolderSlot) : setSlot entries i slot = .ok (entries.set i slot) := if_pos h

/-- Below the last array the counters do not wrap around. -/
theorem Filled.grow_eq (h : Filled folder held) (hlen : held.length + 1 < 2 ^ 31) :
    folderGrowUint folder = folderGrow folder := by
  unfold folderGrowUint folderGrow
  by_cases hfull : folder.entryCount = folder.entryAlloc
  · rw [if_pos hfull, if_pos hfull]
    obtain ⟨k, hk, hpow, -, hnext⟩ := h.grown hfull hlen
    have hmost : 2 ^ k ≤ 2 ^ 31 := Nat.pow_le_pow_right (by decide) hk
    have hsize : uintSize = 2 ^ 32 := rfl
    have halloc := h.represents.alloc
    have hmore : folder.entries.length ≤ nextEntryAlloc folder.entryAlloc + 1 := by
      rw [halloc, hnext]
      split <;> omega
    show FolderArray.mk (reallocEntries _ ((nextEntryAlloc _ + 1) % uintSize)) _ _ = _
    rw [Nat.mod_eq_of_lt (by omega), reallocEntries_longer hmore, hnext]
  · rw [if_neg hfull, if_neg hfull]

theorem Filled.add (h : Filled folder held) (hlen : held.length + 1 < 2 ^ 31)
    (hname : name.length + 1 < uintSize) : ∃ folder',
    folderAddEntryChunk folder name isDir mode size = some folder' ∧
    folderAddEntryChunkUint folder name isDir mode size = .ok folder' ∧
    Filled folder' (folderAddEntry held name isDir mode size) := by
  obtain ⟨folder', hadd, hrep⟩ := h.represents.add name isDir mode size
  obtain ⟨hgrown, hroom⟩ := h.represents.grow
  have halloc := hgrown.alloc
  have hcount := h.represents.count
  have hcountGrown := hgrown.count
  have hsize : uintSize = 2 ^ 32 := rfl
  have hslots : (folderGrow folder).entryCount + 1 < (folderGrow folder).entries.length := by omega
  have hfolder' := hadd
  unfold folderAddEntryChunk at hfolder'
  rw [if_pos hslots] at hfolder'
  obtain rfl := Option.some.inj hfolder'
  refine ⟨_, hadd, ?_, hrep, ?_, ?_⟩
  · unfold folderAddEntryChunkUint
    rw [h.grow_eq hlen, dchDupToStr, if_pos hname]
    show (setSlot _ _ _ >>= _ : Except Fault FolderArray) = _
    rw [setSlot_ok (by omega)]
    show (setSlot _ _ _ >>= _ : Except Fault FolderArray) = _
    rw [setSlot_ok (by rw [List.length_set]; exact hslots)]
    show Except.ok (FolderArray.mk _ ((_ + 1) % uintSize) _) = _
    rw [Nat.mod_eq_of_lt (by omega)]
  · show (folderGrow folder).entryCount + 1 ≤ (folderGrow folder).entryAlloc
    omega
  · have hlen' : (folderAddEntry held name isDir mode size).length = held.length + 1 :=
      List.length_append
    right
    show ∃ k, k ≤ 31 ∧ (folderGrow folder).entryAlloc + 1 = 2 ^ k ∧ _
    by_cases hfull : folder.entryCount = folder.entryAlloc
    · obtain ⟨k, hk, hpow, hleast, hnext⟩ := h.grown hfull hlen
      have hgrow : (folderGrow folder).entryAlloc = nextEntryAlloc folder.entryAlloc := by
        rw [folderGrow, if_pos hfull, hnext]
      exact ⟨k, hk, by rw [hgrow, hpow], by rw [hlen']; exact hleast⟩
    · have hgrow : folderGrow folder = folder := if_neg hfull
      rcases h.alloc with ⟨rfl, hzero⟩ | ⟨k, hk, hpow, hleast⟩
      · have hroom' := h.room
        omega
      · refine ⟨k, hk, by rw [hgrow, hpow], ?_⟩
        rw [hlen']
        rcases hleast with h3 | ⟨h3, hle⟩
        · exact .inl h3
        · exact .inr ⟨h3, by omega⟩

/-- A name of 2^32 - 1 bytes leaves no room for its end. -/
theorem add_long_name (hname : uintSize ≤ name.length + 1) :
    folderAddEntryChunkUint folder name isDir mode size = .error .heapOverflow := by
  unfold folderAddEntryChunkUint
  rw [dchDupToStr, if_neg (by omega)]
  rfl

/-- The array of 2^31 slots is reallocated to none. -/
theorem Filled.add_last (h : Filled folder held) (hlen : held.length + 1 = 2 ^ 31) :
    folderAddEntryChunkUint folder name isDir mode size = .error .heapOverflow := by
  have hcount := h.represents.count
  have hroom := h.room
  have halloc : folder.entryAlloc = 2 ^ 31 - 1 := by
    rcases h.alloc with ⟨rfl, -⟩ | ⟨k, hk, hpow, -⟩
    · simp at hlen
    · have hmost : 2 ^ k ≤ 2 ^ 31 := Nat.pow_le_pow_right (by decide) hk
      omega
  have hfull : folder.entryCount = folder.entryAlloc := by omega
  have hnone : (folderGrowUint folder).entries = [] := by
    rw [folderGrowUint, if_pos hfull, halloc]
    show folder.entries.take 0 ++ List.replicate (0 - folder.entries.length) .unset = []
    rw [Nat.zero_sub]
    rfl
  have hset : ∀ i slot, setSlot (folderGrowUint folder).entries i slot = .error .heapOverflow := by
    intro i slot
    rw [hnone]
    rfl
  unfold folderAddEntryChunkUint
  by_cases hname : name.length + 1 < uintSize
  · rw [dchDupToStr, if_pos hname]
    show (setSlot _ _ _ >>= _ : Except Fault FolderArray) = _
    rw [hset]
    rfl
  · rw [dchDupToStr, if_neg hname]
    rfl

end Growth

section Sequences

variable {folder : FolderArray} {held : Folder} {adds : List FolderAdd}

theorem Filled.step (h : Filled folder held) (a : FolderAdd) (hlen : held.length + 1 < 2 ^ 31)
    (hname : a.dch.length + 1 < uintSize) : ∃ folder',
    folderAdd folder a = .ok folder' ∧ Filled folder' (held ++ [a.stored]) := by
  cases a with
  | entry name isDir mode size =>
    obtain ⟨folder', -, hadd, hfilled⟩ := h.add hlen hname
    exact ⟨folder', hadd, hfilled⟩
  | chunk name isDir mode size =>
    obtain ⟨folder', -, hadd, hfilled⟩ := h.add hlen hname
    exact ⟨folder', hadd, hfilled⟩

/-- A call that returns has room for its entry and for its name. -/
theorem Filled.step_ok (h : Filled folder held) {a : FolderAdd} {folder' : FolderArray}
    (hok : folderAdd folder a = .ok folder') :
    held.length + 1 < 2 ^ 31 ∧ a.dch.length + 1 < uintSize := by
  have hlt := h.length_lt
  have hcall : ∃ isDir mode size,
      folderAddEntryChunkUint folder a.dch isDir mode size = .ok folder' := by
    cases a with
    | entry name isDir mode size => exact ⟨isDir, mode, size, hok⟩
    | chunk name isDir mode size => exact ⟨isDir, mode, size, hok⟩
  obtain ⟨isDir, mode, size, hcall⟩ := hcall
  refine ⟨?_, ?_⟩
  · by_contra hlen
    rw [h.add_last (by omega)] at hcall
    cases hcall
  · by_contra hname
    rw [add_long_name (by omega)] at hcall
    cases hcall

theorem Filled.run (h : Filled folder held) (adds : List FolderAdd)
    (hlen : held.length + adds.length < 2 ^ 31)
    (hname : ∀ a ∈ adds, a.dch.length + 1 < uintSize) : ∃ folder',
    folderAddAll folder adds = .ok folder' ∧
      Filled folder' (held ++ adds.map FolderAdd.stored) := by
  induction adds generalizing folder held with
  | nil => exact ⟨folder, rfl, by simpa using h⟩
  | cons a adds ih =>
    simp only [List.length_cons] at hlen
    obtain ⟨mid, hmid, hfilled⟩ := h.step a (by omega) (hname a List.mem_cons_self)
    obtain ⟨folder', hrun, hdone⟩ := ih hfilled
      (by rw [List.length_append, List.length_singleton]; omega)
      fun x hx => hname x (List.mem_cons_of_mem _ hx)
    refine ⟨folder', ?_, by simpa using hdone⟩
    rw [folderAddAll, List.foldlM_cons, hmid]
    exact hrun

theorem Filled.run_ok (h : Filled folder held) {folder' : FolderArray}
    (hok : folderAddAll folder adds = .ok folder') :
    held.length + adds.length < 2 ^ 31 ∧ ∀ a ∈ adds, a.dch.length + 1 < uintSize := by
  induction adds generalizing folder held with
  | nil => exact ⟨h.length_lt, by simp⟩
  | cons a adds ih =>
    rw [folderAddAll, List.foldlM_cons] at hok
    cases hmid : folderAdd folder a with
    | error f => rw [hmid] at hok; cases hok
    | ok mid =>
      rw [hmid] at hok
      obtain ⟨hlen, hname⟩ := h.step_ok hmid
      obtain ⟨mid', hmid', hfilled⟩ := h.step a hlen hname
      obtain rfl := Except.ok.inj (hmid.symm.trans hmid')
      obtain ⟨hrest, hnames⟩ := ih hfilled hok
      rw [List.length_append, List.length_singleton] at hrest
      refine ⟨by rw [List.length_cons]; omega, ?_⟩
      intro x hx
      rcases List.mem_cons.mp hx with rfl | hx
      · exact hname
      · exact hnames x hx

theorem Represents.take_count (h : Represents folder held) :
    folder.entries.take folder.entryCount = held.map .entry := by
  obtain ⟨rest, hheld⟩ := h.held
  rw [hheld, List.take_left' (by rw [List.length_map, h.count])]

/-- What sorting makes of the array. -/
theorem Represents.sorted (h : Represents folder held) (cfg : Config) :
    (folderSortArray cfg folder).entries.take folder.entryCount =
      (folderSortEntries cfg held).map .entry ∧
    (folderSortArray cfg folder).entries.drop folder.entryCount =
      folder.entries.drop folder.entryCount := by
  have hsorted : ((folderSortEntries cfg held).map FolderSlot.entry).length = folder.entryCount := by
    rw [List.length_map, h.count]
    exact List.length_mergeSort held
  have hsort : (folderSortArray cfg folder).entries =
      (folderSortEntries cfg held).map .entry ++ folder.entries.drop folder.entryCount := by
    have hfilter : (held.map FolderSlot.entry).filterMap FolderSlot.entry? = held := by
      rw [List.filterMap_map]
      exact List.filterMap_some
    show (folderSortEntries cfg ((folder.entries.take folder.entryCount).filterMap _)).map _ ++ _ = _
    rw [h.take_count, hfilter]
  exact ⟨by rw [hsort, List.take_left' hsorted], by rw [hsort, List.drop_left' hsorted]⟩

theorem Filled.kept (h : Filled folder (adds.map FolderAdd.fe))
    (hrun : folderAddAll folderNew adds = .ok folder) : FolderKept adds := by
  obtain ⟨rest, hheld⟩ := h.represents.held
  have hcount := h.represents.count
  have hl : ((adds.map FolderAdd.fe).map FolderSlot.entry).length = folder.entryCount := by
    rw [List.length_map, hcount]
  refine ⟨folder, hrun, h.room, h.represents.alloc.ge, ?_, ?_, fun cfg => ?_⟩
  · rw [hheld, List.getElem?_append_right (by omega), hl, Nat.sub_self]
    rfl
  · rw [h.represents.take_count, List.map_map]
  · obtain ⟨hsorted, hdrop⟩ := h.represents.sorted cfg
    refine ⟨?_, hdrop, rfl, rfl⟩
    rw [hsorted, h.represents.take_count]
    exact (List.mergeSort_perm _ _).map _

theorem dchInitWithStr_short {name : Bytes} (h : (cstr name).length < uintSize) :
    dchInitWithStr name = cstr name := by
  rw [dchInitWithStr, Nat.mod_eq_of_lt h, List.take_length]

theorem FolderAdd.stored_short {a : FolderAdd} (h : a.fe.fileName.length + 1 < uintSize) :
    a.dch = a.fe.fileName ∧ a.stored = a.fe := by
  cases a with
  | entry name isDir mode size =>
    have hdch : dchInitWithStr name = cstr name := dchInitWithStr_short (by
      change (cstr name).length + 1 < uintSize at h
      omega)
    exact ⟨hdch, congrArg (FolderEntry.mk · isDir (mode &&& permissionBits) size) hdch⟩
  | chunk name isDir mode size => exact ⟨rfl, rfl⟩

end Sequences

/-- **The array of a folder holds what was added, exactly for fewer than 2^31 entries with names
shorter than 2^32 - 1 bytes.** -/
theorem folder_kept_iff (adds : List FolderAdd) : FolderKept adds ↔
    adds.length < 2 ^ 31 ∧ ∀ a ∈ adds, a.fe.fileName.length + 1 < uintSize := by
  constructor
  · rintro ⟨folder, hrun, -, -, -, htake, -⟩
    obtain ⟨hlen, hname⟩ := filled_new.run_ok hrun
    rw [List.length_nil, Nat.zero_add] at hlen
    obtain ⟨folder', hrun', hfilled⟩ := filled_new.run adds (by simpa using hlen) hname
    obtain rfl := Except.ok.inj (hrun.symm.trans hrun')
    have hstored := hfilled.represents.take_count
    rw [htake, List.nil_append, List.map_map, List.map_inj_left] at hstored
    refine ⟨hlen, fun a ha => ?_⟩
    have hsame : a.fe = a.stored := FolderSlot.entry.inj (hstored a ha)
    have hdch : a.fe.fileName = a.dch := congrArg FolderEntry.fileName hsame
    rw [hdch]
    exact hname a ha
  · rintro ⟨hlen, hname⟩
    obtain ⟨folder, hrun, hfilled⟩ := filled_new.run adds (by simpa using hlen)
      fun a ha => by rw [(FolderAdd.stored_short (hname a ha)).1]; exact hname a ha
    have hmap : adds.map FolderAdd.stored = adds.map FolderAdd.fe :=
      List.map_congr_left fun a ha => (FolderAdd.stored_short (hname a ha)).2
    rw [hmap] at hfilled
    exact hfilled.kept hrun

/-- The array does not hold 2^31 entries without a name. -/
theorem folder_overflows : ¬ FolderKept (List.replicate (2 ^ 31) (.chunk [] false 0 0)) := by
  rintro ⟨folder, hrun, -⟩
  have hlen := (filled_new.run_ok hrun).1
  rw [List.length_replicate] at hlen
  simp at hlen

end FilemanagerHttpd.Audit
