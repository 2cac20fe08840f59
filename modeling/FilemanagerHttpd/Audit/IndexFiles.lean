import FilemanagerHttpd.Audit.BufferBytes
import FilemanagerHttpd.Server.Folder
import FilemanagerHttpd.Server.Snapshot

/-!
# The index file of a directory

The patterns are in the order of their priority. The search takes one entry after the other and
looks only for patterns before the best one that it has, so the order of the entries does not
matter for the pattern that wins.
-/

namespace FilemanagerHttpd.Audit

open Library Server

/-- The first of the patterns that matches a name. -/
def FirstMatch (cfg : Config) (name : Bytes) (idx : Nat) : Prop :=
  (∃ patt, cfg.indexPatterns[idx]? = some patt ∧ cfg.fnmatch .period patt name = true) ∧
    ∀ j < idx, ∀ patt, cfg.indexPatterns[j]? = some patt → cfg.fnmatch .period patt name = false

theorem firstMatch_some {cfg : Config} {name : Bytes} {n idx : Nat}
    (h : firstMatch cfg (cfg.indexPatterns.take n) name = some idx) :
    idx < n ∧ FirstMatch cfg name idx := by
  obtain ⟨hlt, hmatch, hno⟩ := List.findIdx?_eq_some_iff_getElem.mp h
  rw [List.length_take] at hlt
  have hat : ∀ j (hj : j ≤ idx), (cfg.indexPatterns.take n)[j]? = cfg.indexPatterns[j]? :=
    fun j hj => List.getElem?_take_of_lt (by omega)
  refine ⟨by omega, ⟨_, ?_, hmatch⟩, fun j hj patt hpatt => ?_⟩
  · rw [← hat idx (le_refl _)]
    exact List.getElem?_eq_getElem _
  · rw [← hat j (Nat.le_of_lt hj)] at hpatt
    obtain ⟨hlen, rfl⟩ := List.getElem?_eq_some_iff.mp hpatt
    exact Bool.eq_false_iff.mpr (hno j hj)

theorem firstMatch_none {cfg : Config} {name : Bytes} {n idx : Nat}
    (h : firstMatch cfg (cfg.indexPatterns.take n) name = none) (hidx : FirstMatch cfg name idx) :
    n ≤ idx := by
  by_contra hlt
  obtain ⟨patt, hpatt, hmatch⟩ := hidx.1
  have hmem : patt ∈ cfg.indexPatterns.take n := by
    rw [← List.getElem?_take_of_lt (by omega : idx < n)] at hpatt
    exact List.mem_of_getElem? hpatt
  rw [List.findIdx?_eq_none_iff.mp h patt hmem] at hmatch
  cases hmatch

/-- A directory whose index file is looked for. -/
structure IndexSearch where
  cfg : Config
  snap : Snapshot
  dir : Path
  clean : nul ∉ dir
  /-- a bound on the rounds of the loop, above the number of entries -/
  rounds : Nat
  enough : ∀ entries, snap.listing dir = .ok entries → entries.length < rounds

namespace IndexSearch

variable (x : IndexSearch)

/-- The path of an entry. -/
def entryPath (name : Bytes) : Path :=
  (if x.dir.getLast? = some slash then x.dir else x.dir ++ [slash]) ++ name

/-- An entry that can be the index file, with the index of its pattern. -/
def Candidate (name : Bytes) (idx : Nat) : Prop :=
  isDotName name = false ∧ FirstMatch x.cfg name idx ∧
    ∃ st, x.snap.stat (x.entryPath name) = .ok st ∧ st.isDir = false

/-- The candidates among some entries, and the best of them. -/
def BestOf (names : List Bytes) (bestMatchIdx : Nat) : Option Path → Prop
  | none => bestMatchIdx = x.cfg.indexPatterns.length ∧
    ∀ name ∈ names, ∀ idx, ¬ x.Candidate name idx
  | some path => ∃ name ∈ names, x.Candidate name bestMatchIdx ∧ path = x.entryPath name ∧
    ∀ other ∈ names, ∀ idx, x.Candidate other idx → bestMatchIdx ≤ idx

/-- What is found in a directory with these entries. -/
structure FoundIn (entries : List Bytes) (best : Option Path) : Prop where
  found_iff : (∃ path, best = some path) ↔ ∃ name ∈ entries, ∃ idx, x.Candidate name idx
  first : ∀ path, best = some path → ∃ name ∈ entries, ∃ idx, x.Candidate name idx ∧
    path = x.entryPath name ∧ ∀ other ∈ entries, ∀ idx', x.Candidate other idx' → idx ≤ idx'

variable {x}

theorem bestOf_le {names : List Bytes} {bestMatchIdx : Nat} {best : Option Path}
    (h : x.BestOf names bestMatchIdx best) {name : Bytes} {idx : Nat} (hname : name ∈ names)
    (hc : x.Candidate name idx) : bestMatchIdx ≤ idx := by
  cases best with
  | none => exact absurd hc (h.2 name hname idx)
  | some path =>
    obtain ⟨_, -, -, -, hle⟩ := h
    exact hle name hname idx hc

/-- An entry that is no candidate for a better pattern changes nothing. -/
theorem bestOf_skip {names : List Bytes} {bestMatchIdx : Nat} {best : Option Path} {name : Bytes}
    (h : x.BestOf names bestMatchIdx best)
    (hname : ∀ idx, x.Candidate name idx → bestMatchIdx ≤ idx) :
    x.BestOf (names ++ [name]) bestMatchIdx best := by
  cases best with
  | none =>
    refine ⟨h.1, fun other hother idx hc => ?_⟩
    rcases List.mem_append.mp hother with hother | hother
    · exact h.2 other hother idx hc
    · obtain rfl := List.mem_singleton.mp hother
      obtain ⟨⟨patt, hpatt, -⟩, -⟩ := hc.2.1
      obtain ⟨hlt, -⟩ := List.getElem?_eq_some_iff.mp hpatt
      have hle := hname idx hc
      rw [h.1] at hle
      omega
  | some path =>
    obtain ⟨first, hfirst, hc, hpath, hle⟩ := h
    refine ⟨first, List.mem_append_left _ hfirst, hc, hpath, fun other hother idx hc' => ?_⟩
    rcases List.mem_append.mp hother with hother | hother
    · exact hle other hother idx hc'
    · obtain rfl := List.mem_singleton.mp hother
      exact hname idx hc'

/-- A candidate for a better pattern is the best one then. -/
theorem bestOf_better {names : List Bytes} {bestMatchIdx idx : Nat} {best : Option Path}
    {name : Bytes} (h : x.BestOf names bestMatchIdx best) (hlt : idx < bestMatchIdx)
    (hc : x.Candidate name idx) : x.BestOf (names ++ [name]) idx (some (x.entryPath name)) := by
  refine ⟨name, by simp, hc, rfl, fun other hother idx' hc' => ?_⟩
  rcases List.mem_append.mp hother with hother | hother
  · have hle := bestOf_le h hother hc'
    omega
  · obtain rfl := List.mem_singleton.mp hother
    by_contra hgt
    obtain ⟨patt, hpatt, hmatch⟩ := hc'.2.1.1
    have hno := hc.2.1.2 idx' (by omega) patt hpatt
    rw [hmatch] at hno
    cases hno

theorem foundIn_bestOf {entries : List Bytes} {bestMatchIdx : Nat} {best : Option Path}
    (h : x.BestOf entries bestMatchIdx best) : x.FoundIn entries best := by
  cases best with
  | none =>
    refine ⟨iff_of_false (fun hp => nomatch hp) ?_, fun path hp => nomatch hp⟩
    rintro ⟨name, hname, idx, hc⟩
    exact h.2 name hname idx hc
  | some path =>
    obtain ⟨name, hname, hc, hpath, hle⟩ := h
    refine ⟨iff_of_true ⟨path, rfl⟩ ⟨name, hname, _, hc⟩, fun path' hp => ?_⟩
    obtain rfl := Option.some.inj hp
    exact ⟨name, hname, _, hc, hpath, hle⟩

/-- No pattern comes before the first. -/
theorem bestOf_zero {seen entries : List Bytes} {best : Option Path} (h : x.BestOf seen 0 best)
    (hseen : ∀ name ∈ seen, name ∈ entries) : x.BestOf entries 0 best := by
  cases best with
  | none =>
    refine ⟨h.1, fun name _ idx hc => ?_⟩
    obtain ⟨⟨patt, hpatt, -⟩, -⟩ := hc.2.1
    obtain ⟨hlt, -⟩ := List.getElem?_eq_some_iff.mp hpatt
    rw [← h.1] at hlt
    omega
  | some path =>
    obtain ⟨name, hname, hc, hpath, -⟩ := h
    exact ⟨name, hseen name hname, hc, hpath, fun _ _ idx _ => Nat.zero_le idx⟩

variable (x) in
/-- The loop, with this many entries left: the best of those that have been seen. -/
def Searching (order : List Bytes) (dir : Fd) (left : Nat) (u : Nat × Option Path)
    (s : SnapState) : Prop :=
  (s.streams dir).length = left ∧ ∃ seen, order = seen ++ s.streams dir ∧ x.BestOf seen u.1 u.2

/-- One entry. -/
theorem indexFileRound_wp {order : List Bytes} {dir : Fd} {left : Nat} {u : Nat × Option Path}
    {s : SnapState} {dirName : MemBuf} (hclean : nul ∉ dirName.data)
    (hdir : ∀ name, dirName.data ++ name = x.entryPath name)
    (hu : x.Searching order dir left u s) :
    wp x.snap.world Duty.total (indexFileRound x.cfg dirName dir u)
      (AfterRound (fun v t => ∃ j < left, x.Searching order dir j v t)
        fun best _ => ∃ bestMatchIdx, x.BestOf order bestMatchIdx best) s := by
  obtain ⟨bestMatchIdx, bestIdxFile⟩ := u
  obtain ⟨hleft, seen, horder, hbest⟩ := hu
  rw [indexFileRound]
  by_cases hzero : bestMatchIdx = 0
  · rw [if_pos hzero]
    subst hzero
    exact ⟨0, bestOf_zero hbest fun name hname => by
      rw [horder]
      exact List.mem_append_left _ hname⟩
  rw [if_neg hzero]
  simp only [perform_bind]
  refine wp_snapshot_readdir (fun t hend => ?_) fun name t hnext hnul => ?_
  · rw [hend, List.append_nil] at horder
    exact ⟨bestMatchIdx, horder ▸ hbest⟩
  -- the entry is seen now
  have hseen : order = (seen ++ [name]) ++ t.streams dir := by
    rw [horder, hnext, List.append_assoc]
    rfl
  have hless : (t.streams dir).length < left := by
    rw [← hleft, hnext]
    exact Nat.lt_succ_self _
  have hskip : (∀ idx, x.Candidate name idx → bestMatchIdx ≤ idx) → ∀ t' : SnapState,
      t'.streams = t.streams → ∃ j < left, x.Searching order dir j (bestMatchIdx, bestIdxFile) t' :=
    fun hno t' ht' => ⟨_, hless, by rw [ht'], _, by rw [ht']; exact hseen, bestOf_skip hbest hno⟩
  show wp _ _ (if isDotName name then _ else _) _ t
  by_cases hdot : isDotName name = true
  · rw [if_pos hdot]
    refine hskip (fun idx hc => ?_) t rfl
    rw [hc.1] at hdot
    cases hdot
  rw [if_neg hdot]
  cases hfirst : firstMatch x.cfg (x.cfg.indexPatterns.take bestMatchIdx) name with
  | none => exact hskip (fun idx hc => firstMatch_none hfirst hc.2.1) t rfl
  | some matchIdx =>
    obtain ⟨hlt, hmatch⟩ := firstMatch_some hfirst
    have hpath : cstr (mbSetStrEnd dirName dirName.dataLen name).data = x.entryPath name :=
      (cstr_mbSetStrEnd hclean hnul).trans (hdir name)
    refine wp_snapshot_stat fun t' ht' => ?_
    rw [hpath]
    cases hstat : x.snap.stat (x.entryPath name) with
    | error e =>
      refine hskip (fun idx hc => ?_) t' ht'
      obtain ⟨st, hst, -⟩ := hc.2.2
      rw [hstat] at hst
      cases hst
    | ok st =>
      show wp _ _ (if st.isDir then _ else _) _ t'
      by_cases hisDir : st.isDir = true
      · rw [if_pos hisDir]
        refine hskip (fun idx hc => ?_) t' ht'
        obtain ⟨st', hst', hfile⟩ := hc.2.2
        obtain rfl : st = st' := Except.ok.inj (hstat.symm.trans hst')
        rw [hisDir] at hfile
        cases hfile
      · rw [if_neg hisDir]
        have hc : x.Candidate name matchIdx :=
          ⟨Bool.eq_false_iff.mpr hdot, hmatch, st, hstat, Bool.eq_false_iff.mpr hisDir⟩
        exact ⟨_, hless, by rw [ht'], _, by rw [ht']; exact hseen, bestOf_better hbest hlt hc⟩

end IndexSearch

end FilemanagerHttpd.Audit
