import FilemanagerHttpd.Audit.BufferBytes
import FilemanagerHttpd.Server.Folder
import FilemanagerHttpd.Server.Snapshot

/-!
# The search for a CGI program

`config_findCGI` cuts its copy of the path at one slash after the other, the last one first, so
what it finds is the longest prefix that is a CGI program.
-/

namespace FilemanagerHttpd.Audit

open Library Server

section Matching

variable (cfg : Config)

/-- A pattern that starts with a slash is for a whole path, another one for what follows any of
its slashes. -/
def MatchesCgi (url : Bytes) : Prop :=
  ∃ patt ∈ cfg.cgiPatterns,
    if patt.head? = some slash then cfg.fnmatch .pathnamePeriod patt url = true
    else ∃ front sub, url = front ++ slash :: sub ∧ cfg.fnmatch .pathnamePeriod patt sub = true

theorem mem_suffixesAfterSlash {url sub : Bytes} :
    sub ∈ suffixesAfterSlash url ↔ ∃ front, url = front ++ slash :: sub := by
  induction url with
  | nil => simp [suffixesAfterSlash]
  | cons b rest ih =>
    have hrest : sub ∈ suffixesAfterSlash rest ↔
        ∃ front, b :: rest = (b :: front) ++ slash :: sub := by
      simpa using ih
    rw [suffixesAfterSlash]
    constructor
    · intro h
      split at h
      · rename_i hb
        rcases List.mem_cons.mp h with rfl | h
        · exact ⟨[], by rw [hb]; rfl⟩
        · obtain ⟨front, hfront⟩ := hrest.mp h
          exact ⟨_, hfront⟩
      · obtain ⟨front, hfront⟩ := hrest.mp h
        exact ⟨_, hfront⟩
    · rintro ⟨front, hfront⟩
      cases front with
      | nil =>
        obtain ⟨rfl, rfl⟩ := List.cons.inj hfront
        rw [if_pos rfl]
        exact List.mem_cons_self
      | cons c front =>
        obtain ⟨rfl, hr⟩ := List.cons.inj hfront
        have hmem := ih.mpr ⟨front, hr⟩
        split
        · exact List.mem_cons_of_mem _ hmem
        · exact hmem

theorem configIsCGI_iff (sub : Bytes) :
    ∃ b, configIsCGI cfg (slash :: sub) = .ok b ∧ (b = true ↔ MatchesCgi cfg (slash :: sub)) := by
  have hany : ∀ patt,
      (sub :: suffixesAfterSlash sub).any (cfg.fnmatch .pathnamePeriod patt) = true ↔
      ∃ front rest, slash :: sub = front ++ slash :: rest ∧
        cfg.fnmatch .pathnamePeriod patt rest = true := by
    intro patt
    have hsuffixes : suffixesAfterSlash (slash :: sub) = sub :: suffixesAfterSlash sub := if_pos rfl
    rw [← hsuffixes, List.any_eq_true]
    constructor
    · rintro ⟨rest, hmem, hmatch⟩
      obtain ⟨front, hfront⟩ := mem_suffixesAfterSlash.mp hmem
      exact ⟨front, rest, hfront, hmatch⟩
    · rintro ⟨front, rest, hfront, hmatch⟩
      exact ⟨rest, mem_suffixesAfterSlash.mpr ⟨front, hfront⟩, hmatch⟩
  have hgo : ∀ patts, ∃ b, configIsCGI.go cfg (slash :: sub) patts = .ok b ∧ (b = true ↔
      ∃ patt ∈ patts, if patt.head? = some slash
        then cfg.fnmatch .pathnamePeriod patt (slash :: sub) = true
        else ∃ front rest, slash :: sub = front ++ slash :: rest ∧
          cfg.fnmatch .pathnamePeriod patt rest = true) := by
    intro patts
    induction patts with
    | nil => exact ⟨false, rfl, by simp⟩
    | cons patt patts ih =>
      obtain ⟨b, hb, hiff⟩ := ih
      simp only [List.exists_mem_cons_iff]
      rw [configIsCGI.go]
      by_cases habs : patt.head? = some slash
      · rw [if_pos habs, if_pos habs]
        by_cases hmatch : cfg.fnmatch .pathnamePeriod patt (slash :: sub) = true
        · exact ⟨true, if_pos hmatch, by simp [hmatch]⟩
        · rw [if_neg hmatch]
          exact ⟨b, hb, by rw [hiff, or_iff_right hmatch]⟩
      · rw [if_neg habs, if_neg habs, ← hany patt]
        by_cases hmatch :
            (sub :: suffixesAfterSlash sub).any (cfg.fnmatch .pathnamePeriod patt) = true
        · exact ⟨true, if_pos hmatch, by simp only [hmatch, true_or]⟩
        · refine ⟨b, (if_neg hmatch).trans hb, ?_⟩
          rw [hiff, or_iff_right hmatch]
  exact hgo cfg.cgiPatterns

end Matching

section Slashes

variable {s : Bytes} {n p : Nat}

theorem slashBefore_some (h : slashBefore s n = some p) :
    p < n ∧ s[p]? = some slash ∧ ∀ q, p < q → q < n → s[q]? ≠ some slash := by
  induction n with
  | zero => cases h
  | succ n ih =>
    rw [slashBefore] at h
    split at h
    · rename_i hslash
      obtain rfl : n = p := Option.some.inj h
      exact ⟨Nat.lt_succ_self _, hslash, fun q hq hq' => absurd hq (by omega)⟩
    · rename_i hslash
      obtain ⟨hlt, hp, hno⟩ := ih h
      refine ⟨by omega, hp, fun q hq hq' => ?_⟩
      rcases Nat.lt_succ_iff_lt_or_eq.mp hq' with hq' | rfl
      · exact hno q hq hq'
      · exact hslash

theorem slashBefore_none (h : slashBefore s n = none) {q : Nat} (hq : q < n) :
    s[q]? ≠ some slash := by
  induction n with
  | zero => omega
  | succ n ih =>
    rw [slashBefore] at h
    split at h
    · cases h
    · rename_i hslash
      rcases Nat.lt_succ_iff_lt_or_eq.mp hq with hq | rfl
      · exact ih h hq
      · exact hslash

/-- A path cut before one of its slashes. -/
theorem cut_at_slash (h : s[p]? = some slash) : s = s.take p ++ slash :: s.drop (p + 1) := by
  obtain ⟨hlt, hget⟩ := List.getElem?_eq_some_iff.mp h
  rw [← hget, ← List.drop_eq_getElem_cons hlt, List.take_append_drop]

/-- A zero that is put for a slash ends the path there. -/
theorem cstr_set_nul (hs : nul ∉ s) (h : s[p]? = some slash) : cstr (s.set p nul) = s.take p := by
  obtain ⟨hlt, -⟩ := List.getElem?_eq_some_iff.mp h
  have hfront : ∀ b ∈ s.take p, (b != nul) = true := fun b hb => by
    simpa using fun he : b = nul => hs (he ▸ List.mem_of_mem_take hb)
  rw [List.set_eq_take_append_cons_drop, if_pos hlt, cstr, List.takeWhile_append_of_pos hfront]
  simp

/-- The slash is put back. -/
theorem set_nul_set_slash (h : s[p]? = some slash) : (s.set p nul).set p slash = s := by
  obtain ⟨hlt, hget⟩ := List.getElem?_eq_some_iff.mp h
  rw [List.set_set, ← hget, List.set_getElem_self]

end Slashes

section Cuts

variable {cfg : Config} {s : Bytes}

/-- The cuts before a position, the last slash first. -/
def cutsBefore (s : Bytes) (n : Nat) : List (Bytes × Bytes) :=
  (((List.range n).filter fun i => s[i]? = some slash).map fun i => (s.take i, s.drop i)).reverse

theorem cutsBefore_succ (s : Bytes) (n : Nat) : cutsBefore s (n + 1) =
    if s[n]? = some slash then (s.take n, s.drop n) :: cutsBefore s n else cutsBefore s n := by
  rw [cutsBefore, List.range_succ, List.filter_append]
  by_cases h : s[n]? = some slash
  · rw [if_pos h, List.filter_singleton, decide_eq_true h, cond_true, List.map_append,
      List.reverse_append]
    rfl
  · rw [if_neg h, List.filter_singleton, decide_eq_false h, cond_false, List.append_nil]
    rfl

theorem findCgiPrefix_cons (front behind : Bytes) (cuts : List (Bytes × Bytes)) :
    findCgiPrefix cfg ((front, behind) :: cuts) = cgiExeOf cfg front >>= fun found =>
      match found with
      | some cgiExe => pure (some ⟨cgiExe, front, behind⟩)
      | none => findCgiPrefix cfg cuts := by
  rw [findCgiPrefix, cgiExeOf, bind_assoc]
  refine bind_congr fun matched => ?_
  cases matched with
  | false => rfl
  | true =>
    cases configGetSysPathForUrlPath cfg front with
    | none => rfl
    | some cgiExe =>
      simp only [Bool.not_true, Bool.false_eq_true, if_false, bind_assoc]
      refine bind_congr fun isReg => ?_
      cases isReg <;> rfl

/-- The loop goes through the cuts. -/
theorem iterate_cgiRound (hs : nul ∉ s) {n m : Nat} (hm : n < m) :
    (Program.iterate .outOfFuel (cgiRound cfg) m (s, slashBefore s n) >>= fun r =>
      match r.2 with
      | none => pure none
      | some (cgiExe, p) =>
        pure (some ⟨cgiExe, cstr (r.1.set p nul), r.1.drop p⟩) : Prog (Option FoundCgi)) =
    findCgiPrefix cfg (cutsBefore s n) := by
  induction n generalizing m with
  | zero =>
    obtain ⟨m, rfl⟩ := Nat.exists_eq_succ_of_ne_zero (Nat.ne_of_gt hm)
    rfl
  | succ n ih =>
    rw [slashBefore, cutsBefore_succ]
    by_cases h : s[n]? = some slash
    · obtain ⟨m, rfl⟩ := Nat.exists_eq_succ_of_ne_zero (Nat.ne_of_gt (Nat.zero_lt_of_lt hm))
      rw [if_pos h, if_pos h, findCgiPrefix_cons, Program.iterate]
      simp only [cgiRound, cstr_set_nul hs h, set_nul_set_slash h, bind_assoc]
      refine bind_congr fun found => ?_
      cases found with
      | none => exact ih (by omega)
      | some cgiExe =>
        show Program.done _ = Program.done _
        rw [cstr_set_nul hs h]
    · rw [if_neg h, if_neg h]
      exact ih (by omega)

/-- What is found, without the buffers of a whole path. -/
def foundOf (r : Bool × Option CgiBuffers) : Option FoundCgi :=
  r.2.bind fun b => b.cgiSubPath.map fun sub => ⟨b.cgiExe, b.cgiUrl, sub⟩

/-- The request handler's search is this one. -/
theorem configFindCGI_buffers (hs : nul ∉ s) :
    configFindCGI cfg s = configFindCGIBuffers cfg s >>= fun r => pure (foundOf r) := by
  have hloop : ∀ k : Bytes × Option (Path × Nat) → Prog (Bool × Option CgiBuffers),
      (∀ cgiUrl, k (cgiUrl, none) = pure (false, none)) →
      (∀ cgiUrl cgiExe p, k (cgiUrl, some (cgiExe, p)) =
        pure (true, some ⟨cgiExe, cstr (cgiUrl.set p nul), some (cgiUrl.drop p)⟩)) →
      findCgiPrefix cfg (slashCuts s) = (Program.iterate .outOfFuel (cgiRound cfg) (s.length + 1)
        (s, slashBefore s s.length) >>= k) >>=
          fun r => (pure (foundOf r) : Prog (Option FoundCgi)) := by
    intro k hnone hsome
    refine (iterate_cgiRound hs (Nat.lt_succ_self s.length)).symm.trans ?_
    rw [bind_assoc]
    refine bind_congr fun r => ?_
    obtain ⟨cgiUrl, hit⟩ := r
    cases hit with
    | none =>
      rw [hnone]
      rfl
    | some found =>
      rw [hsome]
      rfl
  rw [configFindCGI, configFindCGIBuffers, bind_assoc]
  refine bind_congr fun matched => ?_
  cases matched with
  | false => exact hloop _ (fun _ => rfl) fun _ _ _ => rfl
  | true =>
    cases configGetSysPathForUrlPath cfg s with
    | none => exact hloop _ (fun _ => rfl) fun _ _ _ => rfl
    | some cgiExe =>
      simp only [bind_assoc]
      refine bind_congr fun isReg => ?_
      cases isReg with
      | true => rfl
      | false => exact hloop _ (fun _ => rfl) fun _ _ _ => rfl

end Cuts

/-- A path that is searched because its own file cannot be looked at. -/
structure CgiSearch where
  cfg : Config
  snap : Snapshot
  /-- the path behind its first slash -/
  rest : Bytes
  clean : nul ∉ rest
  notThere : ∀ path, configGetSysPathForUrlPath cfg (slash :: rest) = some path →
    ∀ st, snap.stat path ≠ .ok st

namespace CgiSearch

variable (x : CgiSearch)

def url : Bytes := slash :: x.rest

/-- A prefix that is a CGI program: the empty one is tried as a slash. -/
def IsCgi (front exe : Bytes) : Prop :=
  MatchesCgi x.cfg (if front = [] then [slash] else front) ∧
    configGetSysPathForUrlPath x.cfg front = some exe ∧
      ∃ st, x.snap.stat exe = .ok st ∧ st.isReg = true

/-- The result and the buffers of a search. -/
structure Found (r : Bool × Option CgiBuffers) : Prop where
  found_iff : r.1 = true ↔ ∃ front behind exe,
    x.url = front ++ slash :: behind ∧ x.IsCgi front exe
  longest : r.1 = true → ∃ front behind exe,
    x.url = front ++ slash :: behind ∧ x.IsCgi front exe ∧
      r.2 = some ⟨exe, front, some (slash :: behind)⟩ ∧
        ∀ front' behind' exe', x.url = front' ++ slash :: behind' → x.IsCgi front' exe' →
          front'.length ≤ front.length
  untouched : r.1 = false → r.2 = none

variable {x}

theorem nul_not_mem_url : nul ∉ x.url := by
  intro h
  rcases List.mem_cons.mp h with h | h
  · exact absurd h (by decide)
  · exact x.clean h

theorem isRegularFile_wp {path : Path} {s : SnapState} :
    wp x.snap.world Duty.total (isRegularFile path)
      (fun r _ => r = true ↔ ∃ st, x.snap.stat path = .ok st ∧ st.isReg = true) s := by
  refine wp_snapshot_stat fun t _ => ?_
  cases x.snap.stat path with
  | ok st =>
    show st.isReg = true ↔ _
    simp
  | error e =>
    show false = true ↔ _
    simp

/-- A prefix is a CGI program exactly when its executable is found. -/
theorem cgiExeOf_wp {front : Bytes} (hfront : front = [] ∨ front.head? = some slash)
    {s : SnapState} : wp x.snap.world Duty.total (cgiExeOf x.cfg front)
      (fun r _ => ∀ exe, r = some exe ↔ x.IsCgi front exe) s := by
  obtain ⟨sub, hsub⟩ : ∃ sub, (if front = [] then [slash] else front) = slash :: sub := by
    rcases hfront with rfl | hhead
    · exact ⟨[], rfl⟩
    · obtain ⟨sub, rfl⟩ := List.head?_eq_some_iff.mp hhead
      exact ⟨sub, rfl⟩
  obtain ⟨b, hb, hiff⟩ := configIsCGI_iff x.cfg sub
  rw [cgiExeOf, hsub, hb]
  show wp _ _ (if ! b then _ else _) _ s
  cases b with
  | false =>
    intro exe
    have hno : ¬ MatchesCgi x.cfg (if front = [] then [slash] else front) := by
      rw [hsub, ← hiff]
      exact Bool.false_ne_true
    exact iff_of_false (fun h => by cases h) fun h => hno h.1
  | true =>
    have hyes : MatchesCgi x.cfg (if front = [] then [slash] else front) := by
      rw [hsub, ← hiff]
    simp only [Bool.not_true, Bool.false_eq_true, if_false]
    cases hmap : configGetSysPathForUrlPath x.cfg front with
    | none =>
      intro exe
      exact iff_of_false (fun h => by cases h) fun h => by cases h.2.1.symm.trans hmap
    | some cgiExe =>
      refine wp_seq isRegularFile_wp ?_
      intro isReg t hreg
      have hexe : ∀ exe, x.IsCgi front exe ↔ cgiExe = exe ∧ isReg = true := by
        intro exe
        rw [IsCgi, hmap, hreg]
        constructor
        · rintro ⟨-, hexe, hst⟩
          obtain rfl := Option.some.inj hexe
          exact ⟨rfl, hst⟩
        · rintro ⟨rfl, hst⟩
          exact ⟨hyes, rfl, hst⟩
      cases isReg with
      | false =>
        intro exe
        rw [hexe]
        exact iff_of_false (fun h => by cases h) fun h => by cases h.2
      | true =>
        intro exe
        rw [hexe, and_iff_left rfl]
        exact Option.some_inj

theorem take_rooted (p : Nat) : x.url.take p = [] ∨ (x.url.take p).head? = some slash := by
  cases p with
  | zero => exact .inl rfl
  | succ p => exact .inr rfl

/-- A prefix that ends before a slash, by its length. -/
theorem cut_at {front behind : Bytes} (h : x.url = front ++ slash :: behind) :
    x.url[front.length]? = some slash ∧ x.url.take front.length = front := by
  rw [h]
  simp

variable (x) in
/-- The programs that have not been tried lie before the slash that comes next. -/
def Untried (u : Bytes × Option Nat) : Prop :=
  u.1 = x.url ∧ ∃ n ≤ x.url.length, u.2 = slashBefore x.url n ∧
    ∀ front behind exe, x.url = front ++ slash :: behind → x.IsCgi front exe → front.length < n

variable (x) in
/-- How the search ends. -/
def Ended (u : Bytes × Option (Path × Nat)) : Prop :=
  u.1 = x.url ∧
    match u.2 with
    | none => ∀ front behind exe, x.url = front ++ slash :: behind → ¬ x.IsCgi front exe
    | some (exe, p) => x.url[p]? = some slash ∧ x.IsCgi (x.url.take p) exe ∧
      ∀ front behind exe', x.url = front ++ slash :: behind → x.IsCgi front exe' → front.length ≤ p

/-- One slash. -/
theorem cgiRound_wp {u : Bytes × Option Nat} {s : SnapState} (hu : x.Untried u) :
    wp x.snap.world Duty.total (cgiRound x.cfg u)
      (AfterRound (fun v _ => x.Untried v ∧ v.2.elim 0 (· + 1) < u.2.elim 0 (· + 1))
        fun r _ => x.Ended r) s := by
  obtain ⟨cgiUrl, slashPos⟩ := u
  obtain ⟨rfl, n, hn, rfl, hbefore⟩ : cgiUrl = x.url ∧ _ := hu
  cases hslash : slashBefore x.url n with
  | none =>
    refine ⟨rfl, fun front behind exe hcut hcgi => ?_⟩
    exact slashBefore_none hslash (hbefore front behind exe hcut hcgi) (cut_at hcut).1
  | some p =>
    obtain ⟨hpn, hp, hno⟩ := slashBefore_some hslash
    -- no slash lies between, so what is left is at this slash or before it
    have hle : ∀ front behind exe, x.url = front ++ slash :: behind → x.IsCgi front exe →
        front.length ≤ p := by
      intro front behind exe hcut hcgi
      by_contra hgt
      exact hno _ (by omega) (hbefore front behind exe hcut hcgi) (cut_at hcut).1
    rw [cgiRound]
    simp only [cstr_set_nul nul_not_mem_url hp, set_nul_set_slash hp]
    refine wp_seq (cgiExeOf_wp (take_rooted p)) ?_
    intro found t hfound
    cases found with
    | some exe => exact ⟨rfl, hp, (hfound exe).mp rfl, hle⟩
    | none =>
      refine ⟨⟨rfl, p, by omega, rfl, fun front behind exe hcut hcgi => ?_⟩, ?_⟩
      · refine Nat.lt_of_le_of_ne (hle front behind exe hcut hcgi) fun he => ?_
        have htake := (cut_at hcut).2
        rw [he] at htake
        rw [← htake] at hcgi
        exact nomatch (hfound exe).mpr hcgi
      · show (slashBefore x.url p).elim 0 (· + 1) < p + 1
        cases hnext : slashBefore x.url p with
        | none => exact Nat.succ_pos p
        | some q => exact Nat.succ_lt_succ (slashBefore_some hnext).1

/-- The path itself is not found. -/
theorem wholePath_wp (matched : Bool) {s : SnapState} :
    wp x.snap.world Duty.total
      (match matched, configGetSysPathForUrlPath x.cfg x.url with
        | true, some cgiExe => do return (← isRegularFile cgiExe, cgiExe)
        | _, _ => pure (false, []) : Prog (Bool × Path)) (fun r _ => r.1 = false) s := by
  cases matched with
  | false => exact rfl
  | true =>
    cases hmap : configGetSysPathForUrlPath x.cfg x.url with
    | none => exact rfl
    | some cgiExe =>
      refine wp_seq isRegularFile_wp ?_
      intro isReg t hreg
      show isReg = false
      rw [Bool.eq_false_iff]
      intro htrue
      obtain ⟨st, hst, -⟩ := hreg.mp htrue
      exact x.notThere cgiExe hmap st hst

end CgiSearch

end FilemanagerHttpd.Audit
