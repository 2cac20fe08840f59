import FilemanagerHttpd.Audit.CgiSearch
import FilemanagerHttpd.Server.ConfigFile

/-!
# Which strings the CGI patterns are compared with

The loops of `config_isCGI` make the calls of `fnmatch` in one fixed order and stop at the first
match. What they may try is therefore a list, and a scan is the part of it up to that match.
-/

namespace FilemanagerHttpd.Audit

open Library Server

/-- The calls of `fnmatch` for one pattern: the whole path, or what follows each of its slashes. -/
def pattCalls (url cgiPatt : Bytes) : List FnmatchCall :=
  if cgiPatt.head? = some slash then [(cgiPatt, url)]
  else (suffixesAfterSlash url).map (cgiPatt, ·)

/-- All calls of `fnmatch` that a scan without a match makes, in their order. -/
def cgiCalls (cfg : Config) (url : Bytes) : List FnmatchCall :=
  cfg.cgiPatterns.flatMap (pattCalls url)

def callMatches (cfg : Config) (call : FnmatchCall) : Bool :=
  cfg.fnmatch .pathnamePeriod call.1 call.2

theorem mem_cgiCalls {cfg : Config} {url patt str : Bytes} :
    (patt, str) ∈ cgiCalls cfg url ↔ patt ∈ cfg.cgiPatterns ∧
      if patt.head? = some slash then str = url else ∃ front, url = front ++ slash :: str := by
  have hone : ∀ p, (patt, str) ∈ pattCalls url p ↔ patt = p ∧
      if p.head? = some slash then str = url else ∃ front, url = front ++ slash :: str := by
    intro p
    unfold pattCalls
    by_cases habs : p.head? = some slash
    · simp [habs]
    · rw [if_neg habs, if_neg habs, ← mem_suffixesAfterSlash]
      simp [and_comm, eq_comm]
  simp only [cgiCalls, List.mem_flatMap, hone]
  constructor
  · rintro ⟨p, hp, rfl, h⟩
    exact ⟨hp, h⟩
  · rintro ⟨hp, h⟩
    exact ⟨patt, hp, rfl, h⟩

theorem any_cgiCalls (cfg : Config) (url : Bytes) :
    (cgiCalls cfg url).any (callMatches cfg) = true ↔ MatchesCgi cfg url := by
  rw [List.any_eq_true]
  constructor
  · rintro ⟨⟨patt, str⟩, hmem, hmatch⟩
    obtain ⟨hpatt, hstr⟩ := mem_cgiCalls.mp hmem
    refine ⟨patt, hpatt, ?_⟩
    split at hstr
    · rename_i habs
      subst hstr
      rwa [if_pos habs]
    · rename_i habs
      obtain ⟨front, hfront⟩ := hstr
      rw [if_neg habs]
      exact ⟨front, str, hfront, hmatch⟩
  · rintro ⟨patt, hpatt, h⟩
    by_cases habs : patt.head? = some slash
    · rw [if_pos habs] at h
      exact ⟨(patt, url), mem_cgiCalls.mpr ⟨hpatt, by rw [if_pos habs]⟩, h⟩
    · rw [if_neg habs] at h
      obtain ⟨front, sub, hfront, hmatch⟩ := h
      exact ⟨(patt, sub), mem_cgiCalls.mpr ⟨hpatt, by rw [if_neg habs]; exact ⟨front, hfront⟩⟩,
        hmatch⟩

section Scans

variable {cfg : Config} {tried : List FnmatchCall} {scan : CgiScan}

/-- A scan that was to try a list of calls. -/
structure Scanned (cfg : Config) (tried : List FnmatchCall) (scan : CgiScan) : Prop where
  isMatch : scan.isMatch = tried.any (callMatches cfg)
  calls : scan.calls <+: tried
  all_made : scan.isMatch = false → scan.calls = tried

theorem scanned_nil (cfg : Config) : Scanned cfg [] ⟨false, []⟩ where
  isMatch := rfl
  calls := List.prefix_rfl
  all_made _ := rfl

theorem Scanned.fnmatch (h : Scanned cfg tried scan) (hno : scan.isMatch = false)
    (patt str : Bytes) : Scanned cfg (tried ++ [(patt, str)]) (scan.fnmatch cfg patt str) := by
  have hcalls := h.all_made hno
  have hnone := h.isMatch.symm.trans hno
  refine ⟨?_, ?_, ?_⟩
  · simp [List.any_append, hnone, callMatches, CgiScan.fnmatch]
  · simp [CgiScan.fnmatch, hcalls]
  · intro _
    simp [CgiScan.fnmatch, hcalls]

/-- After a match nothing more is tried. -/
theorem Scanned.append (h : Scanned cfg tried scan) (hmatch : scan.isMatch = true)
    (rest : List FnmatchCall) : Scanned cfg (tried ++ rest) scan where
  isMatch := by rw [List.any_append, ← h.isMatch, hmatch, Bool.true_or]
  calls := h.calls.trans (List.prefix_append _ _)
  all_made hno := absurd hmatch (by simp [hno])

/-- The suffixes start over at the slash that `strchr` finds. -/
theorem suffixesAfterSlash_eq (s : Bytes) : suffixesAfterSlash s =
    match strchrSlash s with
    | none => []
    | some r => suffixesAfterSlash r := by
  induction s with
  | nil => rfl
  | cons b rest ih =>
    by_cases hb : b = slash
    · have hchr : strchrSlash (b :: rest) = some (b :: rest) := by
        simp [strchrSlash, hb]
      rw [hchr]
    · have hchr : strchrSlash (b :: rest) = strchrSlash rest := by
        simp [strchrSlash, hb]
      rw [hchr, suffixesAfterSlash, if_neg hb, ih]

theorem strchrSlash_head {s r : Bytes} (h : strchrSlash s = some r) :
    ∃ rest, r = slash :: rest := by
  induction s with
  | nil => cases h
  | cons b rest ih =>
    by_cases hb : b = slash
    · have hchr : strchrSlash (b :: rest) = some (b :: rest) := by simp [strchrSlash, hb]
      rw [hchr] at h
      obtain rfl := Option.some.inj h
      exact ⟨rest, by rw [hb]⟩
    · have hchr : strchrSlash (b :: rest) = strchrSlash rest := by simp [strchrSlash, hb]
      exact ih (hchr ▸ h)

/-- The inner loop from a slash on, by the number of bytes that are left. -/
theorem cgiSubPathLoop_scanned (patt : Bytes) : ∀ (n : Nat) (sub : Bytes), sub.length ≤ n →
    ∀ {tried : List FnmatchCall} {scan : CgiScan}, Scanned cfg tried scan →
    ∃ scan', cgiSubPathLoop cfg patt (some (slash :: sub)) scan = .ok scan' ∧
      Scanned cfg (tried ++ (suffixesAfterSlash (slash :: sub)).map (patt, ·)) scan' := by
  intro n
  induction n with
  | zero =>
    intro sub hn tried scan h
    obtain rfl := List.length_eq_zero_iff.mp (Nat.le_zero.mp hn)
    cases hmatch : scan.isMatch with
    | true => exact ⟨scan, by rw [cgiSubPathLoop, if_pos hmatch], h.append hmatch _⟩
    | false =>
      refine ⟨scan.fnmatch cfg patt [], ?_, h.fnmatch hmatch patt []⟩
      rw [cgiSubPathLoop, if_neg (by simp [hmatch])]
      show cgiSubPathLoop cfg patt none _ = _
      rw [cgiSubPathLoop]
  | succ n ih =>
    intro sub hn tried scan h
    cases hmatch : scan.isMatch with
    | true => exact ⟨scan, by rw [cgiSubPathLoop, if_pos hmatch], h.append hmatch _⟩
    | false =>
      have hstep : cgiSubPathLoop cfg patt (some (slash :: sub)) scan =
          cgiSubPathLoop cfg patt (strchrSlash sub) (scan.fnmatch cfg patt sub) := by
        rw [cgiSubPathLoop, if_neg (by simp [hmatch])]
      have hnext := h.fnmatch hmatch patt sub
      have hsuffixes : suffixesAfterSlash (slash :: sub) = sub :: suffixesAfterSlash sub :=
        if_pos rfl
      rw [hstep, hsuffixes, suffixesAfterSlash_eq sub]
      cases hchr : strchrSlash sub with
      | none => exact ⟨scan.fnmatch cfg patt sub, by rw [cgiSubPathLoop], hnext⟩
      | some r =>
        obtain ⟨rest, rfl⟩ := strchrSlash_head hchr
        have hle := strchrSlash_length hchr
        obtain ⟨scan', hrun, hscan'⟩ := ih rest (by simp at hle; omega) hnext
        refine ⟨scan', hrun, ?_⟩
        simpa using hscan'

theorem cgiPatternLoop_scanned (sub : Bytes) (patts : List Bytes) :
    ∀ {tried : List FnmatchCall} {scan : CgiScan}, Scanned cfg tried scan →
    ∃ scan', cgiPatternLoop cfg (slash :: sub) patts scan = .ok scan' ∧
      Scanned cfg (tried ++ patts.flatMap (pattCalls (slash :: sub))) scan' := by
  induction patts with
  | nil =>
    intro tried scan h
    exact ⟨scan, rfl, by simpa using h⟩
  | cons patt patts ih =>
    intro tried scan h
    rw [cgiPatternLoop]
    cases hmatch : scan.isMatch with
    | true => exact ⟨scan, rfl, h.append hmatch _⟩
    | false =>
      rw [if_neg (by simp), List.flatMap_cons, ← List.append_assoc]
      by_cases habs : patt.head? = some slash
      · have hcalls : pattCalls (slash :: sub) patt = [(patt, slash :: sub)] := if_pos habs
        rw [if_pos habs, hcalls]
        exact ih (h.fnmatch hmatch patt (slash :: sub))
      · obtain ⟨mid, hmid, hscan⟩ := cgiSubPathLoop_scanned patt sub.length sub le_rfl h
        have hcalls : pattCalls (slash :: sub) patt =
            (suffixesAfterSlash (slash :: sub)).map (patt, ·) := if_neg habs
        rw [if_neg habs, hmid, hcalls]
        exact ih hscan

end Scans

/-- **The answer of `config_isCGI` is whether some pattern matches, and nothing but the whole path
and what follows each of its slashes is ever compared.** Without a match every one of these is. -/
theorem cgi_patterns_tried (cfg : Config) (sub : Bytes) :
    ∃ scan, configScanCGI cfg (slash :: sub) = .ok scan ∧
      (scan.isMatch = true ↔ MatchesCgi cfg (slash :: sub)) ∧
      scan.calls <+: cgiCalls cfg (slash :: sub) ∧
      (scan.isMatch = false → scan.calls = cgiCalls cfg (slash :: sub)) ∧
      ∀ patt str, (patt, str) ∈ cgiCalls cfg (slash :: sub) ↔ patt ∈ cfg.cgiPatterns ∧
        if patt.head? = some slash then str = slash :: sub
        else ∃ front, slash :: sub = front ++ slash :: str := by
  obtain ⟨scan, hrun, h⟩ := cgiPatternLoop_scanned sub cfg.cgiPatterns (scanned_nil cfg)
  have hmatch : scan.isMatch = true ↔ MatchesCgi cfg (slash :: sub) := by
    rw [h.isMatch, ← any_cgiCalls]
    rfl
  exact ⟨scan, hrun, hmatch, h.calls, h.all_made, fun patt str => mem_cgiCalls⟩

/-- The function that the rest of the server is modelled with gives the answer of the loops. -/
theorem configIsCGI_eq_scan (cfg : Config) (sub : Bytes) :
    configIsCGI cfg (slash :: sub) =
      (configScanCGI cfg (slash :: sub)).map CgiScan.isMatch := by
  obtain ⟨scan, hrun, h⟩ := cgiPatternLoop_scanned sub cfg.cgiPatterns (scanned_nil cfg)
  obtain ⟨b, hb, hiff⟩ := configIsCGI_iff cfg sub
  have hsame : b = scan.isMatch := by
    rw [Bool.eq_iff_iff, hiff, h.isMatch, ← any_cgiCalls]
    rfl
  have hscan : configScanCGI cfg (slash :: sub) = .ok scan := hrun
  rw [hb, hscan, hsame]
  rfl

end FilemanagerHttpd.Audit
