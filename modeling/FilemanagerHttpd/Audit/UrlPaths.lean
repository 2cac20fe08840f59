import FilemanagerHttpd.Library.Components
import FilemanagerHttpd.Audit.Texts
import FilemanagerHttpd.Server.ReqHandler

/-!
# The system paths of URL paths

The filter for `..` looks at the whole decoded path. The share lookup cuts the path
only before a slash or at its end, so no component of what is appended to the share's
system path is `..`.
-/

namespace FilemanagerHttpd.Audit

open Library Server

def dotDot : Bytes := [dot, dot]

/-- What may follow the system path of a share. -/
structure Remainder (r : Bytes) : Prop where
  rooted : r = [] ∨ ∃ t, r = slash :: t
  no_dotDot : dotDot ∉ components slash r

/-- One entry of a directory other than `.` and `..`. -/
structure EntryName (name : Bytes) : Prop where
  not_empty : name ≠ []
  no_slash : slash ∉ name
  not_dot : name ≠ [dot]
  not_dotDot : name ≠ dotDot

/-- The path is that of a share, or below it. -/
def InShare (cfg : Config) (path : Path) : Prop :=
  ∃ s ∈ cfg.shares, ∃ r, Remainder r ∧
    (path = s.syspath ++ r ∨ path = [slash] ∧ s.syspath = [] ∧ r = [])

/-- The path is that of an entry of a directory in a share. -/
def EntryInShare (cfg : Config) (path : Path) : Prop :=
  ∃ s ∈ cfg.shares, ∃ r name, Remainder r ∧ EntryName name ∧
    path = s.syspath ++ r ++ slash :: name

theorem remainder_nil : Remainder [] where
  rooted := .inl rfl
  no_dotDot := by decide

theorem containsText_append (t a b : Bytes) : containsText t (a ++ t ++ b) = true := by
  induction a with
  | nil =>
    cases t with
    | nil => cases b <;> simp [containsText]
    | cons c t => simp [containsText]
  | cons c a ih => simp only [List.cons_append, containsText, ih, Bool.or_true]

/-- The filter catches `..` anywhere behind a slash. -/
theorem hasDotDot_of_component {pre post : Bytes} (h : post = [] ∨ ∃ q, post = slash :: q) :
    hasDotDot (pre ++ slash :: dotDot ++ post) = true := by
  have hlen : 3 ≤ (pre ++ slash :: dotDot ++ post).length := by simp [dotDot]; omega
  unfold hasDotDot
  rw [decide_eq_true hlen, Bool.true_and, Bool.or_eq_true]
  rcases h with rfl | ⟨q, rfl⟩
  · right
    have hdrop : (pre ++ slash :: dotDot ++ []).length - 3 = pre.length := by
      simp [dotDot]
    rw [hdrop, List.append_nil, List.drop_left]
    decide
  · left
    have htext : pre ++ slash :: dotDot ++ slash :: q = pre ++ ascii "/../" ++ q := by
      have : ascii "/../" = [slash, dot, dot, slash] := by decide
      simp [this, dotDot]
    rw [htext]
    exact containsText_append _ _ _

/-- A part of an accepted path that starts and ends at slashes has no component `..`. -/
theorem remainder_of_accepted {q pre r post : Bytes} (hq : hasDotDot q = false)
    (he : q = pre ++ r ++ post) (hr : r = [] ∨ ∃ t, r = slash :: t)
    (hpost : post = [] ∨ ∃ t, post = slash :: t) : Remainder r := by
  refine ⟨hr, fun hmem => ?_⟩
  obtain ⟨before, after, hcut, hleft, hright⟩ := between_of_mem_components hmem
  rcases hleft with rfl | ⟨p, rfl⟩
  · -- the part starts with a slash and not with a dot
    rcases hr with rfl | ⟨t, rfl⟩
    · simp [dotDot] at hcut
    · injection hcut with hb _
      exact absurd hb (by decide)
  · have hend : after ++ post = [] ∨ ∃ t, after ++ post = slash :: t := by
      rcases hright with rfl | ⟨t, rfl⟩
      · exact hpost
      · exact .inr ⟨t ++ post, rfl⟩
    have hcaught := @hasDotDot_of_component (pre ++ p) _ hend
    rw [he, hcut] at hq
    simp only [List.append_assoc, List.cons_append, List.nil_append] at hq hcaught
    rw [hq] at hcaught
    cases hcaught

theorem betterShare_eq (urlPath : Bytes) (best : Option Share) (s : Share) :
    betterShare urlPath best s = best ∨
      shareCovers urlPath s = true ∧ betterShare urlPath best s = some s := by
  unfold betterShare
  split_ifs with hlen hcov
  · exact .inl rfl
  · exact .inr ⟨hcov, rfl⟩
  · exact .inl rfl

/-- The best share is one of the table that covers the path. -/
theorem betterShare_foldl {urlPath : Bytes} {shares : List Share} {best : Option Share}
    {s : Share} (h : shares.foldl (betterShare urlPath) best = some s) :
    best = some s ∨ s ∈ shares ∧ shareCovers urlPath s = true := by
  induction shares generalizing best with
  | nil => exact .inl h
  | cons a shares ih =>
    rcases ih h with hb | ⟨hm, hc⟩
    · rcases betterShare_eq urlPath best a with he | ⟨hcov, he⟩
      · exact .inl (he ▸ hb)
      · obtain rfl : a = s := Option.some.inj (he ▸ hb)
        exact .inr ⟨.head _, hcov⟩
    · exact .inr ⟨.tail _ hm, hc⟩

/-- A covering share cuts the path before a slash or at its end. -/
theorem shareCovers_split {urlPath : Bytes} {s : Share} (h : shareCovers urlPath s = true) :
    ∃ r, urlPath = s.urlpath ++ r ∧ (r = [] ∨ ∃ t, r = slash :: t) := by
  simp only [shareCovers, Bool.and_eq_true, List.isPrefixOf_iff_prefix, Bool.or_eq_true,
    beq_iff_eq] at h
  obtain ⟨⟨r, rfl⟩, hend⟩ := h
  refine ⟨r, rfl, ?_⟩
  rcases hend with hlen | hhead
  · rw [List.length_append] at hlen
    exact .inl (List.eq_nil_of_length_eq_zero (by omega))
  · rw [List.drop_left] at hhead
    cases r with
    | nil => exact .inl rfl
    | cons b t =>
      obtain rfl : b = slash := by simpa using hhead
      exact .inr ⟨t, rfl⟩

/-- The system path is a share's, followed by what the share leaves of the URL path. -/
theorem configGetSysPathForUrlPath_split {cfg : Config} {urlPath path : Bytes}
    (h : configGetSysPathForUrlPath cfg urlPath = some path) :
    ∃ s ∈ cfg.shares, ∃ r, (if urlPath = [slash] then [] else urlPath) = s.urlpath ++ r ∧
      (r = [] ∨ ∃ t, r = slash :: t) ∧
      (path = s.syspath ++ r ∨ path = [slash] ∧ s.syspath = [] ∧ r = []) := by
  unfold configGetSysPathForUrlPath at h
  generalize hu : (if urlPath = [slash] then [] else urlPath) = u at h
  simp only at h
  split at h
  · cases h
  cases hbest : cfg.shares.foldl (betterShare u) none with
  | none => rw [hbest] at h; cases h
  | some s =>
    rw [hbest] at h
    rcases betterShare_foldl hbest with hb | ⟨hm, hc⟩
    · cases hb
    obtain ⟨r, rfl, hr⟩ := shareCovers_split hc
    refine ⟨s, hm, r, rfl, hr, ?_⟩
    simp only at h
    split at h
    · left; rw [List.drop_left] at h; exact (Option.some.inj h).symm
    · rename_i hlen
      obtain rfl : r = [] := by
        rw [List.length_append] at hlen
        exact List.eq_nil_of_length_eq_zero (by omega)
      split at h
      · exact .inr ⟨(Option.some.inj h).symm, ‹_›, rfl⟩
      · left; rw [List.append_nil]; exact (Option.some.inj h).symm

/-- The system path of an accepted URL path, or of a part of it before a slash. -/
theorem inShare_of_accepted {cfg : Config} {q urlPath post path : Bytes}
    (hq : hasDotDot q = false) (he : q = urlPath ++ post)
    (hpost : post = [] ∨ ∃ t, post = slash :: t)
    (h : configGetSysPathForUrlPath cfg urlPath = some path) : InShare cfg path := by
  obtain ⟨s, hs, r, hu, hr, hpath⟩ := configGetSysPathForUrlPath_split h
  refine ⟨s, hs, r, ?_, hpath⟩
  by_cases hroot : urlPath = [slash]
  · rw [if_pos hroot] at hu
    obtain rfl : r = [] := (List.append_eq_nil_iff.mp hu.symm).2
    exact remainder_nil
  · rw [if_neg hroot] at hu
    exact remainder_of_accepted hq (by rw [he, hu]) hr hpost

section Shares

theorem mem_of_mem_dchTrimTrailing {b c : Byte} {dch : DataChunk}
    (h : b ∈ dchTrimTrailing dch c) : b ∈ dch := by
  have hm := List.mem_reverse.mp h
  exact List.mem_reverse.mp ((List.dropWhile_sublist _).mem hm)

/-- Trimming takes nothing else away. -/
theorem mem_dchTrimTrailing {b c : Byte} {dch : DataChunk} (hb : b ≠ c) (h : b ∈ dch) :
    b ∈ dchTrimTrailing dch c := by
  rw [← List.mem_reverse, ← List.takeWhile_append_dropWhile (p := (· == c))
    (l := dch.reverse)] at h
  rcases List.mem_append.mp h with h | h
  · exact absurd (by simpa using List.mem_takeWhile_imp h) hb
  · exact List.mem_reverse.mpr h

theorem mem_of_mem_dchTrimWS {b : Byte} {dch : DataChunk} (h : b ∈ dchTrimWS dch) : b ∈ dch := by
  have hm := (List.dropWhile_sublist _).mem (List.mem_reverse.mp h)
  exact (List.dropWhile_sublist _).mem (List.mem_reverse.mp hm)

theorem dchTrimTrailing_getLast? (dch : DataChunk) (c : Byte) :
    (dchTrimTrailing dch c).getLast? ≠ some c := by
  rw [dchTrimTrailing, List.getLast?_reverse]
  intro h
  cases hd : dch.reverse.dropWhile (· == c) with
  | nil => rw [hd] at h; cases h
  | cons b rest =>
    rw [hd] at h
    have hhead := List.head_dropWhile_not (· == c) (by rw [hd]; simp)
    simp only [hd, List.head_cons] at hhead
    obtain rfl : b = c := by simpa using h
    simp at hhead

theorem dchTrimTrailing_head? (dch : DataChunk) (c : Byte) :
    dchTrimTrailing dch c = [] ∨ (dchTrimTrailing dch c).head? = dch.head? := by
  have hbegin : dchTrimTrailing dch c <+: dch := by
    have h := List.dropWhile_suffix (· == c) (l := dch.reverse)
    rwa [← List.reverse_prefix, List.reverse_reverse] at h
  obtain ⟨rest, hrest⟩ := hbegin
  rcases List.eq_nil_or_concat (dchTrimTrailing dch c) with hnil | ⟨init, b, hconcat⟩
  · exact .inl hnil
  · right
    have hne : dchTrimTrailing dch c ≠ [] := by rw [hconcat]; simp
    have hhead : (dchTrimTrailing dch c ++ rest).head? = (dchTrimTrailing dch c).head? :=
      List.head?_append_of_ne_nil _ hne
    rw [hrest] at hhead
    exact hhead.symm

/-- A share of a configuration line has no zero byte and no slash at its end. -/
theorem shareOfLine_syspath {line : Bytes} {s : Share} (h : shareOfLine line = some s) :
    nul ∉ s.syspath ∧ s.syspath.getLast? ≠ some slash := by
  unfold shareOfLine at h
  simp only at h
  split at h
  · cases h
  split at h
  · cases h
  rename_i name value hcut
  split at h
  · obtain rfl := Option.some.inj h
    refine ⟨fun hm => ?_, dchTrimTrailing_getLast? _ _⟩
    have hv := mem_of_mem_dchTrimTrailing hm
    unfold dchExtractTillChrStripWS dchExtractTillChr at hcut
    cases hs : splitAtByte equalsSign (dchTrimWS (cstr line)) with
    | none => rw [hs] at hcut; cases hcut
    | some p =>
      obtain ⟨before, rest⟩ := p
      rw [hs] at hcut
      obtain ⟨-, -, rfl⟩ : True ∧ trimTrailingWS before = name ∧ skipLeadingWS rest = value := by
        simpa using hcut
      have hr : nul ∈ rest := (List.dropWhile_sublist _).mem hv
      have hl : nul ∈ dchTrimWS (cstr line) := by
        rw [(splitAtByte_eq hs).2]; simp [hr]
      exact nul_not_mem_cstr line (mem_of_mem_dchTrimWS hl)
  · cases h

/-- The URL path of a share is empty, or starts with a slash and does not end with one. -/
def RootedUrl (urlpath : Bytes) : Prop :=
  (urlpath = [] ∨ urlpath.head? = some slash) ∧ urlpath.getLast? ≠ some slash

theorem shareOfLine_urlpath {line : Bytes} {s : Share} (h : shareOfLine line = some s) :
    RootedUrl s.urlpath := by
  unfold shareOfLine at h
  simp only at h
  split at h
  · cases h
  split at h
  · cases h
  rename_i name value _
  split at h
  · rename_i hhead
    obtain rfl := Option.some.inj h
    refine ⟨?_, dchTrimTrailing_getLast? _ _⟩
    rcases dchTrimTrailing_head? name slash with hnil | heq
    · exact .inl hnil
    · exact .inr (heq.trans hhead)
  · cases h

/-- What the configuration files make of the shares. -/
structure SharesParsed (shares : List Share) : Prop where
  no_nul : ∀ s ∈ shares, nul ∉ s.syspath
  no_slash_end : ∀ s ∈ shares, s.syspath.getLast? ≠ some slash
  rooted : ∀ s ∈ shares, RootedUrl s.urlpath
  nonempty : shares ≠ []

theorem configParseShares_parsed {htmlDir : Bytes} (hdir : nul ∉ htmlDir) (lines : List Bytes) :
    SharesParsed (configParseShares htmlDir lines) := by
  have hall : ∀ s ∈ configParseShares htmlDir lines,
      (nul ∉ s.syspath ∧ s.syspath.getLast? ≠ some slash) ∧ RootedUrl s.urlpath := by
    intro s hs
    unfold configParseShares at hs
    split at hs
    · obtain rfl := List.mem_singleton.mp hs
      refine ⟨?_, .inl rfl, nofun⟩
      constructor
      · intro hm
        rcases List.mem_append.mp hm with hm | hm
        · exact hdir hm
        · exact absurd hm (by decide)
      · have hend : (ascii "/welcome.html").getLast? = some 108 := by decide
        rw [List.getLast?_append, hend, Option.some_or]
        decide
    · obtain ⟨line, -, hline⟩ := List.mem_filterMap.mp hs
      exact ⟨shareOfLine_syspath hline, shareOfLine_urlpath hline⟩
  refine ⟨fun s hs => (hall s hs).1.1, fun s hs => (hall s hs).1.2, fun s hs => (hall s hs).2, ?_⟩
  unfold configParseShares
  split
  · exact List.cons_ne_nil _ _
  · rename_i hne
    exact hne

end Shares

end FilemanagerHttpd.Audit
