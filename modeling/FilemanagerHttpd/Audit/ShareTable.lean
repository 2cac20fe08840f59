import FilemanagerHttpd.Audit.UrlPaths
import FilemanagerHttpd.Library.Conduct
import FilemanagerHttpd.Server.Environment

/-!
# The share table

A URL path belongs to the longest share that covers it. A path that no share covers lists
the next components of the shares below it. Both functions measure the path in an `int`.
-/

namespace FilemanagerHttpd.Audit

open Library Server

/-- The share's URL path is a prefix that ends at the end of the path or before a slash. -/
def Covers (s : Share) (u : Bytes) : Prop :=
  ∃ rest, u = s.urlpath ++ rest ∧ (rest = [] ∨ ∃ t, rest = slash :: t)

/-- The first of the longest shares that cover a path. -/
structure BestShare (shares : List Share) (u : Bytes) (s : Share) : Prop where
  covers : Covers s u
  longest : ∀ t ∈ shares, Covers t u → t.urlpath.length ≤ s.urlpath.length
  first : ∃ before after, shares = before ++ s :: after ∧
    ∀ t ∈ before, Covers t u → t.urlpath.length < s.urlpath.length

section Lookup

theorem shareCovers_iff (u : Bytes) (s : Share) : shareCovers u s = true ↔ Covers s u := by
  constructor
  · intro h
    obtain ⟨rest, hu, hrest⟩ := shareCovers_split h
    exact ⟨rest, hu, hrest⟩
  · intro h
    obtain ⟨rest, rfl, hrest⟩ := h
    have hbegin : s.urlpath.isPrefixOf (s.urlpath ++ rest) = true :=
      List.isPrefixOf_iff_prefix.mpr (List.prefix_append _ _)
    rw [shareCovers, hbegin, Bool.true_and, List.drop_left]
    rcases hrest with rfl | ⟨t, rfl⟩
    · simp
    · simp

theorem Covers.length_le {s : Share} {u : Bytes} (h : Covers s u) :
    s.urlpath.length ≤ u.length := by
  obtain ⟨rest, rfl, -⟩ := h
  rw [List.length_append]
  omega

/-- Shares of one length that cover the same path have the same URL path. -/
theorem Covers.urlpath_eq {s t : Share} {u : Bytes} (hs : Covers s u) (ht : Covers t u)
    (hlen : s.urlpath.length = t.urlpath.length) : s.urlpath = t.urlpath := by
  obtain ⟨rest, rfl, -⟩ := hs
  obtain ⟨rest', he, -⟩ := ht
  exact (List.append_inj he hlen).1

theorem betterShare_of_not_covers {u : Bytes} {s : Share} (h : ¬ Covers s u)
    (best : Option Share) : betterShare u best s = best := by
  have hno : shareCovers u s = false := by
    rw [Bool.eq_false_iff]
    intro hc
    exact h ((shareCovers_iff u s).mp hc)
  simp [betterShare, hno]

theorem betterShare_of_covers {u : Bytes} {s : Share} (h : Covers s u) (best : Option Share) :
    betterShare u best s =
      match best with
      | none => some s
      | some b => if s.urlpath.length ≤ b.urlpath.length then some b else some s := by
  have hlen := h.length_le
  have hc := (shareCovers_iff u s).mpr h
  unfold betterShare
  rw [hc]
  cases best with
  | none =>
    have hno : ¬ u.length < s.urlpath.length := by omega
    simp [hno]
  | some b =>
    have hno : ¬ u.length < s.urlpath.length := by omega
    by_cases hb : s.urlpath.length ≤ b.urlpath.length
    · simp [hb]
    · simp [hno, hb]

/-- What the loop over the shares has found. -/
def BestSoFar (shares : List Share) (u : Bytes) : Option Share → Prop
  | none => ∀ s ∈ shares, ¬ Covers s u
  | some s => BestShare shares u s

/-- One more share. -/
theorem betterShare_best {shares : List Share} {u : Bytes} {best : Option Share}
    (h : BestSoFar shares u best) (s : Share) :
    BestSoFar (shares ++ [s]) u (betterShare u best s) := by
  by_cases hc : Covers s u
  · rw [betterShare_of_covers hc]
    cases best with
    | none =>
      refine ⟨hc, ?_, shares, [], rfl, fun t ht hcov => absurd hcov (h t ht)⟩
      intro t ht hcov
      rcases List.mem_append.mp ht with ht | ht
      · exact absurd hcov (h t ht)
      · rw [List.mem_singleton.mp ht]
    | some b =>
      have hb : BestShare shares u b := h
      obtain ⟨before, after, hsplit, hfirst⟩ := hb.first
      by_cases hle : s.urlpath.length ≤ b.urlpath.length
      · simp only [if_pos hle]
        refine ⟨hb.covers, ?_, before, after ++ [s], by rw [hsplit]; simp, hfirst⟩
        intro t ht hcov
        rcases List.mem_append.mp ht with ht | ht
        · exact hb.longest t ht hcov
        · rw [List.mem_singleton.mp ht]
          exact hle
      · simp only [if_neg hle]
        refine ⟨hc, ?_, shares, [], rfl, ?_⟩
        · intro t ht hcov
          rcases List.mem_append.mp ht with ht | ht
          · have := hb.longest t ht hcov
            omega
          · rw [List.mem_singleton.mp ht]
        · intro t ht hcov
          have := hb.longest t ht hcov
          omega
  · rw [betterShare_of_not_covers hc]
    cases best with
    | none =>
      intro t ht
      rcases List.mem_append.mp ht with ht | ht
      · exact h t ht
      · rw [List.mem_singleton.mp ht]
        exact hc
    | some b =>
      have hb : BestShare shares u b := h
      obtain ⟨before, after, hsplit, hfirst⟩ := hb.first
      refine ⟨hb.covers, ?_, before, after ++ [s], by rw [hsplit]; simp, hfirst⟩
      intro t ht hcov
      rcases List.mem_append.mp ht with ht | ht
      · exact hb.longest t ht hcov
      · rw [List.mem_singleton.mp ht] at hcov
        exact absurd hcov hc

/-- The loop over the shares finds the best of them. -/
theorem foldl_betterShare (shares : List Share) (u : Bytes) :
    BestSoFar shares u (shares.foldl (betterShare u) none) := by
  induction shares using List.reverseRecOn with
  | nil => exact fun s hs => nomatch hs
  | append_singleton shares s ih =>
    rw [List.foldl_append]
    exact betterShare_best ih s

theorem foldl_betterShare_none (shares : List Share) (u : Bytes) :
    shares.foldl (betterShare u) none = none ↔ ∀ s ∈ shares, ¬ Covers s u := by
  have hbest := foldl_betterShare shares u
  cases hfound : shares.foldl (betterShare u) none with
  | none =>
    rw [hfound] at hbest
    exact ⟨fun _ => hbest, fun _ => rfl⟩
  | some s =>
    rw [hfound] at hbest
    have hb : BestShare shares u s := hbest
    obtain ⟨before, after, hsplit, -⟩ := hb.first
    constructor
    · intro h
      cases h
    · intro h
      exact absurd hb.covers (h s (by rw [hsplit]; simp))

/-- When no two shares have one URL path, the order of the table does not matter. -/
theorem foldl_betterShare_perm {shares shares' : List Share} (hperm : shares'.Perm shares)
    (hnodup : (shares.map (·.urlpath)).Nodup) (u : Bytes) :
    shares'.foldl (betterShare u) none = shares.foldl (betterShare u) none := by
  have hbest := foldl_betterShare shares u
  have hbest' := foldl_betterShare shares' u
  cases hfound : shares.foldl (betterShare u) none with
  | none =>
    rw [foldl_betterShare_none] at hfound ⊢
    intro s hs
    exact hfound s (hperm.mem_iff.mp hs)
  | some s =>
    rw [hfound] at hbest
    have hb : BestShare shares u s := hbest
    cases hfound' : shares'.foldl (betterShare u) none with
    | none =>
      rw [foldl_betterShare_none] at hfound'
      obtain ⟨before, after, hsplit, -⟩ := hb.first
      have hs : s ∈ shares := by rw [hsplit]; simp
      exact absurd hb.covers (hfound' s (hperm.mem_iff.mpr hs))
    | some s' =>
      rw [hfound'] at hbest'
      have hb' : BestShare shares' u s' := hbest'
      obtain ⟨before, after, hsplit, -⟩ := hb.first
      obtain ⟨before', after', hsplit', -⟩ := hb'.first
      have hs : s ∈ shares := by rw [hsplit]; simp
      have hs' : s' ∈ shares := hperm.mem_iff.mp (by rw [hsplit']; simp)
      have hle := hb.longest s' hs' hb'.covers
      have hge := hb'.longest s (hperm.mem_iff.mpr hs) hb.covers
      have hurl := hb'.covers.urlpath_eq hb.covers (by omega)
      rw [List.inj_on_of_nodup_map hnodup hs' hs hurl]

/-- The path that is looked up; a single slash stands for the empty path. -/
def lookupText (urlPath : Bytes) : Bytes := if urlPath = [slash] then [] else urlPath

/-- The lookup finds the system path of the best share, followed by the rest of the path. -/
structure ShareLookup (cfg : Config) (urlPath : Bytes) : Prop where
  unknown : configGetSysPathForUrlPath cfg urlPath = none ↔
    ∀ s ∈ cfg.shares, ¬ Covers s (lookupText urlPath)
  found : (∃ s ∈ cfg.shares, Covers s (lookupText urlPath)) →
    ∃ s rest, BestShare cfg.shares (lookupText urlPath) s ∧
      lookupText urlPath = s.urlpath ++ rest ∧
      configGetSysPathForUrlPath cfg urlPath =
        some (if s.syspath = [] ∧ rest = [] then [slash] else s.syspath ++ rest)
  unordered : ∀ shares', shares'.Perm cfg.shares → (cfg.shares.map (·.urlpath)).Nodup →
    configGetSysPathForUrlPath { cfg with shares := shares' } urlPath =
      configGetSysPathForUrlPath cfg urlPath

/-- The lookup, when the length of the path fits in an `int`. -/
theorem configGetSysPathForUrlPath_eq (cfg : Config) {urlPath : Bytes}
    (hlen : urlPath.length < 2 ^ 31) :
    configGetSysPathForUrlPath cfg urlPath =
      (cfg.shares.foldl (betterShare (lookupText urlPath)) none).map fun best =>
        let rest := (lookupText urlPath).drop best.urlpath.length
        if best.syspath = [] ∧ rest = [] then [slash] else best.syspath ++ rest := by
  have hfits : ¬ 2 ^ 31 ≤ (lookupText urlPath).length := by
    unfold lookupText
    split
    · simp
    · omega
  unfold configGetSysPathForUrlPath
  unfold lookupText at hfits ⊢
  generalize (if urlPath = [slash] then [] else urlPath) = u at hfits ⊢
  dsimp only
  rw [if_neg hfits]
  cases hbest : cfg.shares.foldl (betterShare u) none with
  | none => rfl
  | some best =>
    show (if best.urlpath.length < u.length then _ else _) =
      some (if best.syspath = [] ∧ u.drop best.urlpath.length = [] then [slash] else _)
    by_cases hlt : best.urlpath.length < u.length
    · have hne : u.drop best.urlpath.length ≠ [] := by
        intro hnil
        have := List.drop_eq_nil_iff.mp hnil
        omega
      rw [if_pos hlt, if_neg fun h => hne h.2]
    · have hnil : u.drop best.urlpath.length = [] := List.drop_eq_nil_iff.mpr (by omega)
      rw [if_neg hlt, hnil, List.append_nil]
      by_cases hsys : best.syspath = []
      · rw [if_pos hsys, if_pos ⟨hsys, rfl⟩]
      · rw [if_neg hsys, if_neg fun h => hsys h.1]

theorem configGetSysPathForUrlPath_too_long (cfg : Config) {urlPath : Bytes}
    (hlen : 2 ^ 31 ≤ urlPath.length) : configGetSysPathForUrlPath cfg urlPath = none := by
  have hne : urlPath ≠ [slash] := by
    intro h
    rw [h] at hlen
    simp at hlen
  unfold configGetSysPathForUrlPath
  rw [if_neg hne]
  exact if_pos hlen

/-- The share table is looked up as it says, for the paths whose length fits in an `int`, and
for those that no share covers. -/
theorem share_lookup_iff (cfg : Config) (urlPath : Bytes) :
    ShareLookup cfg urlPath ↔
      urlPath.length < 2 ^ 31 ∨ ∀ s ∈ cfg.shares, ¬ Covers s (lookupText urlPath) := by
  constructor
  · intro h
    by_cases hlen : urlPath.length < 2 ^ 31
    · exact .inl hlen
    · exact .inr (h.unknown.mp (configGetSysPathForUrlPath_too_long cfg (by omega)))
  · intro h
    by_cases hlen : urlPath.length < 2 ^ 31
    · have heq := configGetSysPathForUrlPath_eq cfg hlen
      constructor
      · rw [heq, Option.map_eq_none_iff, foldl_betterShare_none]
      · intro hcov
        cases hfound : cfg.shares.foldl (betterShare (lookupText urlPath)) none with
        | none =>
          obtain ⟨s, hs, hc⟩ := hcov
          exact absurd hc ((foldl_betterShare_none _ _).mp hfound s hs)
        | some s =>
          have hbest := foldl_betterShare cfg.shares (lookupText urlPath)
          rw [hfound] at hbest
          have hb : BestShare cfg.shares (lookupText urlPath) s := hbest
          obtain ⟨rest, hrest, -⟩ := hb.covers
          refine ⟨s, rest, hb, hrest, ?_⟩
          rw [heq, hfound, Option.map_some]
          dsimp only
          rw [hrest, List.drop_left]
      · intro shares' hperm hnodup
        rw [heq, configGetSysPathForUrlPath_eq _ hlen, foldl_betterShare_perm hperm hnodup]
    · have hnone := h.resolve_left hlen
      have heq : ∀ c : Config, configGetSysPathForUrlPath c urlPath = none := fun c =>
        configGetSysPathForUrlPath_too_long c (by omega)
      constructor
      · exact ⟨fun _ => hnone, fun _ => heq cfg⟩
      · intro hcov
        obtain ⟨s, hs, hc⟩ := hcov
        exact absurd hc (hnone s hs)
      · intro shares' _ _
        rw [heq, heq]

/-- A share for everything. -/
def rootShare : Config := { bareConfig with shares := [⟨[], ascii "/srv"⟩] }

/-- A path of 2^31 bytes is not found in a table that covers every path. -/
theorem share_lookup_long :
    ¬ ShareLookup rootShare (slash :: List.replicate (2 ^ 31) 97) := by
  intro h
  have hlen : 2 ^ 31 ≤ (slash :: List.replicate (2 ^ 31) (97 : Byte)).length := by
    rw [List.length_cons, List.length_replicate]
    omega
  have htext : lookupText (slash :: List.replicate (2 ^ 31) 97) =
      slash :: List.replicate (2 ^ 31) 97 := by
    apply if_neg
    intro hsingle
    rw [hsingle] at hlen
    simp at hlen
  have hnone := h.unknown.mp (configGetSysPathForUrlPath_too_long _ hlen)
  apply hnone ⟨[], ascii "/srv"⟩ List.mem_cons_self
  exact ⟨_, htext, .inr ⟨_, rfl⟩⟩

end Lookup

end FilemanagerHttpd.Audit
