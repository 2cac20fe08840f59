import FilemanagerHttpd.Audit.BufferBytes
import FilemanagerHttpd.Server.DirTree
import FilemanagerHttpd.Server.FileManager

/-!
# Removing a directory tree

`del_recursive` removes what is below a path and then what is at the path. It ends at the first
error, which is the one that it returns.
-/

namespace FilemanagerHttpd.Audit

open Library Server

section Paths

variable {dir dir' : Path} {name name' : Bytes}

/-- A path with a slash at its end. -/
def slashed (dir : Path) : Path := if dir.getLast? = some slash then dir else dir ++ [slash]

theorem joinPath_eq (dir : Path) (name : Bytes) : joinPath dir name = slashed dir ++ name := rfl

theorem slashed_last (dir : Path) : (slashed dir).getLast? = some slash := by
  rw [slashed]
  split
  · assumption
  · rw [List.getLast?_append, List.getLast?_singleton]
    rfl

/-- The name is what is behind the last slash. -/
theorem joinPath_inj (hname : slash ∉ name) (hname' : slash ∉ name')
    (h : joinPath dir name = joinPath dir' name') : slashed dir = slashed dir' ∧ name = name' := by
  have hback : ∀ (d n : Bytes), slash ∉ n →
      (joinPath d n).reverse.takeWhile (· != slash) = n.reverse := by
    intro d n hn
    have hfront : ∀ b ∈ n.reverse, (b != slash) = true := fun b hb => by
      simpa using fun he : b = slash => hn (he ▸ List.mem_reverse.mp hb)
    obtain ⟨front, hd⟩ := List.getLast?_eq_some_iff.mp (slashed_last d)
    rw [joinPath_eq, hd, List.reverse_append, List.takeWhile_append_of_pos hfront,
      List.reverse_append]
    simp
  have hn : name = name' := by
    rw [← List.reverse_inj, ← hback dir name hname, ← hback dir' name' hname', h]
  subst hn
  exact ⟨List.append_cancel_right h, rfl⟩

variable {x : DirTree} {names names' : List Bytes}

theorem pathAt_snoc (x : DirTree) (names : List Bytes) (name : Bytes) :
    x.pathAt (names ++ [name]) = joinPath (x.pathAt names) name := by
  rw [DirTree.pathAt, List.foldl_append]
  rfl

theorem length_le_slashed (dir : Path) : dir.length ≤ (slashed dir).length := by
  rw [slashed]
  split
  · exact le_refl _
  · rw [List.length_append]
    omega

theorem path_length_le (x : DirTree) (names : List Bytes) :
    x.path.length ≤ (x.pathAt names).length := by
  induction names using List.reverseRecOn with
  | nil => exact le_refl _
  | append_singleton names name ih =>
    have hle := length_le_slashed (x.pathAt names)
    rw [pathAt_snoc, joinPath_eq, List.length_append]
    omega

/-- A path below the first one ends in a name. -/
theorem pathAt_last (h : OrdinaryName name) :
    (x.pathAt (names ++ [name])).getLast? ≠ some slash := by
  rw [pathAt_snoc, joinPath_eq, List.getLast?_append]
  cases hlast : name.getLast? with
  | none => exact absurd (List.getLast?_eq_none_iff.mp hlast) h.1
  | some b =>
    rintro hb
    obtain rfl : b = slash := Option.some.inj hb
    exact h.2.1 (List.mem_of_getLast? hlast)

/-- The slash behind a path does not hide where the path ends. -/
theorem slashed_inj (hnames : ∀ name ∈ names, OrdinaryName name)
    (hnames' : ∀ name ∈ names', OrdinaryName name)
    (h : slashed (x.pathAt names) = slashed (x.pathAt names')) :
    x.pathAt names = x.pathAt names' := by
  -- only the first path can end in a slash, and then no other one is shorter
  have hfirst : ∀ ns, (∀ name ∈ ns, OrdinaryName name) →
      (x.pathAt ns).getLast? = some slash → ns = [] := by
    intro ns hns hlast
    induction ns using List.reverseRecOn with
    | nil => rfl
    | append_singleton ns name _ => exact absurd hlast (pathAt_last (hns name (by simp)))
  have hmixed : ∀ ns ns', (∀ name ∈ ns, OrdinaryName name) →
      (x.pathAt ns).getLast? = some slash → (x.pathAt ns').getLast? ≠ some slash →
      slashed (x.pathAt ns) ≠ slashed (x.pathAt ns') := by
    intro ns ns' hns hlast hlast' he
    rw [slashed, slashed, if_pos hlast, if_neg hlast', hfirst ns hns hlast] at he
    have hlen := congrArg List.length he
    have hle := path_length_le x ns'
    rw [List.length_append, List.length_singleton] at hlen
    have hpath : (x.pathAt []).length = x.path.length := rfl
    omega
  by_cases hlast : (x.pathAt names).getLast? = some slash
  · by_cases hlast' : (x.pathAt names').getLast? = some slash
    · rwa [slashed, slashed, if_pos hlast, if_pos hlast'] at h
    · exact absurd h (hmixed _ _ hnames hlast hlast')
  · by_cases hlast' : (x.pathAt names').getLast? = some slash
    · exact absurd h.symm (hmixed _ _ hnames' hlast' hlast)
    · rw [slashed, slashed, if_neg hlast, if_neg hlast'] at h
      exact List.append_cancel_right h

/-- A path leads to one place. -/
theorem pathAt_inj (hnames : ∀ name ∈ names, OrdinaryName name)
    (hnames' : ∀ name ∈ names', OrdinaryName name) (h : x.pathAt names = x.pathAt names') :
    names = names' := by
  have hlonger : ∀ ns name, OrdinaryName name → x.pathAt (ns ++ [name]) ≠ x.pathAt [] := by
    intro ns name hname he
    have hlen := congrArg List.length he
    have hle := path_length_le x ns
    have hle' := length_le_slashed (x.pathAt ns)
    have hpos := List.length_pos_of_ne_nil hname.1
    have hpath : (x.pathAt []).length = x.path.length := rfl
    rw [pathAt_snoc, joinPath_eq, List.length_append] at hlen
    omega
  induction names using List.reverseRecOn generalizing names' with
  | nil =>
    cases names' using List.reverseRecOn with
    | nil => rfl
    | append_singleton ns name => exact absurd h.symm (hlonger ns name (hnames' name (by simp)))
  | append_singleton ns name ih =>
    cases names' using List.reverseRecOn with
    | nil => exact absurd h (hlonger ns name (hnames name (by simp)))
    | append_singleton ns' name' =>
      rw [pathAt_snoc, pathAt_snoc] at h
      obtain ⟨hdir, rfl⟩ := joinPath_inj (hnames name (by simp)).2.1 (hnames' name' (by simp)).2.1 h
      have hns : ∀ n ∈ ns, OrdinaryName n := fun n hn => hnames n (List.mem_append_left _ hn)
      have hns' : ∀ n ∈ ns', OrdinaryName n := fun n hn => hnames' n (List.mem_append_left _ hn)
      rw [ih hns hns' (slashed_inj hns hns' hdir)]

end Paths

section Calls

variable {ω α : Type} {x : DirTree} {s : TreeState ω} {names : List Bytes}
  {Q : α → TreeState ω → Prop}

/-- The place that a path leads to. -/
theorem reaches_eq {names' : List Bytes} (h : x.Reaches s (x.pathAt names) names)
    (h' : x.Reaches s (x.pathAt names) names') : names' = names :=
  pathAt_inj h'.ordinary h.ordinary h'.path_eq.symm

theorem wp_unlink {next : Option Errno → Prog α} (h : x.Reaches s (x.pathAt names) names)
    (hnext : ∀ r t, x.Unlinks s names r t →
      wp x.world x.duty (next r) Q (t.record ⟨.unlink (x.pathAt names), r⟩)) :
    wp x.world x.duty (Program.call (S := sys) (.unlink (x.pathAt names)) next) Q s := by
  refine ⟨⟨names, h⟩, ?_⟩
  rintro r _ ⟨t, hanswer, rfl⟩
  rcases hanswer with ⟨names', hreach, hunlink⟩ | hno
  · rw [reaches_eq h hreach] at hunlink
    exact hnext r t hunlink
  · exact absurd h (hno names)

theorem wp_opendir {next : Except Errno Fd → Prog α} (h : x.Reaches s (x.pathAt names) names)
    (hdir : s.kinds names = some .dir) (hnext : ∀ r t, x.Opens s names r t →
      wp x.world x.duty (next r) Q (t.record ⟨.opendir (x.pathAt names), r⟩)) :
    wp x.world x.duty (Program.call (S := sys) (.opendir (x.pathAt names)) next) Q s := by
  refine ⟨⟨names, h, hdir⟩, ?_⟩
  rintro r _ ⟨t, hanswer, rfl⟩
  rcases hanswer with ⟨names', hreach, -, hopen⟩ | hno
  · rw [reaches_eq h hreach] at hopen
    exact hnext r t hopen
  · exact absurd hdir (hno names h)

theorem wp_rmdir {next : Option Errno → Prog α} (h : x.Reaches s (x.pathAt names) names)
    (hdir : s.kinds names = some .dir) (hnext : ∀ r t, x.Removes s names r t →
      wp x.world x.duty (next r) Q (t.record ⟨.rmdir (x.pathAt names), r⟩)) :
    wp x.world x.duty (Program.call (S := sys) (.rmdir (x.pathAt names)) next) Q s := by
  refine ⟨⟨names, h, hdir⟩, ?_⟩
  rintro r _ ⟨t, hanswer, rfl⟩
  rcases hanswer with ⟨names', hreach, -, hremove⟩ | hno
  · rw [reaches_eq h hreach] at hremove
    exact hnext r t hremove
  · exact absurd hdir (hno names h)

theorem wp_readdir {dir : Fd} {left : List Bytes} {next : Option Bytes → Prog α}
    (h : s.streams dir = some left) (hnext : wp x.world x.duty (next left.head?) Q
      ((s.setStream dir (some left.tail)).record ⟨.readdir dir, left.head?⟩)) :
    wp x.world x.duty (Program.call (S := sys) (.readdir dir) next) Q s := by
  refine ⟨⟨left, h⟩, ?_⟩
  rintro r _ ⟨t, hanswer, rfl⟩
  rcases hanswer with ⟨left', hleft, rfl, rfl⟩ | hno
  · obtain rfl : left = left' := Option.some.inj (h.symm.trans hleft)
    exact hnext
  · rw [h] at hno
    cases hno

theorem wp_closedir {dir : Fd} {next : Unit → Prog α} (hnext : wp x.world x.duty (next ()) Q
      ((s.setStream dir none).record ⟨.closedir dir, ()⟩)) :
    wp x.world x.duty (Program.call (S := sys) (.closedir dir) next) Q s := by
  refine ⟨trivial, ?_⟩
  rintro r _ ⟨t, rfl, rfl⟩
  exact hnext

theorem failures_record (e : Event) (s : TreeState ω) :
    failures (s.record e).history = failures s.history ++ e.failure.toList := by
  show failures (e :: s.history) = _
  rw [failures, List.reverse_cons, List.filterMap_append]
  cases h : e.failure <;> simp [failures, h]

end Calls

section Trees

variable {ω : Type} {x : DirTree} {kinds : Nodes} {names : List Bytes}

/-- Nodes that are left of the tree. -/
structure LeftOf (x : DirTree) (kinds : Nodes) : Prop where
  rooted : kinds.Rooted
  initial : ∀ names, kinds names = x.kinds names ∨ kinds names = none

/-- What has something below it is a directory. -/
theorem rooted_below (h : kinds.Rooted) {more : List Bytes} (hmore : more ≠ [])
    (hkind : kinds (names ++ more) ≠ none) : kinds names = some .dir := by
  induction more using List.reverseRecOn with
  | nil => exact absurd rfl hmore
  | append_singleton more name ih =>
    rw [← List.append_assoc] at hkind
    have hdir := (h (names ++ more) name hkind).1
    by_cases hnil : more = []
    · rwa [hnil, List.append_nil] at hdir
    · exact ih hnil (by rw [hdir]; exact Option.some_ne_none _)

/-- A name that a directory cannot hold has nothing below it. -/
theorem rooted_ordinary (h : kinds.Rooted) {name : Bytes} {more : List Bytes}
    (hkind : kinds (names ++ name :: more) ≠ none) : OrdinaryName name := by
  have happend : names ++ name :: more = (names ++ [name]) ++ more := by simp
  rw [happend] at hkind
  have hname : kinds (names ++ [name]) ≠ none := by
    by_cases hnil : more = []
    · rwa [hnil, List.append_nil] at hkind
    · rw [rooted_below h hnil hkind]
      exact Option.some_ne_none _
  exact (h names name hname).2

theorem leftOf_without (h : LeftOf x kinds) (hempty : ∀ name, kinds (names ++ [name]) = none) :
    LeftOf x (Function.update kinds names none) := by
  constructor
  · intro dir name hkind
    rw [Function.update_apply] at hkind
    split at hkind
    · exact absurd rfl hkind
    · obtain ⟨hdir, hname⟩ := h.rooted dir name hkind
      refine ⟨?_, hname⟩
      rw [Function.update_of_ne, hdir]
      rintro rfl
      exact hkind (hempty name)
  · intro p
    rw [Function.update_apply]
    split
    · exact .inr rfl
    · exact h.initial p

/-- What has been returned, as a list of errors. -/
def errorsOf : Except Errno Unit → List Errno
  | .ok () => []
  | .error e => [e]

/-- The state after the removal of what is at some place, and the result. -/
structure Removed (x : DirTree) (names : List Bytes) (s : TreeState ω) (a : Except Errno Unit)
    (t : TreeState ω) : Prop where
  below : ∀ p, t.kinds p = s.kinds p ∨ (names <+: p ∧ t.kinds p = none)
  left : LeftOf x t.kinds
  gone : a = .ok () → ∀ p, names <+: p → t.kinds p = none
  kept : ∀ e, a = .error e → t.kinds names ≠ none
  streams : t.streams = s.streams
  outside : t.outside = s.outside
  failures : failures t.history = failures s.history ++ errorsOf a

/-- A directory that is being emptied: the entries that are not left to be read are gone. -/
structure Emptying (x : DirTree) (names : List Bytes) (dir : Fd) (s : TreeState ω)
    (left : List Bytes) (u : TreeState ω) : Prop where
  below : ∀ p, u.kinds p = s.kinds p ∨ (names <+: p ∧ p ≠ names ∧ u.kinds p = none)
  leftOf : LeftOf x u.kinds
  streams : u.streams = Function.update s.streams dir (some left)
  outside : u.outside = s.outside
  failures : failures u.history = failures s.history
  entries : ∀ name ∈ left, name = [dot] ∨ name = [dot, dot] ∨ OrdinaryName name
  gone : ∀ name, OrdinaryName name → name ∉ left → ∀ p, names ++ [name] <+: p → u.kinds p = none

/-- The state when the loop over the entries has ended. -/
structure Emptied (x : DirTree) (names : List Bytes) (dir : Fd) (s : TreeState ω)
    (a : Except Errno Unit) (u : TreeState ω) : Prop where
  below : ∀ p, u.kinds p = s.kinds p ∨ (names <+: p ∧ p ≠ names ∧ u.kinds p = none)
  leftOf : LeftOf x u.kinds
  streams : ∃ left, u.streams = Function.update s.streams dir (some left)
  outside : u.outside = s.outside
  failures : failures u.history = failures s.history ++ errorsOf a
  gone : a = .ok () → ∀ p, names <+: p → p ≠ names → u.kinds p = none

variable {dir : Fd} {s u t : TreeState ω}

/-- What is at an entry of a directory or below it is below the directory. -/
theorem below_entry {name : Bytes} {p : List Bytes} (h : names ++ [name] <+: p) :
    names <+: p ∧ p ≠ names := by
  refine ⟨(List.prefix_append _ _).trans h, ?_⟩
  rintro rfl
  have hlen := h.length_le
  rw [List.length_append, List.length_singleton] at hlen
  omega

/-- A directory in a directory that is being emptied is reached as before. -/
theorem emptying_reaches {name : Bytes}
    (hs : x.Reaches s (x.pathAt names) names) (hdir : s.kinds names = some .dir)
    (hbelow : ∀ p, u.kinds p = s.kinds p ∨ (names <+: p ∧ p ≠ names ∧ u.kinds p = none))
    (hname : OrdinaryName name) :
    x.Reaches u (x.pathAt (names ++ [name])) (names ++ [name]) := by
  have hkept : ∀ p, p <+: names → u.kinds p = s.kinds p := by
    intro p hp
    rcases hbelow p with h | ⟨hunder, hne, -⟩
    · exact h
    · exact absurd (hp.eq_of_length_le hunder.length_le) hne
  refine ⟨rfl, fun n hn => ?_, fun p hp hne => ?_⟩
  · rcases List.mem_append.mp hn with hn | hn
    · exact hs.ordinary n hn
    · rwa [List.mem_singleton.mp hn]
  · rcases List.prefix_concat_iff.mp hp with rfl | hp
    · exact absurd rfl hne
    · rw [hkept p hp]
      by_cases he : p = names
      · rw [he, hdir]
      · exact hs.through p hp he

/-- An entry that has been removed, with what was below it. -/
theorem emptying_removed {left : List Bytes} {name : Bytes}
    (hu : Emptying x names dir s left u) {rest : List Bytes} (hleft : left = name :: rest)
    {e : Event} (hrem : Removed x (names ++ [name])
      ((u.setStream dir (some rest)).record e) (.ok ()) t) (he : e.failure = none) :
    Emptying x names dir s rest t := by
  have hbelow : ∀ p, t.kinds p = u.kinds p ∨ (names ++ [name] <+: p ∧ t.kinds p = none) :=
    hrem.below
  constructor
  · intro p
    rcases hbelow p with h | ⟨hunder, hnone⟩
    · rw [h]
      exact hu.below p
    · exact .inr ⟨(below_entry hunder).1, (below_entry hunder).2, hnone⟩
  · exact hrem.left
  · rw [hrem.streams]
    show Function.update u.streams dir (some rest) = _
    rw [hu.streams, Function.update_idem]
  · rw [hrem.outside]
    exact hu.outside
  · rw [hrem.failures, failures_record, he]
    show failures u.history ++ [] ++ [] = _
    rw [List.append_nil, List.append_nil]
    exact hu.failures
  · intro n hn
    exact hu.entries n (by rw [hleft]; exact List.mem_cons_of_mem _ hn)
  · intro n hn hnot p hp
    by_cases hsame : n = name
    · rw [hsame] at hp
      exact hrem.gone rfl p hp
    · have hgone : u.kinds p = none := by
        refine hu.gone n hn ?_ p hp
        rw [hleft]
        exact fun hmem => (List.mem_cons.mp hmem).elim hsame hnot
      rcases hbelow p with h | ⟨-, h⟩
      · rw [h, hgone]
      · exact h

/-- A name for the directory itself or for its parent is left out. -/
theorem emptying_skipped {left : List Bytes} {name : Bytes} {rest : List Bytes}
    (hu : Emptying x names dir s left u) (hleft : left = name :: rest)
    (hdot : name = [dot] ∨ name = [dot, dot]) {e : Event} (he : e.failure = none) :
    Emptying x names dir s rest ((u.setStream dir (some rest)).record e) := by
  constructor
  · exact hu.below
  · exact hu.leftOf
  · show Function.update u.streams dir (some rest) = _
    rw [hu.streams, Function.update_idem]
  · exact hu.outside
  · rw [failures_record, he]
    show failures u.history ++ [] = _
    rw [List.append_nil]
    exact hu.failures
  · intro n hn
    exact hu.entries n (by rw [hleft]; exact List.mem_cons_of_mem _ hn)
  · intro n hn hnot p hp
    refine hu.gone n hn ?_ p hp
    rw [hleft]
    intro hmem
    rcases List.mem_cons.mp hmem with rfl | hmem
    · rcases hdot with hdot | hdot
      · exact hn.2.2.2.1 hdot
      · exact hn.2.2.2.2 hdot
    · exact hnot hmem

/-- A directory that has been emptied is reached as before. -/
theorem removed_reaches (hs : x.Reaches s (x.pathAt names) names)
    (hbelow : ∀ p, u.kinds p = s.kinds p ∨ (names <+: p ∧ p ≠ names ∧ u.kinds p = none)) :
    x.Reaches u (x.pathAt names) names := by
  refine ⟨rfl, hs.ordinary, fun p hp hne => ?_⟩
  rcases hbelow p with h | ⟨hunder, -, -⟩
  · rw [h]
    exact hs.through p hp hne
  · exact absurd (hp.eq_of_length_le hunder.length_le) hne

/-- A call before the removal that has not failed. -/
theorem removed_record {a : Except Errno Unit} {e : Event} (h : Removed x names (s.record e) a t)
    (he : e.failure = none) : Removed x names s a t where
  below := h.below
  left := h.left
  gone := h.gone
  kept := h.kept
  streams := h.streams
  outside := h.outside
  failures := by
    rw [h.failures, failures_record, he]
    show failures s.history ++ [] ++ _ = _
    rw [List.append_nil]

/-- When no entry is left, nothing is below the directory. -/
theorem emptying_end (hu : Emptying x names dir s [] u) {p : List Bytes} (hp : names <+: p)
    (hne : p ≠ names) : u.kinds p = none := by
  obtain ⟨more, rfl⟩ := hp
  cases more with
  | nil => exact absurd (List.append_nil names) hne
  | cons name more =>
    by_contra hkind
    have hname := rooted_ordinary hu.leftOf.rooted hkind
    refine hkind (hu.gone name hname List.not_mem_nil _ ⟨more, ?_⟩)
    simp

theorem isDotName_iff {name : Bytes} :
    isDotName name = true ↔ name = [dot] ∨ name = [dot, dot] := by
  rw [isDotName, Bool.or_eq_true, beq_iff_eq, beq_iff_eq]

/-- One entry. -/
theorem delRound_wp {del : Path → Prog (Except Errno Unit)} {dirName : MemBuf} {left : List Bytes}
    (hs : x.Reaches s (x.pathAt names) names) (hdir : s.kinds names = some .dir)
    (hdel : ∀ name (u : TreeState ω), OrdinaryName name →
      x.Reaches u (x.pathAt (names ++ [name])) (names ++ [name]) → LeftOf x u.kinds →
        wp x.world x.duty (del (x.pathAt (names ++ [name])))
          (fun a t => Removed x (names ++ [name]) u a t) u)
    (hclean : nul ∉ dirName.data)
    (hpath : ∀ name, dirName.data ++ name = joinPath (x.pathAt names) name)
    (hu : Emptying x names dir s left u) :
    wp x.world x.duty (delRound del dirName dir ())
      (AfterRound
        (fun _ t => ∃ j < left.length, ∃ rest, rest.length = j ∧ Emptying x names dir s rest t)
        fun a t => Emptied x names dir s a t) u := by
  have hstream : u.streams dir = some left := by
    rw [hu.streams, Function.update_self]
  rw [delRound]
  simp only [perform_bind]
  refine wp_readdir hstream ?_
  cases left with
  | nil =>
    refine ⟨hu.below, hu.leftOf, ⟨[], ?_⟩, hu.outside, ?_, fun _ p hp hne => emptying_end hu hp hne⟩
    · show Function.update u.streams dir (some []) = _
      rw [hu.streams, Function.update_idem]
    · rw [failures_record]
      show failures u.history ++ [] = failures s.history ++ []
      rw [hu.failures]
  | cons name rest =>
    show wp _ _ (if isDotName name then _ else _) _ _
    by_cases hdot : isDotName name = true
    · rw [if_pos hdot]
      exact ⟨rest.length, Nat.lt_succ_self _, rest, rfl,
        emptying_skipped hu rfl (isDotName_iff.mp hdot) rfl⟩
    · rw [if_neg hdot]
      have hname : OrdinaryName name := by
        rcases hu.entries name List.mem_cons_self with h | h | h
        · exact absurd (isDotName_iff.mpr (.inl h)) hdot
        · exact absurd (isDotName_iff.mpr (.inr h)) hdot
        · exact h
      have hentry : cstr (mbSetStrEnd dirName dirName.dataLen name).data =
          x.pathAt (names ++ [name]) := by
        rw [cstr_mbSetStrEnd hclean hname.2.2.1, hpath, pathAt_snoc]
      rw [hentry]
      refine wp_seq (hdel name _ hname (emptying_reaches hs hdir hu.below hname) hu.leftOf) ?_
      intro a t hrem
      cases a with
      | ok r => exact ⟨rest.length, Nat.lt_succ_self _, rest, rfl, emptying_removed hu rfl hrem rfl⟩
      | error e =>
        refine ⟨fun p => ?_, hrem.left, ⟨rest, ?_⟩, hrem.outside.trans hu.outside, ?_,
          fun h => nomatch h⟩
        · rcases hrem.below p with h | ⟨hunder, hnone⟩
          · rw [h]
            exact hu.below p
          · exact .inr ⟨(below_entry hunder).1, (below_entry hunder).2, hnone⟩
        · rw [hrem.streams]
          show Function.update u.streams dir (some rest) = _
          rw [hu.streams, Function.update_idem]
        · rw [hrem.failures, failures_record]
          show failures u.history ++ [] ++ _ = _
          rw [List.append_nil, hu.failures]

theorem nul_not_mem_pathAt (hnames : ∀ name ∈ names, OrdinaryName name) : nul ∉ x.pathAt names := by
  induction names using List.reverseRecOn with
  | nil => exact x.clean
  | append_singleton names name ih =>
    rw [pathAt_snoc, joinPath_eq, slashed]
    intro hmem
    rcases List.mem_append.mp hmem with hmem | hmem
    · have hdir := ih fun n hn => hnames n (List.mem_append_left _ hn)
      split at hmem
      · exact hdir hmem
      · rcases List.mem_append.mp hmem with hmem | hmem
        · exact hdir hmem
        · exact absurd hmem (by decide)
    · exact (hnames name (by simp)).2.2.1 hmem

/-- A directory that can be opened has a path that fits into a buffer. -/
theorem dirWithSlash_pathAt (hnames : ∀ name ∈ names, OrdinaryName name)
    (hopen : x.refuse .opendir names = none) :
    ∃ dirName, dirWithSlash (x.pathAt names) = .ok dirName ∧
      nul ∉ dirName.data ∧ ∀ name, dirName.data ++ name = joinPath (x.pathAt names) name := by
  have hclean : nul ∉ x.pathAt names := nul_not_mem_pathAt hnames
  have hlen : (x.pathAt names).length + 2 < uintSize := by
    have hshort : ¬ pathMax ≤ (x.pathAt names).length := fun h => x.refuse_long names h hopen
    have hmax : pathMax + 2 < uintSize := by decide
    omega
  obtain ⟨dirName, hdirName, hdata, hnul⟩ : ∃ dirName,
      mbEnsureEndsWithSlash ⟨x.pathAt names⟩ = .ok dirName ∧ _ ∧ _ :=
    mbEnsureEndsWithSlash_fits hclean hlen
  refine ⟨dirName, ?_, hnul, fun name => by rw [hdata]; rfl⟩
  rw [dirWithSlash, mbNewWithStr_fits hclean (by omega)]
  exact hdirName

/-- Nothing is below what is not a directory. -/
theorem none_below (h : kinds.Rooted) (hkind : kinds names ≠ some .dir) {p : List Bytes}
    (hp : names <+: p) (hne : p ≠ names) : kinds p = none := by
  obtain ⟨more, rfl⟩ := hp
  by_contra hp
  refine hkind (rooted_below h ?_ hp)
  rintro rfl
  exact hne (List.append_nil names)

/-- A node that is not removed because of an error. -/
theorem removed_error (hl : LeftOf x s.kinds) (hnode : s.kinds names ≠ none) {e : Errno}
    (hkinds : t.kinds = s.kinds) (hstreams : t.streams = s.streams)
    (houtside : t.outside = s.outside) (hfail : failures t.history = failures s.history ++ [e]) :
    Removed x names s (.error e) t where
  below p := .inl (by rw [hkinds])
  left := by rwa [hkinds]
  gone h := nomatch h
  kept _ _ := by rwa [hkinds]
  streams := hstreams
  outside := houtside
  failures := hfail

/-- A node that has nothing below it, removed. -/
theorem removed_node (hl : LeftOf x s.kinds)
    (hbelow : ∀ p, names <+: p → p ≠ names → s.kinds p = none)
    (hkinds : t.kinds = Function.update s.kinds names none) (hstreams : t.streams = s.streams)
    (houtside : t.outside = s.outside) (hfail : failures t.history = failures s.history) :
    Removed x names s (.ok ()) t where
  below p := by
    rw [hkinds, Function.update_apply]
    split
    · rename_i hp
      exact .inr ⟨hp ▸ List.prefix_refl _, rfl⟩
    · exact .inl rfl
  left := by
    rw [hkinds]
    exact leftOf_without hl fun name => hbelow _ (List.prefix_append _ _) (by simp)
  gone _ p hp := by
    rw [hkinds, Function.update_apply]
    split
    · rfl
    · rename_i hne
      exact hbelow p hp hne
  kept _ h := nomatch h
  streams := hstreams
  outside := houtside
  failures := by
    rw [hfail]
    exact (List.append_nil _).symm

/-- All rounds of the loop over a directory's entries. -/
theorem delRounds_wp {del : Path → Prog (Except Errno Unit)} {dirName : MemBuf} {left : List Bytes}
    {n : Nat} (hs : x.Reaches s (x.pathAt names) names) (hdir : s.kinds names = some .dir)
    (hdel : ∀ name (u : TreeState ω), OrdinaryName name →
      x.Reaches u (x.pathAt (names ++ [name])) (names ++ [name]) → LeftOf x u.kinds →
        wp x.world x.duty (del (x.pathAt (names ++ [name])))
          (fun a t => Removed x (names ++ [name]) u a t) u)
    (hclean : nul ∉ dirName.data)
    (hpath : ∀ name, dirName.data ++ name = joinPath (x.pathAt names) name)
    (hu : Emptying x names dir s left u) (hn : left.length < n) :
    wp x.world x.duty (Program.iterate .outOfFuel (delRound del dirName dir) n ())
      (fun a t => Emptied x names dir s a t) u := by
  apply wp_iterate_counted
    (I := fun k _ t => ∃ rest, rest.length = k ∧ Emptying x names dir s rest t)
    ?_ n ⟨left, rfl, hu⟩ hn
  intro k y t ht
  obtain ⟨rest, rfl, ht⟩ := ht
  exact delRound_wp hs hdir hdel hclean hpath ht

/-- A directory whose stream has just been opened. -/
theorem emptying_start {order : List Bytes} {e : Event} (hl : LeftOf x s.kinds)
    (horder : Yields s.kinds names order) (he : e.failure = none) :
    Emptying x names dir s order ((s.setStream dir (some order)).record e) where
  below _ := .inl rfl
  leftOf := hl
  streams := rfl
  outside := rfl
  failures := by
    rw [failures_record, he]
    exact List.append_nil _
  entries name hname := by
    by_cases hdot : name = [dot]
    · exact .inl hdot
    by_cases hdots : name = [dot, dot]
    · exact .inr (.inl hdots)
    exact .inr (.inr (hl.rooted names name ((horder.entries name hdot hdots).mp hname)).2)
  gone name hname hnot p hp := by
    have hnone : s.kinds (names ++ [name]) = none := by
      by_contra hkind
      exact hnot ((horder.entries name hname.2.2.2.1 hname.2.2.2.2).mpr hkind)
    by_cases he : p = names ++ [name]
    · rw [he]
      exact hnone
    · exact none_below hl.rooted (by rw [hnone]; exact fun h => nomatch h) hp he

/-- The directory itself is there until the end. -/
theorem emptied_dir {a : Except Errno Unit} (hu : Emptied x names dir s a u) :
    u.kinds names = s.kinds names := by
  rcases hu.below names with h | ⟨-, hne, -⟩
  · exact h
  · exact absurd rfl hne

/-- The stream is closed. -/
theorem emptied_closed {a : Except Errno Unit} (hu : Emptied x names dir s a u)
    (hnew : s.streams dir = none) : (u.setStream dir none).streams = s.streams := by
  obtain ⟨left, hstreams⟩ := hu.streams
  show Function.update u.streams dir none = _
  rw [hstreams, Function.update_idem, ← hnew, Function.update_eq_self]

/-- What ends with an error leaves the directory where it is. -/
theorem emptied_error {a : Except Errno Unit} (hu : Emptied x names dir s a u)
    (hdir : s.kinds names = some .dir) {e : Errno} (hkinds : t.kinds = u.kinds)
    (hstreams : t.streams = s.streams) (houtside : t.outside = u.outside)
    (hfail : failures t.history = failures s.history ++ [e]) :
    Removed x names s (.error e) t where
  below p := by
    rw [hkinds]
    rcases hu.below p with h | ⟨hp, -, hnone⟩
    · exact .inl h
    · exact .inr ⟨hp, hnone⟩
  left := by
    rw [hkinds]
    exact hu.leftOf
  gone h := nomatch h
  kept _ _ := by
    rw [hkinds, emptied_dir hu, hdir]
    exact Option.some_ne_none _
  streams := hstreams
  outside := houtside.trans hu.outside
  failures := hfail

/-- The emptied directory is removed. -/
theorem emptied_removed (hu : Emptied x names dir s (.ok ()) u)
    (hkinds : t.kinds = Function.update u.kinds names none)
    (hstreams : t.streams = s.streams) (houtside : t.outside = u.outside)
    (hfail : failures t.history = failures s.history) :
    Removed x names s (.ok ()) t where
  below p := by
    rw [hkinds, Function.update_apply]
    split
    · rename_i hp
      exact .inr ⟨hp ▸ List.prefix_refl _, rfl⟩
    · rcases hu.below p with h | ⟨hp, -, hnone⟩
      · exact .inl h
      · exact .inr ⟨hp, hnone⟩
  left := by
    rw [hkinds]
    exact leftOf_without hu.leftOf fun name => hu.gone rfl _ (List.prefix_append _ _) (by simp)
  gone _ p hp := by
    rw [hkinds, Function.update_apply]
    split
    · rfl
    · rename_i hne
      exact hu.gone rfl p hp hne
  kept _ h := nomatch h
  streams := hstreams
  outside := houtside.trans hu.outside
  failures := by
    rw [hfail]
    exact (List.append_nil _).symm

/-- An error of `unlink` that is not for a directory and not for nothing. -/
theorem unlink_failure {path : Path} {e : Errno} (hnone : e ≠ .noEnt) (hdir : e ≠ .isDir) :
    Event.failure ⟨.unlink path, some e⟩ = some e := by
  cases e with
  | noEnt => exact absurd rfl hnone
  | isDir => exact absurd rfl hdir
  | _ => rfl

/-- The end of `del_recursive` for an error of `unlink`. -/
theorem unlink_refused {e : Errno} {next : Option Errno → Prog (Except Errno Unit)}
    (hl : LeftOf x s.kinds) (hnode : s.kinds names ≠ none)
    (hrefuse : x.refuse .unlink names = some e)
    (hnext : ∀ e, e ≠ .noEnt → e ≠ .isDir → next (some e) = .done (.error e)) :
    wp x.world x.duty (next (some e)) (fun a t => Removed x names s a t)
      (s.record ⟨.unlink (x.pathAt names), some e⟩) := by
  have hnone : e ≠ .noEnt := fun h => (x.refuse_unlink names).1 (by rw [hrefuse, h])
  have hdir : e ≠ .isDir := fun h => (x.refuse_unlink names).2 (by rw [hrefuse, h])
  rw [hnext e hnone hdir]
  refine removed_error hl hnode rfl rfl rfl ?_
  rw [failures_record, unlink_failure hnone hdir]
  rfl

/-- The part of `del_recursive` for a directory. -/
def delDir (del : Path → Prog (Except Errno Unit)) (n : Nat) (path : Path) :
    Prog (Except Errno Unit) := do
  match ← perform (.opendir path) with
  | .error e => return .error e
  | .ok d =>
    let filePathName ← dirWithSlash path
    let res ← Program.iterate .outOfFuel (delRound del filePathName d) n ()
    perform (.closedir d)
    match res with
    | .error e => return .error e
    | .ok () =>
      match ← perform (.rmdir path) with
      | none => return .ok ()
      | some e => return .error e

/-- What `del_recursive` does with an answer to `unlink`. -/
theorem delRecursive_next (n : Nat) (path : Path) :
    ∃ next, delRecursive (n + 1) path = Program.call (S := sys) (.unlink path) next ∧
      next none = .done (.ok ()) ∧ next (some .noEnt) = .done (.ok ()) ∧
      next (some .isDir) = delDir (delRecursive n) n path ∧
      ∀ e, e ≠ .noEnt → e ≠ .isDir → next (some e) = .done (.error e) := by
  refine ⟨_, rfl, rfl, rfl, rfl, fun e hnone hdir => ?_⟩
  cases e with
  | noEnt => exact absurd rfl hnone
  | isDir => exact absurd rfl hdir
  | _ => rfl

theorem delDir_wp {del : Path → Prog (Except Errno Unit)} {n : Nat}
    (hreach : x.Reaches s (x.pathAt names) names) (hl : LeftOf x s.kinds)
    (hdir : s.kinds names = some .dir)
    (hwidth : ∀ order, Yields s.kinds names order → order.length < n)
    (hdel : ∀ name (u : TreeState ω), OrdinaryName name →
      x.Reaches u (x.pathAt (names ++ [name])) (names ++ [name]) → LeftOf x u.kinds →
        wp x.world x.duty (del (x.pathAt (names ++ [name])))
          (fun a t => Removed x (names ++ [name]) u a t) u) :
    wp x.world x.duty (delDir del n (x.pathAt names)) (fun a t => Removed x names s a t) s := by
  rw [delDir]
  simp only [perform_bind]
  have hnode : s.kinds names ≠ none := by
    rw [hdir]
    exact Option.some_ne_none _
  apply wp_opendir hreach hdir
  intro r t hopen
  rw [DirTree.Opens] at hopen
  split at hopen
  case h_1 e hrefuse =>
    obtain ⟨rfl, rfl⟩ := hopen
    show Removed x names t (.error e) (t.record ⟨.opendir (x.pathAt names), .error e⟩)
    refine removed_error hl hnode rfl rfl rfl ?_
    rw [failures_record]
    rfl
  case h_2 hrefuse =>
    obtain ⟨dir, order, rfl, hnew, horder, rfl⟩ := hopen
    obtain ⟨dirName, hdirName, hclean, hpath⟩ := dirWithSlash_pathAt hreach.ordinary hrefuse
    show wp x.world x.duty (liftM (dirWithSlash (x.pathAt names)) >>= _) _ _
    rw [hdirName]
    apply wp_seq (delRounds_wp hreach hdir hdel hclean hpath (emptying_start hl horder rfl)
      (hwidth order horder))
    intro a u hu
    apply wp_closedir
    have hclosed : ∀ e : Event, e.failure = none →
        failures ((u.setStream dir none).record e).history = failures u.history := by
      intro e he
      rw [failures_record, he]
      exact List.append_nil _
    cases a with
    | error e =>
      show Removed x names s (.error e) _
      exact emptied_error hu hdir rfl (emptied_closed hu hnew) rfl
        ((hclosed _ rfl).trans hu.failures)
    | ok a =>
      have hkinds : u.kinds names = some .dir := (emptied_dir hu).trans hdir
      have hreached := removed_reaches hreach hu.below
      apply wp_rmdir (s := (u.setStream dir none).record ⟨.closedir dir, ()⟩)
        ⟨rfl, hreached.ordinary, hreached.through⟩ hkinds
      intro r t hremove
      rw [DirTree.Removes] at hremove
      split at hremove
      case h_1 e hrefuse =>
        obtain ⟨rfl, rfl⟩ := hremove
        show Removed x names s (.error e) _
        refine emptied_error hu hdir rfl (emptied_closed hu hnew) rfl ?_
        rw [failures_record, hclosed _ rfl, hu.failures]
        show failures s.history ++ [] ++ [e] = _
        rw [List.append_nil]
      case h_2 =>
        rcases hremove with ⟨rfl, rfl, -⟩ | ⟨-, -, name, hname⟩
        · show Removed x names s (.ok ()) _
          refine emptied_removed hu rfl (emptied_closed hu hnew) rfl ?_
          rw [failures_record]
          show failures (((u.setStream dir none).record _).history) ++ [] = _
          rw [List.append_nil, hclosed _ rfl, hu.failures]
          exact List.append_nil _
        · exact absurd (hu.gone rfl _ (List.prefix_append _ _) (by simp)) hname

/-- What `del_recursive` does at a place in the tree. The bounds are on the depth of the tree and on
the number of a directory's entries. -/
theorem delRecursive_wp {depth width : Nat} (hdepth : ∀ p, x.kinds p ≠ none → p.length ≤ depth)
    (hwidth : ∀ kinds names order, LeftOf x kinds → Yields kinds names order →
      order.length ≤ width) (n : Nat) (names : List Bytes) (s : TreeState ω)
    (hfuel : depth + width + 3 ≤ n + names.length) (hlen : names.length ≤ depth + 1)
    (hreach : x.Reaches s (x.pathAt names) names) (hl : LeftOf x s.kinds) :
    wp x.world x.duty (delRecursive n (x.pathAt names)) (fun a t => Removed x names s a t) s := by
  induction n generalizing names s with
  | zero => omega
  | succ n ih =>
    obtain ⟨next, hnext, hgone, hnoent, hisdir, hfailed⟩ := delRecursive_next n (x.pathAt names)
    rw [hnext]
    apply wp_unlink hreach
    intro r t hunlink
    rw [DirTree.Unlinks] at hunlink
    split at hunlink
    case h_1 hnone =>
      obtain ⟨rfl, ht⟩ := hunlink
      rw [ht, hnoent]
      exact removed_node hl
        (fun p hp hne => none_below hl.rooted (by rw [hnone]; exact fun h => nomatch h) hp hne)
        (by rw [← hnone, Function.update_eq_self]; rfl) rfl rfl
        (by rw [failures_record]; exact List.append_nil _)
    case h_2 hdir =>
      obtain ⟨hr, ht⟩ := hunlink
      rw [ht]
      have hnode : s.kinds names ≠ none := by
        rw [hdir]
        exact Option.some_ne_none _
      have hnames : names.length ≤ depth := hdepth names (by
        rcases hl.initial names with h | h
        · rwa [← h]
        · exact absurd h hnode)
      cases hrefuse : x.refuse .unlink names with
      | some e =>
        rw [hrefuse] at hr
        obtain rfl : r = some e := hr
        exact unlink_refused hl hnode hrefuse hfailed
      | none =>
        rw [hrefuse] at hr
        obtain rfl : r = some .isDir := hr
        rw [hisdir]
        refine wp_mono (delDir_wp (s := s.record ⟨.unlink (x.pathAt names), some .isDir⟩)
          ⟨rfl, hreach.ordinary, hreach.through⟩ hl hdir ?_ ?_) fun a t h => removed_record h rfl
        · intro order horder
          have horder : order.length ≤ width := hwidth _ _ _ hl horder
          omega
        · intro name u hname hr hu
          apply ih (names ++ [name]) u ?_ ?_ hr hu
          · rw [List.length_append, List.length_singleton]
            omega
          · rw [List.length_append, List.length_singleton]
            omega
    case h_3 kind hfile hkind =>
      have hnode : s.kinds names ≠ none := by
        rw [hkind]
        exact Option.some_ne_none _
      have hnodir : s.kinds names ≠ some .dir := by
        rw [hkind]
        exact fun h => hfile (Option.some.inj h)
      split at hunlink
      case h_1 e hrefuse =>
        obtain ⟨rfl, ht⟩ := hunlink
        rw [ht]
        exact unlink_refused hl hnode hrefuse hfailed
      case h_2 =>
        obtain ⟨rfl, rfl⟩ := hunlink
        rw [hgone]
        exact removed_node hl (fun p hp hne => none_below hl.rooted hnodir hp hne) rfl rfl rfl
          (by rw [failures_record]; exact List.append_nil _)

/-- A directory has as many entries as the tree has nodes, besides the two for itself and its
parent. -/
theorem order_length_le (hl : LeftOf x kinds) {order : List Bytes} (h : Yields kinds names order) :
    order.length ≤ x.finite.toFinset.card + 2 := by
  have hsubset : order.toFinset ⊆
      insert [dot] (insert [dot, dot] (x.finite.toFinset.image fun p => p.getLastD [])) := by
    intro name hname
    rw [Finset.mem_insert, Finset.mem_insert]
    by_cases hdot : name = [dot]
    · exact .inl hdot
    by_cases hdots : name = [dot, dot]
    · exact .inr (.inl hdots)
    have hkind : kinds (names ++ [name]) ≠ none :=
      (h.entries name hdot hdots).mp (List.mem_toFinset.mp hname)
    apply Or.inr (Or.inr (Finset.mem_image.mpr ⟨names ++ [name], ?_, by simp⟩))
    rw [Set.Finite.mem_toFinset]
    show x.kinds (names ++ [name]) ≠ none
    rcases hl.initial (names ++ [name]) with hsame | hnone
    · rwa [← hsame]
    · exact absurd hnone hkind
  calc order.length = order.toFinset.card := (List.toFinset_card_of_nodup h.once).symm
    _ ≤ _ := Finset.card_le_card hsubset
    _ ≤ (x.finite.toFinset.image fun p => p.getLastD []).card + 1 + 1 :=
      (Finset.card_insert_le _ _).trans (Nat.succ_le_succ (Finset.card_insert_le _ _))
    _ ≤ x.finite.toFinset.card + 2 := Nat.add_le_add_right Finset.card_image_le 2

/-- The entries of a directory have an order. -/
theorem yields_exists (hl : LeftOf x kinds) (names : List Bytes) :
    ∃ order, Yields kinds names order := by
  classical
  let entries := (x.finite.toFinset.image fun p => p.getLastD []).filter fun name =>
    kinds (names ++ [name]) ≠ none
  refine ⟨entries.toList, entries.nodup_toList, fun name _ _ => ?_⟩
  rw [Finset.mem_toList, Finset.mem_filter, Finset.mem_image]
  refine ⟨fun h => h.2, fun hkind => ⟨⟨names ++ [name], ?_, by simp⟩, hkind⟩⟩
  rw [Set.Finite.mem_toFinset]
  show x.kinds (names ++ [name]) ≠ none
  rcases hl.initial (names ++ [name]) with hsame | hnone
  · rwa [← hsame]
  · exact absurd hnone hkind

/-- While a stream is free, every call that stays in the tree has an answer. -/
theorem tree_answers (hl : LeftOf x s.kinds) (hfree : s.streams dir = none) {c : Sys}
    (hc : x.duty.guard c s) : ∃ r t, x.world s c r t := by
  suffices h : ∃ r t, x.Answers s c r t by
    obtain ⟨r, t, h⟩ := h
    exact ⟨r, _, t, h, rfl⟩
  cases c with
  | unlink path =>
    obtain ⟨names, hreach⟩ := hc
    suffices h : ∃ r t, x.Unlinks s names r t by
      obtain ⟨r, t, h⟩ := h
      exact ⟨r, t, .inl ⟨names, hreach, h⟩⟩
    unfold DirTree.Unlinks
    split
    · exact ⟨_, _, rfl, rfl⟩
    · exact ⟨_, _, rfl, rfl⟩
    · split
      · exact ⟨_, _, rfl, rfl⟩
      · exact ⟨_, _, rfl, rfl⟩
  | opendir path =>
    obtain ⟨names, hreach, hdir⟩ := hc
    suffices h : ∃ r t, x.Opens s names r t by
      obtain ⟨r, t, h⟩ := h
      exact ⟨r, t, .inl ⟨names, hreach, hdir, h⟩⟩
    unfold DirTree.Opens
    split
    · exact ⟨_, _, rfl, rfl⟩
    · obtain ⟨order, horder⟩ := yields_exists hl names
      exact ⟨_, _, dir, order, rfl, hfree, horder, rfl⟩
  | rmdir path =>
    obtain ⟨names, hreach, hdir⟩ := hc
    suffices h : ∃ r t, x.Removes s names r t by
      obtain ⟨r, t, h⟩ := h
      exact ⟨r, t, .inl ⟨names, hreach, hdir, h⟩⟩
    unfold DirTree.Removes
    split
    · exact ⟨_, _, rfl, rfl⟩
    · by_cases hempty : ∀ name, s.kinds (names ++ [name]) = none
      · exact ⟨_, _, .inl ⟨rfl, rfl, hempty⟩⟩
      · exact ⟨_, _, .inr ⟨rfl, rfl, not_forall.mp hempty⟩⟩
  | readdir d =>
    obtain ⟨left, hleft⟩ := hc
    exact ⟨_, _, .inl ⟨left, hleft, rfl, rfl⟩⟩
  | closedir d => exact ⟨(), _, rfl⟩
  | _ => exact absurd hc id

/-- How the removal of the whole tree ends. -/
structure TreeRemoved (x : DirTree) (s : TreeState ω) (a : Except Errno Unit) (t : TreeState ω) :
    Prop where
  nodes : ∀ names, t.kinds names = x.kinds names ∨ t.kinds names = none
  outside : t.outside = s.outside
  streams : t.streams = s.streams
  gone : a = .ok () ↔ t.kinds [] = none
  /-- the only failure is the one that is returned -/
  failures : failures t.history = failures s.history ++ errorsOf a

end Trees

end FilemanagerHttpd.Audit
