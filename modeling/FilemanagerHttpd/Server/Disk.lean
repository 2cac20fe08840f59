import FilemanagerHttpd.Server.System

/-!
# Directory entries, files and open descriptors

A path names an entry; other spellings may name the same one. An entry may hold a file, and a
descriptor keeps its file whatever becomes of the entry. The calls are those of uploads, and each
of them can fail, but `unlink` removes every file that there is.
-/

namespace FilemanagerHttpd.Server

open Library

abbrev Inode := Nat

structure DiskState (ε : Type) where
  entries : ε → Option Inode
  content : Inode → Bytes
  files : Fd → Option Inode
  history : History

namespace DiskState

variable {ε : Type} [DecidableEq ε] (s : DiskState ε)

def record (e : Event) : DiskState ε := { s with history := e :: s.history }

def setEntry (place : ε) (file : Option Inode) : DiskState ε :=
  { s with entries := Function.update s.entries place file }

def setFile (fd : Fd) (file : Option Inode) : DiskState ε :=
  { s with files := Function.update s.files fd file }

def write (i : Inode) (data : Bytes) : DiskState ε :=
  { s with content := Function.update s.content i data }

/-- What is stored at an entry. -/
def contentAt (place : ε) : Option Bytes := (s.entries place).map s.content

/-- A new file at an entry that holds none, open. -/
def Creates (place : ε) (fd : Fd) (t : DiskState ε) : Prop :=
  s.entries place = none ∧ s.files fd = none ∧
    ∃ i, (∀ e, s.entries e ≠ some i) ∧ (∀ fd, s.files fd ≠ some i) ∧
      t = ((s.write i []).setEntry place (some i)).setFile fd (some i)

/-- `rename`; it does nothing when both names are of one file. -/
def Moves (old new : ε) (t : DiskState ε) : Prop :=
  ∃ i, s.entries old = some i ∧
    t = if s.entries new = some i then s else (s.setEntry old none).setEntry new (some i)

/-- `link`, to an entry that holds no file. -/
def Links (old new : ε) (t : DiskState ε) : Prop :=
  ∃ i, s.entries old = some i ∧ s.entries new = none ∧ t = s.setEntry new (some i)

end DiskState

variable {ε : Type} [DecidableEq ε]

/-- The answers of a disk; `locate` says which entry a path names. -/
def diskAnswers (locate : Path → ε) (s : DiskState ε) :
    (c : Sys) → c.Answer → DiskState ε → Prop
  | .openExcl path, .ok fd, t => s.Creates (locate path) fd t
  | .openExcl _, .error _, t => t = s
  | .mkstemp _, .ok (path, fd), t => s.Creates (locate path) fd t
  | .mkstemp _, .error _, t => t = s
  | .write fd data, .wrote n, t => 0 < n ∧ n ≤ data.length ∧
    ∃ i, s.files fd = some i ∧ t = s.write i (s.content i ++ data.take n)
  | .write _ _, .fail _, t => t = s
  | .close fd, _, t => t = s.setFile fd none
  | .unlink path, r, t =>
    if s.entries (locate path) = none then r = some .noEnt ∧ t = s
    else r = none ∧ t = s.setEntry (locate path) none
  | .rename _ none, r, t => r ≠ none ∧ t = s
  | .rename _ (some _), some _, t => t = s
  | .rename old (some new), none, t => s.Moves (locate old) (locate new) t
  | .link _ _, some _, t => t = s
  | .link old new, none, t => s.Links (locate old) (locate new) t
  | _, _, _ => True

def diskWorld (locate : Path → ε) : World sys (DiskState ε) := fun s c r s' =>
  ∃ t, diskAnswers locate s c r t ∧ s' = t.record ⟨c, r⟩

/-- The calls of uploads, with open descriptors, and no fault. -/
def diskDuty : Duty sys Fault (DiskState ε) where
  guard c s := match c with
    | .openExcl _ | .mkstemp _ | .unlink _ | .rename _ _ | .link _ _ => True
    | .write fd _ | .close fd => s.files fd ≠ none
    | _ => False
  faulted _ _ := False

/-- The error of a call; `EEXIST` of an exclusive `open` and the errors of `unlink` are none. -/
def Event.uploadFailure : Event → Option Errno
  | ⟨.openExcl _, .error .exist⟩ => none
  | ⟨.openExcl _, .error e⟩ => some e
  | ⟨.mkstemp _, .error e⟩ => some e
  | ⟨.write _ _, .fail e⟩ => some e
  | ⟨.rename _ _, e⟩ => e
  | ⟨.link _ _, e⟩ => e
  | _ => none

/-- The errors since the start, the first one first. -/
def uploadFailures (h : History) : List Errno := h.reverse.filterMap Event.uploadFailure

section Rules

variable {locate : Path → ε} {α : Type} {Q : α → DiskState ε → Prop} {s : DiskState ε}

theorem wp_openExcl {path : Path} {next : Except Errno Fd → Prog α}
    (hok : ∀ fd t, s.Creates (locate path) fd t →
      wp (diskWorld locate) diskDuty (next (.ok fd)) Q (t.record ⟨.openExcl path, .ok fd⟩))
    (herror : ∀ e,
      wp (diskWorld locate) diskDuty (next (.error e)) Q (s.record ⟨.openExcl path, .error e⟩)) :
    wp (diskWorld locate) diskDuty (Program.call (S := sys) (.openExcl path) next) Q s := by
  refine ⟨trivial, ?_⟩
  rintro (e | fd) _ ⟨t, ht, rfl⟩
  · obtain rfl : t = s := ht
    exact herror e
  · exact hok fd t ht

theorem wp_mkstemp {template : Path} {next : Except Errno (Path × Fd) → Prog α}
    (hok : ∀ path fd t, s.Creates (locate path) fd t →
      wp (diskWorld locate) diskDuty (next (.ok (path, fd))) Q
        (t.record ⟨.mkstemp template, .ok (path, fd)⟩))
    (herror : ∀ e,
      wp (diskWorld locate) diskDuty (next (.error e)) Q (s.record ⟨.mkstemp template, .error e⟩)) :
    wp (diskWorld locate) diskDuty (Program.call (S := sys) (.mkstemp template) next) Q s := by
  refine ⟨trivial, ?_⟩
  rintro (e | ⟨path, fd⟩) _ ⟨t, ht, rfl⟩
  · obtain rfl : t = s := ht
    exact herror e
  · exact hok path fd t ht

theorem wp_write {fd : Fd} {i : Inode} {data : Bytes} {next : WriteResult → Prog α}
    (hfd : s.files fd = some i)
    (hok : ∀ n, 0 < n → n ≤ data.length → wp (diskWorld locate) diskDuty (next (.wrote n)) Q
      ((s.write i (s.content i ++ data.take n)).record ⟨.write fd data, .wrote n⟩))
    (herror : ∀ e,
      wp (diskWorld locate) diskDuty (next (.fail e)) Q (s.record ⟨.write fd data, .fail e⟩)) :
    wp (diskWorld locate) diskDuty (Program.call (S := sys) (.write fd data) next) Q s := by
  refine ⟨by show s.files fd ≠ none; rw [hfd]; exact Option.some_ne_none _, ?_⟩
  rintro (n | e) _ ⟨t, ht, rfl⟩
  · obtain ⟨hpos, hle, j, hj, rfl⟩ := ht
    obtain rfl : i = j := Option.some.inj (hfd.symm.trans hj)
    exact hok n hpos hle
  · obtain rfl : t = s := ht
    exact herror e

theorem wp_close {fd : Fd} {i : Inode} {next : Unit → Prog α} (hfd : s.files fd = some i)
    (hnext : wp (diskWorld locate) diskDuty (next ()) Q ((s.setFile fd none).record ⟨.close fd, ()⟩)) :
    wp (diskWorld locate) diskDuty (Program.call (S := sys) (.close fd) next) Q s := by
  refine ⟨by show s.files fd ≠ none; rw [hfd]; exact Option.some_ne_none _, ?_⟩
  rintro r _ ⟨t, rfl, rfl⟩
  exact hnext

theorem wp_unlink_file {path : Path} {i : Inode} {next : Option Errno → Prog α}
    (hfile : s.entries (locate path) = some i)
    (hnext : wp (diskWorld locate) diskDuty (next none) Q
      ((s.setEntry (locate path) none).record ⟨.unlink path, none⟩)) :
    wp (diskWorld locate) diskDuty (Program.call (S := sys) (.unlink path) next) Q s := by
  refine ⟨trivial, ?_⟩
  rintro r _ ⟨t, ht, rfl⟩
  obtain ⟨rfl, rfl⟩ : r = none ∧ t = s.setEntry (locate path) none := by
    rw [diskAnswers, if_neg (by rw [hfile]; exact Option.some_ne_none _)] at ht
    exact ht
  exact hnext

theorem wp_rename {old new : Path} {next : Option Errno → Prog α}
    (hok : ∀ t, s.Moves (locate old) (locate new) t →
      wp (diskWorld locate) diskDuty (next none) Q (t.record ⟨.rename old (some new), none⟩))
    (herror : ∀ e, wp (diskWorld locate) diskDuty (next (some e)) Q
      (s.record ⟨.rename old (some new), some e⟩)) :
    wp (diskWorld locate) diskDuty (Program.call (S := sys) (.rename old (some new)) next) Q s := by
  refine ⟨trivial, ?_⟩
  rintro (_ | e) _ ⟨t, ht, rfl⟩
  · exact hok t ht
  · obtain rfl : t = s := ht
    exact herror e

theorem wp_link {old new : Path} {next : Option Errno → Prog α}
    (hok : ∀ t, s.Links (locate old) (locate new) t →
      wp (diskWorld locate) diskDuty (next none) Q (t.record ⟨.link old new, none⟩))
    (herror : ∀ e, wp (diskWorld locate) diskDuty (next (some e)) Q
      (s.record ⟨.link old new, some e⟩)) :
    wp (diskWorld locate) diskDuty (Program.call (S := sys) (.link old new) next) Q s := by
  refine ⟨trivial, ?_⟩
  rintro (_ | e) _ ⟨t, ht, rfl⟩
  · exact hok t ht
  · obtain rfl : t = s := ht
    exact herror e

end Rules

end FilemanagerHttpd.Server
