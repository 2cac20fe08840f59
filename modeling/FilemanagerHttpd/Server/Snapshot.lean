import FilemanagerHttpd.Server.System

/-!
# A file system that nobody changes

What `stat` says about a path and what a directory holds is fixed. The order in which `readdir`
yields the entries of a directory is chosen when the directory is opened.
-/

namespace FilemanagerHttpd.Server

open Library

/-- `PATH_MAX`. -/
def pathMax : Nat := 4096

structure Snapshot where
  stat : Path → Except Errno FileStat
  listing : Path → Except Errno (List Bytes)
  /-- a longer path is `ENAMETOOLONG` -/
  short : ∀ path entries, listing path = .ok entries → path.length < pathMax

/-- What has happened, and what each open directory has still to yield. -/
structure SnapState where
  history : History
  streams : Fd → List Bytes

/-- The answers of an unchanged file system, and the directories after them. -/
def Snapshot.Answers (snap : Snapshot) (streams streams' : Fd → List Bytes) :
    (c : Sys) → c.Answer → Prop
  | .stat path, st => st = snap.stat path ∧ streams' = streams
  | .opendir path, .ok dir => ∃ entries order, snap.listing path = .ok entries ∧
      order.Perm entries ∧ streams' = Function.update streams dir order
  | .opendir path, .error e => snap.listing path = .error e ∧ streams' = streams
  | .readdir dir, none => streams dir = [] ∧ streams' = streams
  | .readdir dir, some name =>
    streams dir = name :: streams' dir ∧ ∀ other ≠ dir, streams' other = streams other
  | _, _ => streams' = streams

/-- The calls are answered as before, and as the file system is. -/
def Snapshot.world (snap : Snapshot) : World sys SnapState := fun s c r s' =>
  posix s.history c r s'.history ∧ snap.Answers s.streams s'.streams c r

section Rules

variable {snap : Snapshot} {α : Type} {Q : α → SnapState → Prop} {s : SnapState}

theorem wp_snapshot_stat {path : Path} {next : Except Errno FileStat → Prog α}
    (h : ∀ t : SnapState, t.streams = s.streams →
      wp snap.world Duty.total (next (snap.stat path)) Q t) :
    wp snap.world Duty.total (Program.call (S := sys) (.stat path) next) Q s := by
  refine ⟨trivial, fun r t ht => ?_⟩
  obtain ⟨-, rfl, hstreams⟩ := ht
  exact h t hstreams

theorem wp_snapshot_opendir {path : Path} {next : Except Errno Fd → Prog α}
    (herror : ∀ e t, snap.listing path = .error e → t.streams = s.streams →
      wp snap.world Duty.total (next (.error e)) Q t)
    (hok : ∀ entries dir t, snap.listing path = .ok entries → (t.streams dir).Perm entries →
      wp snap.world Duty.total (next (.ok dir)) Q t) :
    wp snap.world Duty.total (Program.call (S := sys) (.opendir path) next) Q s := by
  refine ⟨trivial, fun r t ht => ?_⟩
  cases r with
  | error e => exact herror e t ht.2.1 ht.2.2
  | ok dir =>
    obtain ⟨-, entries, order, hlisting, hperm, hstreams⟩ := ht
    refine hok entries dir t hlisting ?_
    rw [hstreams, Function.update_self]
    exact hperm

theorem wp_snapshot_readdir {dir : Fd} {next : Option Bytes → Prog α}
    (hend : ∀ t, s.streams dir = [] → wp snap.world Duty.total (next none) Q t)
    (hname : ∀ name t, s.streams dir = name :: t.streams dir → nul ∉ name →
      wp snap.world Duty.total (next (some name)) Q t) :
    wp snap.world Duty.total (Program.call (S := sys) (.readdir dir) next) Q s := by
  refine ⟨trivial, fun r t ht => ?_⟩
  cases r with
  | none => exact hend t ht.2.1
  | some name =>
    obtain ⟨⟨⟨-, -, hnul⟩, -⟩, hstreams, -⟩ := ht
    exact hname name t hstreams hnul

end Rules

end FilemanagerHttpd.Server
