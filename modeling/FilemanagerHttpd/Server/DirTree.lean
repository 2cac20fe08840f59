import FilemanagerHttpd.Server.Snapshot

/-!
# A directory tree under a path

A tree says for each sequence of names below a path what is there. Some nodes refuse to be
removed, and everything that is not in the tree is one thing, which calls that leave the tree may
change in any way: those for other paths, and those that follow a symbolic link.
-/

namespace FilemanagerHttpd.Server

open Library

inductive NodeKind
  | file
  | link (target : Path)
  | dir
  deriving DecidableEq, Repr

/-- The calls that remove nodes or look for them. -/
inductive TreeCall
  | unlink | opendir | rmdir
  deriving DecidableEq, Repr

/-- A name in a directory and the directory's path, as a path. -/
def joinPath (dir : Path) (name : Bytes) : Path :=
  (if dir.getLast? = some slash then dir else dir ++ [slash]) ++ name

/-- A name that a directory may hold, besides those for itself and for its parent. -/
def OrdinaryName (name : Bytes) : Prop :=
  name ≠ [] ∧ slash ∉ name ∧ nul ∉ name ∧ name ≠ [dot] ∧ name ≠ [dot, dot]

/-- What is at each sequence of names. -/
abbrev Nodes := List Bytes → Option NodeKind

/-- Every node but the first is in a directory. -/
def Nodes.Rooted (kinds : Nodes) : Prop :=
  ∀ names name, kinds (names ++ [name]) ≠ none → kinds names = some .dir ∧ OrdinaryName name

/-- `ENOTEMPTY`. -/
def notEmptyErrno : Errno := .other 39

structure DirTree where
  path : Path
  clean : nul ∉ path
  kinds : Nodes
  rooted : kinds.Rooted
  finite : {names | kinds names ≠ none}.Finite
  /-- the errors of the nodes for which a call fails -/
  refuse : TreeCall → List Bytes → Option Errno
  /-- `unlink` says `ENOENT` only where nothing is, and `EISDIR` of itself for a directory -/
  refuse_unlink : ∀ names, refuse .unlink names ≠ some .noEnt ∧ refuse .unlink names ≠ some .isDir
  /-- a path of this length is `ENAMETOOLONG` -/
  refuse_long : ∀ names, pathMax ≤ (names.foldl joinPath path).length → refuse .opendir names ≠ none

/-- The tree as it is, what each open directory has still to yield, what has happened, and
everything else. -/
structure TreeState (ω : Type) where
  kinds : Nodes
  streams : Fd → Option (List Bytes)
  history : History
  outside : ω

namespace TreeState

variable {ω : Type}

def record (s : TreeState ω) (e : Event) : TreeState ω := { s with history := e :: s.history }

def without (s : TreeState ω) (names : List Bytes) : TreeState ω :=
  { s with kinds := Function.update s.kinds names none }

def setStream (s : TreeState ω) (dir : Fd) (names : Option (List Bytes)) : TreeState ω :=
  { s with streams := Function.update s.streams dir names }

end TreeState

/-- The order in which a directory's entries are yielded: each of them once, and the names for
itself and its parent at most once. -/
structure Yields (kinds : Nodes) (names : List Bytes) (order : List Bytes) : Prop where
  once : order.Nodup
  entries : ∀ name, name ≠ [dot] → name ≠ [dot, dot] →
    (name ∈ order ↔ kinds (names ++ [name]) ≠ none)

namespace DirTree

variable {ω : Type} (x : DirTree)

def pathAt (names : List Bytes) : Path := names.foldl joinPath x.path

/-- A path that leads to a place through directories only. -/
structure Reaches (s : TreeState ω) (path : Path) (names : List Bytes) : Prop where
  path_eq : path = x.pathAt names
  ordinary : ∀ name ∈ names, OrdinaryName name
  through : ∀ dir, dir <+: names → dir ≠ names → s.kinds dir = some .dir

/-- `unlink` in the tree. -/
def Unlinks (s : TreeState ω) (names : List Bytes) (r : Option Errno) (t : TreeState ω) : Prop :=
  match s.kinds names with
  | none => r = some .noEnt ∧ t = s
  | some .dir => r = some ((x.refuse .unlink names).getD .isDir) ∧ t = s
  | some _ =>
    match x.refuse .unlink names with
    | some e => r = some e ∧ t = s
    | none => r = none ∧ t = s.without names

/-- `opendir` of a directory. -/
def Opens (s : TreeState ω) (names : List Bytes) (r : Except Errno Fd) (t : TreeState ω) : Prop :=
  match x.refuse .opendir names with
  | some e => r = .error e ∧ t = s
  | none => ∃ dir order, r = .ok dir ∧ s.streams dir = none ∧ Yields s.kinds names order ∧
    t = s.setStream dir (some order)

/-- `rmdir` of a directory. -/
def Removes (s : TreeState ω) (names : List Bytes) (r : Option Errno) (t : TreeState ω) : Prop :=
  match x.refuse .rmdir names with
  | some e => r = some e ∧ t = s
  | none => (r = none ∧ t = s.without names ∧ ∀ name, s.kinds (names ++ [name]) = none) ∨
    (r = some notEmptyErrno ∧ t = s ∧ ∃ name, s.kinds (names ++ [name]) ≠ none)

/-- The answers to the calls that stay in the tree. -/
def Answers (s : TreeState ω) : (c : Sys) → c.Answer → TreeState ω → Prop
  | .unlink path, r, t => (∃ names, x.Reaches s path names ∧ x.Unlinks s names r t) ∨
    ∀ names, ¬ x.Reaches s path names
  | .opendir path, r, t =>
    (∃ names, x.Reaches s path names ∧ s.kinds names = some .dir ∧ x.Opens s names r t) ∨
      ∀ names, x.Reaches s path names → s.kinds names ≠ some .dir
  | .rmdir path, r, t =>
    (∃ names, x.Reaches s path names ∧ s.kinds names = some .dir ∧ x.Removes s names r t) ∨
      ∀ names, x.Reaches s path names → s.kinds names ≠ some .dir
  | .readdir dir, r, t =>
    (∃ left, s.streams dir = some left ∧ r = left.head? ∧ t = s.setStream dir (some left.tail)) ∨
      s.streams dir = none
  | .closedir dir, _, t => t = s.setStream dir none
  | _, _, _ => True

def world : World sys (TreeState ω) := fun s c r s' =>
  ∃ t, x.Answers s c r t ∧ s' = t.record ⟨c, r⟩

/-- No call leaves the tree: a path leads through directories only, and what is opened is one,
not a symbolic link to one. There is no other call, and no fault. -/
def duty : Duty sys Fault (TreeState ω) where
  guard c s := match c with
    | .unlink path => ∃ names, x.Reaches s path names
    | .opendir path | .rmdir path => ∃ names, x.Reaches s path names ∧ s.kinds names = some .dir
    | .readdir dir => ∃ left, s.streams dir = some left
    | .closedir _ => True
    | _ => False
  faulted _ _ := False

end DirTree

/-- The error of a call, other than `EISDIR` and `ENOENT` of `unlink`. -/
def Event.failure : Event → Option Errno
  | ⟨.unlink _, some .isDir⟩ | ⟨.unlink _, some .noEnt⟩ => none
  | ⟨.unlink _, e⟩ => e
  | ⟨.opendir _, .error e⟩ => some e
  | ⟨.rmdir _, e⟩ => e
  | _ => none

/-- The errors since the start, the first one first. -/
def failures (h : History) : List Errno := h.reverse.filterMap Event.failure

end FilemanagerHttpd.Server
