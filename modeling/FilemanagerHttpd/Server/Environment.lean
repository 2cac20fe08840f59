import FilemanagerHttpd.Library.Playback
import FilemanagerHttpd.Server.System

/-!
# Environments to play the server in

An environment answers each call lawfully. `quiet` is the one where nothing is there:
opening fails, reading would block, writing takes all it is given. Others are made
from it by answering some calls differently.
-/

namespace FilemanagerHttpd.Server

open Library

/-- A lawful answer to every call, after every history. -/
def Environment := (h : History) → (c : Sys) → {r : c.Answer // Lawful h c r}

namespace Environment

/-- A descriptor that is not open. -/
def freshFd (h : History) : Fd := (openFds h).foldr max 0 + 1

theorem lt_freshFd {h : History} {fd : Fd} (hm : fd ∈ openFds h) : fd < freshFd h := by
  have hle : ∀ l : List Fd, fd ∈ l → fd ≤ l.foldr max 0 := by
    intro l hl
    induction l with
    | nil => cases hl
    | cons a l ih =>
      rcases List.mem_cons.mp hl with rfl | hl
      · exact le_max_left _ _
      · exact le_trans (ih hl) (le_max_right _ _)
  exact Nat.lt_succ_of_le (hle _ hm)

theorem freshFd_not_mem (h : History) : freshFd h ∉ openFds h :=
  fun hm => lt_irrefl _ (lt_freshFd hm)

def opened (h : History) : {r : Except Errno Fd // ∀ fd, r = .ok fd → fd ∉ openFds h} :=
  ⟨.ok (freshFd h), fun fd he => by injection he with he; exact he ▸ freshFd_not_mem h⟩

def quiet : Environment := fun h c =>
  match c with
  | .read _ _ => ⟨.fail .wouldBlock, trivial⟩
  | .write _ data =>
    ⟨.wrote (min data.length maxWrite), Nat.min_le_left _ _, Nat.min_le_right _ _⟩
  | .fstat _ => ⟨.error .noEnt, trivial⟩
  | .stat _ => ⟨.error .noEnt, trivial⟩
  | .access _ => ⟨false, trivial⟩
  | .accept => ⟨.error .wouldBlock, trivial⟩
  | .openRead _ => ⟨.error .noEnt, trivial⟩
  | .openExcl _ => ⟨.error .noEnt, trivial⟩
  | .mkstemp _ => ⟨.error .noEnt, trivial⟩
  | .mkdir _ => ⟨none, trivial⟩
  | .rename _ _ => ⟨none, trivial⟩
  | .link _ _ => ⟨none, trivial⟩
  | .unlink _ => ⟨none, trivial⟩
  | .rmdir _ => ⟨none, trivial⟩
  | .chmod _ _ => ⟨none, trivial⟩
  | .opendir _ => ⟨.error .noEnt, trivial⟩
  | .readdir _ => ⟨none, trivial⟩
  | .pipe => ⟨some (freshFd h, freshFd h + 1), freshFd_not_mem h,
      fun hm => Nat.not_succ_lt_self (lt_freshFd hm), (Nat.succ_ne_self _).symm⟩
  | .fork => ⟨.parent, trivial⟩
  | .execve _ _ _ => ⟨.noEnt, trivial⟩
  | .gethostname => ⟨none, trivial⟩
  | .getpeername _ => ⟨none, trivial⟩
  | .nextNonce => ⟨(0 : Nat), trivial⟩
  | .uninit size => ⟨List.replicate size nul, List.length_replicate⟩
  | .close _ => ⟨(), trivial⟩
  | .closedir _ => ⟨(), trivial⟩
  | .dup2 _ _ => ⟨(), trivial⟩
  | .chdir _ => ⟨(), trivial⟩
  | .sleep _ => ⟨(), trivial⟩
  | .note _ => ⟨(), trivial⟩

/-- Playing against an environment records the calls. -/
def player (env : Environment) : Player posix := fun h c =>
  ⟨⟨(env h c).1, ⟨c, (env h c).1⟩ :: h⟩, (env h c).2, rfl⟩

end Environment

/-- Play a program in an environment: how it ends, and the history then. -/
def playIn {α : Type} (env : Environment) (p : Prog α) (h : History) : Prog α × History :=
  p.play env.player h

theorem playIn_returns {α : Type} (env : Environment) (p : Prog α) (h : History) {a : α}
    (hp : (playIn env p h).1.result? = some a) : Runs posix p h (.done a) (playIn env p h).2 :=
  Program.play_returns hp

/-- From the empty history, in the form of new events before old ones. -/
theorem playIn_returns_new {α : Type} (env : Environment) (p : Prog α) {a : α}
    (hp : (playIn env p []).1.result? = some a) :
    Runs posix p [] (.done a) ((playIn env p []).2 ++ []) := by
  rw [List.append_nil]; exact playIn_returns env p [] hp

theorem playIn_faults {α : Type} (env : Environment) (p : Prog α) (h : History) {f : Fault}
    (hp : (playIn env p h).1.fault? = some f) : Runs posix p h (.fault f) (playIn env p h).2 :=
  Program.play_faults hp

/-- A client that sends some bytes at once, then nothing, and reads nothing. -/
def sending (fd : Fd) (data : Bytes) : Environment := fun h c =>
  match c with
  | .read _ count =>
    if readsFrom fd h = [] then ⟨.got (data.take count), List.length_take_le _ _⟩
    else ⟨.fail .wouldBlock, trivial⟩
  | .write _ _ => ⟨.fail .wouldBlock, trivial⟩
  | c => Environment.quiet h c

/-- A configuration with nothing in it: no shares, no CGI programs, no users. -/
def bareConfig : Config where
  listenPort := 8000
  shares := []
  indexPatterns := []
  cgiPatterns := []
  availOps := .all
  guestOps := .all
  credentials := []
  fnmatch _ _ _ := false
  strcoll _ _ := true
  strerror _ := []
  md5 _ := []

end FilemanagerHttpd.Server
