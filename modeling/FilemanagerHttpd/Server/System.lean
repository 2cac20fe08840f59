import FilemanagerHttpd.Library.Runs
import FilemanagerHttpd.Server.RequestHeader

/-!
# The calls the server makes

`Sys` lists the system calls of the modelled functions, together with notes: calls
without effect that mark where the source passes a point a theorem is about. The
answers are those of the manual pages. `posix` is the world whose state is the
history of all calls with their answers, newest first.
-/

namespace FilemanagerHttpd.Server

open Library

abbrev Fd := Nat
abbrev Path := Bytes

/-- The fields of `struct stat` that the source reads. -/
structure FileStat where
  isDir : Bool
  isReg : Bool
  mode : Nat
  size : Nat
  deriving DecidableEq, Repr

/-- `read`; no bytes stand for the end of the file. -/
inductive ReadResult
  | got (data : Bytes)
  | fail (e : Errno)
  deriving DecidableEq, Repr

inductive WriteResult
  | wrote (n : Nat)
  | fail (e : Errno)
  deriving DecidableEq, Repr

inductive ForkResult
  | parent | child | fail
  deriving DecidableEq, Repr

/-- Points of the source that leave no trace in system calls. -/
inductive Note
  /-- the login state of the request from here on -/
  | login (s : LoginState)
  /-- a handler has been created for the request -/
  | created (req : RequestHeader)
  /-- the handler has taken these bytes of the request body -/
  | consumed (data : Bytes)
  /-- the handler is told that the request is completely read -/
  | completed
  /-- the response has ended and its handler is freed; it is early when the connection stays
  open although the request is not completely read -/
  | finished (early : Bool)
  /-- the entries of a folder are rendered -/
  | listing
  deriving DecidableEq, Repr

inductive Sys
  | accept
  | read (fd : Fd) (count : Nat)
  | write (fd : Fd) (data : Bytes)
  | close (fd : Fd)
  | fstat (fd : Fd)
  | stat (path : Path)
  | access (path : Path)
  /-- `open(path, O_RDONLY)` -/
  | openRead (path : Path)
  /-- `open(path, O_RDWR | O_CREAT | O_EXCL, 0666)` -/
  | openExcl (path : Path)
  | mkstemp (template : Path)
  | mkdir (path : Path)
  | rename (old : Path) (new : Option Path)
  | link (old new : Path)
  | unlink (path : Path)
  | rmdir (path : Path)
  | chmod (path : Path) (mode : Nat)
  | opendir (path : Path)
  | readdir (dir : Fd)
  | closedir (dir : Fd)
  | pipe
  | fork
  | dup2 (old new : Fd)
  | chdir (path : Path)
  | execve (path : Path) (argv envp : List Bytes)
  | gethostname
  | getpeername (fd : Fd)
  /-- the static counter of `auth_getAuthResponseHeader`, which starts from the time -/
  | nextNonce
  | sleep (seconds : Nat)
  /-- what a freshly allocated block of this size happens to hold -/
  | uninit (size : Nat)
  | note (n : Note)
  deriving DecidableEq, Repr

namespace Sys

@[reducible] def Answer : Sys → Type
  | read .. => ReadResult
  | write .. => WriteResult
  | fstat _ | stat _ => Except Errno FileStat
  | accept | openRead _ | openExcl _ | opendir _ => Except Errno Fd
  | mkstemp _ => Except Errno (Path × Fd)
  | access _ => Bool
  -- no error stands for a result of 0
  | mkdir _ | rename .. | link .. | unlink _ | rmdir _ | chmod .. => Option Errno
  | readdir _ | gethostname | getpeername _ => Option Bytes
  | pipe => Option (Fd × Fd)
  | fork => ForkResult
  -- `execve` answers only when it fails
  | execve .. => Errno
  | nextNonce => Nat
  | uninit _ => Bytes
  | close _ | closedir _ | dup2 .. | chdir _ | sleep _ | note _ => Unit

/-- The calls that change the file system. -/
def mutates : Sys → Bool
  | openExcl _ | mkstemp _ | mkdir _ | rename .. | link .. | unlink _ | rmdir _ | chmod .. => true
  | _ => false

end Sys

/-- The server's signature. -/
abbrev sys : Signature := ⟨Sys, Sys.Answer⟩

abbrev Prog (α : Type) := Program sys Fault α

/-- A system call. -/
def perform (c : Sys) : Prog c.Answer := Program.ask (S := sys) c

@[simp] theorem perform_bind {β : Type} (c : Sys) (k : c.Answer → Prog β) :
    @Bind.bind Prog _ (no_index c.Answer) β (perform c) k = Program.call c k := rfl

structure Event where
  call : Sys
  answer : call.Answer

/-- The calls made so far with their answers, newest first. -/
abbrev History := List Event

/-- The descriptors a call has opened. -/
def Event.opens : Event → List Fd
  | ⟨.accept, .ok fd⟩ => [fd]
  | ⟨.openRead _, .ok fd⟩ => [fd]
  | ⟨.openExcl _, .ok fd⟩ => [fd]
  | ⟨.opendir _, .ok fd⟩ => [fd]
  | ⟨.mkstemp _, .ok (_, fd)⟩ => [fd]
  | ⟨.pipe, some (r, w)⟩ => [r, w]
  | _ => []

/-- The descriptors a call has closed. -/
def Event.closes : Event → List Fd
  | ⟨.close fd, _⟩ => [fd]
  | ⟨.closedir fd, _⟩ => [fd]
  | _ => []

/-- The descriptors opened in a history and not closed since. -/
def openFds : History → List Fd
  | [] => []
  | e :: h => e.opens ++ (openFds h).filter (· ∉ e.closes)

/-- The most bytes that one `write` transfers on Linux. -/
def maxWrite : Nat := 0x7ffff000

/-- The bytes that `mkstemp` puts for the six X. -/
def isTempChar (b : Byte) : Bool :=
  (48 ≤ b && b ≤ 57) || (65 ≤ b && b ≤ 90) || (97 ≤ b && b ≤ 122)

/-- What the manual pages say about an answer, after the given history. -/
def Lawful (h : History) : (c : Sys) → c.Answer → Prop
  | .read _ count, .got data => data.length ≤ count
  | .write _ data, .wrote n => n ≤ data.length ∧ n ≤ maxWrite
  | .accept, .ok fd => fd ∉ openFds h
  | .openRead _, .ok fd => fd ∉ openFds h
  | .openExcl _, .ok fd => fd ∉ openFds h
  | .opendir _, .ok fd => fd ∉ openFds h
  | .mkstemp template, .ok (path, fd) =>
    fd ∉ openFds h ∧ template.length = path.length ∧
      template.take (template.length - 6) = path.take (template.length - 6) ∧
      (path.drop (template.length - 6)).all isTempChar
  | .pipe, some (r, w) => r ∉ openFds h ∧ w ∉ openFds h ∧ r ≠ w
  | .readdir _, some name => name ≠ [] ∧ slash ∉ name ∧ nul ∉ name
  | .gethostname, some name => nul ∉ name
  | .getpeername _, some name => nul ∉ name
  | .uninit size, data => data.length = size
  | _, _ => True

/-- The world of histories. -/
def posix : World sys History := fun h c r h' => Lawful h c r ∧ h' = ⟨c, r⟩ :: h

theorem wp_perform {α : Type} {D : Duty sys Fault History} (c : Sys) (next : c.Answer → Prog α)
    (Q : α → History → Prop) (h : History) :
    wp posix D (Program.call (S := sys) c next) Q h ↔
      D.guard c h ∧ ∀ r, Lawful h c r → wp posix D (next r) Q (⟨c, r⟩ :: h) := by
  refine (wp_call (S := sys) c next Q h).trans ?_
  refine and_congr_right fun _ => forall_congr' fun r => ?_
  exact ⟨fun hw hl => hw _ ⟨hl, rfl⟩, fun hw s' hs => hs.2 ▸ hw hs.1⟩

/-- The bytes that an event has written to `fd`. -/
def Event.sent (fd : Fd) : Event → Bytes
  | ⟨.write fd' data, .wrote n⟩ => if fd' = fd then data.take n else []
  | _ => []

/-- The answer of an event that reads from `fd`. -/
def Event.reads (fd : Fd) : Event → List ReadResult
  | ⟨.read fd' _, r⟩ => if fd' = fd then [r] else []
  | _ => []

/-- The bytes written to `fd`, in the order they were written. -/
def sentTo (fd : Fd) (h : History) : Bytes := h.reverse.flatMap (Event.sent fd)

/-- The answers to the reads from `fd`, in the order they were given. -/
def readsFrom (fd : Fd) (h : History) : List ReadResult := h.reverse.flatMap (Event.reads fd)

def ReadResult.bytes : ReadResult → Bytes
  | .got data => data
  | .fail _ => []

/-- The bytes that a sequence of reads has delivered. -/
def delivered (rs : List ReadResult) : Bytes := rs.flatMap ReadResult.bytes

@[simp] theorem sentTo_nil (fd : Fd) : sentTo fd [] = [] := rfl
@[simp] theorem readsFrom_nil (fd : Fd) : readsFrom fd [] = [] := rfl
@[simp] theorem delivered_nil : delivered [] = [] := rfl

@[simp] theorem delivered_append (rs rs' : List ReadResult) :
    delivered (rs ++ rs') = delivered rs ++ delivered rs' := by simp [delivered]

@[simp] theorem delivered_got (data : Bytes) : delivered [.got data] = data := by
  simp [delivered, ReadResult.bytes]

@[simp] theorem delivered_fail (e : Errno) : delivered [.fail e] = [] := rfl

theorem sentTo_cons (fd : Fd) (e : Event) (h : History) :
    sentTo fd (e :: h) = sentTo fd h ++ e.sent fd := by
  simp [sentTo]

theorem readsFrom_cons (fd : Fd) (e : Event) (h : History) :
    readsFrom fd (e :: h) = readsFrom fd h ++ e.reads fd := by
  simp [readsFrom]

theorem sentTo_append (fd : Fd) (new old : History) :
    sentTo fd (new ++ old) = sentTo fd old ++ sentTo fd new := by
  simp [sentTo]

theorem readsFrom_append (fd : Fd) (new old : History) :
    readsFrom fd (new ++ old) = readsFrom fd old ++ readsFrom fd new := by
  simp [readsFrom]

/-- `mb_resize`. The bytes behind the old ones are not initialised. -/
def mbResize (mb : MemBuf) (newSize : Nat) : Prog MemBuf :=
  if newSize ≤ mb.dataLen then return ⟨mb.data.take newSize⟩
  else if newSize + 1 < uintSize then do
    let fresh ← perform (.uninit (newSize - mb.dataLen))
    return ⟨mb.data ++ fresh⟩
  else .fault .heapOverflow

/-- `EBADF`: the answer to a call with the descriptor -1. -/
def badDescriptor : Errno := .other 9

/-- `mb_readFile`; the source aborts when the range exceeds the buffer. -/
def mbReadFile (mb : MemBuf) (fd : Option Fd) (bufOffset toRead : Nat) :
    Prog (MemBuf × ReadResult) :=
  if mb.dataLen < bufOffset + toRead then .fault .exited
  else match fd with
    | none => return (mb, .fail badDescriptor)
    | some fd => do
      match ← perform (.read fd toRead) with
      | .got data => return (⟨overwrite mb.data bufOffset data⟩, .got data)
      | .fail e => return (mb, .fail e)

/-- `close`, which has no effect on the descriptor -1. -/
def closeFd : Option Fd → Prog Unit
  | none => return ()
  | some fd => perform (.close fd)

/-- `if( cond ) { close(fd); fd = -1; }` -/
def closeIf (cond : Bool) (fd : Option Fd) : Prog (Option Fd) :=
  if cond then do
    closeFd fd
    return none
  else return fd

end FilemanagerHttpd.Server
