import Mathlib

/-!
# Open files and the descriptors that refer to them

An open file is a stream whose other end is elsewhere, or a regular file at an offset. A
descriptor refers to an open file, and a duplicate of it refers to the same one: reading
or writing through either moves the offset of both.
-/

namespace FilemanagerHttpd.Library

/-- An open file, with what can still be read from a stream, or the contents and the offset. -/
inductive OpenFile (α : Type)
  | stream (rest : List α)
  | regular (contents : List α) (offset : Nat)

namespace OpenFile

variable {α : Type}

/-- What reads from here on deliver. -/
def ahead : OpenFile α → List α
  | .stream rest => rest
  | .regular contents offset => contents.drop offset

/-- After a read of `n` elements. -/
def skip (n : Nat) : OpenFile α → OpenFile α
  | .stream rest => .stream (rest.drop n)
  | .regular contents offset => .regular contents (offset + n)

/-- After a write. What is written to a stream goes to its other end. -/
def put (data : List α) : OpenFile α → OpenFile α
  | .stream rest => .stream rest
  | .regular contents offset =>
    .regular (contents.take offset ++ data ++ contents.drop (offset + data.length))
      (offset + data.length)

/-- Writing at the end of a file extends it, and leaves nothing to read behind the offset. -/
theorem put_at_end (contents data : List α) :
    (regular contents contents.length).put data =
      .regular (contents ++ data) (contents ++ data).length := by
  simp [put]

@[simp] theorem ahead_at_end (contents : List α) :
    (regular contents contents.length).ahead = [] := by simp [ahead]

@[simp] theorem ahead_skip (f : OpenFile α) (n : Nat) : (f.skip n).ahead = f.ahead.drop n := by
  cases f with
  | stream rest => rfl
  | regular contents offset => simp [ahead, skip, List.drop_drop]

end OpenFile

/-- The descriptors of a process, and the open files. -/
structure Descriptors (α : Type) where
  refers : Nat → Option Nat
  file : Nat → OpenFile α

namespace Descriptors

variable {α : Type}

/-- What reads from a descriptor deliver. -/
def ahead (t : Descriptors α) (fd : Nat) : List α :=
  match t.refers fd with
  | none => []
  | some d => (t.file d).ahead

/-- Change the open file that a descriptor refers to. -/
def modify (t : Descriptors α) (fd : Nat) (f : OpenFile α → OpenFile α) : Descriptors α :=
  match t.refers fd with
  | none => t
  | some d => { t with file := Function.update t.file d (f (t.file d)) }

/-- A new descriptor for a new open file. -/
def openAt (t : Descriptors α) (fd d : Nat) (f : OpenFile α) : Descriptors α :=
  ⟨Function.update t.refers fd (some d), Function.update t.file d f⟩

/-- `new` refers to what `old` refers to. -/
def dup (t : Descriptors α) (old new : Nat) : Descriptors α :=
  { t with refers := Function.update t.refers new (t.refers old) }

def close (t : Descriptors α) (fd : Nat) : Descriptors α :=
  { t with refers := Function.update t.refers fd none }

@[simp] theorem ahead_dup (t : Descriptors α) (old new : Nat) :
    (t.dup old new).ahead new = t.ahead old := by simp [ahead, dup]

theorem ahead_close {t : Descriptors α} {fd fd' : Nat} (h : fd' ≠ fd) :
    (t.close fd).ahead fd' = t.ahead fd' := by simp [ahead, close, Function.update_of_ne h]

/-- A descriptor and the open file it refers to. -/
def Has (t : Descriptors α) (fd d : Nat) (f : OpenFile α) : Prop :=
  t.refers fd = some d ∧ t.file d = f

theorem Has.ahead {t : Descriptors α} {fd d : Nat} {f : OpenFile α} (h : t.Has fd d f) :
    t.ahead fd = f.ahead := by rw [Descriptors.ahead, h.1, ← h.2]

theorem Has.modify {t : Descriptors α} {fd d : Nat} {f : OpenFile α} (h : t.Has fd d f)
    (g : OpenFile α → OpenFile α) : (t.modify fd g).Has fd d (g f) := by
  rw [Descriptors.modify, h.1]
  exact ⟨h.1, by simp [h.2]⟩

/-- Another open file stays as it is. -/
theorem Has.modify_other {t : Descriptors α} {fd fd' d d' : Nat} {f f' : OpenFile α}
    (h : t.Has fd d f) (h' : t.Has fd' d' f') (hne : d' ≠ d) (g : OpenFile α → OpenFile α) :
    (t.modify fd g).Has fd' d' f' := by
  rw [Descriptors.modify, h.1]
  exact ⟨h'.1, by simp [Function.update_of_ne hne, h'.2]⟩

theorem Has.openAt {t : Descriptors α} {fd d fd' d' : Nat} {f f' : OpenFile α} (h : t.Has fd d f)
    (hfd : fd ≠ fd') (hd : d ≠ d') : (t.openAt fd' d' f').Has fd d f :=
  ⟨(Function.update_of_ne hfd _ _).trans h.1, (Function.update_of_ne hd _ _).trans h.2⟩

theorem has_openAt (t : Descriptors α) (fd d : Nat) (f : OpenFile α) :
    (t.openAt fd d f).Has fd d f := by simp [Has, Descriptors.openAt]

end Descriptors

end FilemanagerHttpd.Library
