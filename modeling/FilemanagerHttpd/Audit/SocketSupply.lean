import FilemanagerHttpd.Audit.FormFaults
import FilemanagerHttpd.Server.ServerConnection

/-!
# Reading from a finite supply

The peer sends so many bytes, whatever they are, and no more. What is left of them and what the
buffer still holds is all that a connection can read. The handlers are any that take some of
the bytes they are offered or say what they wait for.
-/

namespace FilemanagerHttpd.Audit

open Library Server

section Supply

/-- The socket delivers no more than what is left, and a `write` that succeeds has written
something. All other answers are any. -/
def Delivers (sock : Fd) (left : Nat) : (c : Sys) → c.Answer → Nat → Prop
  | .read fd count, .got data, left' =>
    data.length ≤ count ∧ left = (if fd = sock then data.length else 0) + left'
  | .write .., .wrote n, left' => 0 < n ∧ left' = left
  | _, _, left' => left' = left

def supplied (sock : Fd) : World sys Nat := Delivers sock

theorem Delivers.le {sock : Fd} {left left' : Nat} {c : Sys} {r : c.Answer}
    (h : Delivers sock left c r left') : left' ≤ left := by
  unfold Delivers at h
  split at h <;> omega

/-- The faults a run may stop at: neither a used up bound nor the null handler. -/
def Stop (f : Fault) : Prop := f ≠ .outOfFuel ∧ f ≠ .nullPointer .handler

instance (f : Fault) : Decidable (Stop f) := inferInstanceAs (Decidable (_ ∧ _))

theorem stop_of_wraps (f : Fault) (h : Wraps f) : Stop f := by
  rw [show f = .heapOverflow from h]
  decide

def stopDuty : Duty sys Fault Nat := ⟨fun _ _ => True, fun f _ => Stop f⟩

variable {α β υ : Type}

/-- `p` ends whatever it reads, in `Q` if it does not stop. -/
def Ends (sock : Fd) (p : Prog α) (Q : α → Nat → Prop) (left : Nat) : Prop :=
  wp (supplied sock) stopDuty p Q left

namespace Ends

variable {sock : Fd} {left : Nat} {Q R : α → Nat → Prop} {T : β → Nat → Prop}

theorem pure {a : α} (h : Q a left) : Ends sock (Pure.pure a) Q left := h

theorem fault {f : Fault} (h : Stop f) : Ends sock (.fault f : Prog α) Q left := h

/-- Nothing adds to the supply. -/
theorem left_le {p : Prog α} (h : Ends sock p Q left) :
    Ends sock p (fun a t => Q a t ∧ t ≤ left) left := by
  induction p generalizing left with
  | done a => exact ⟨h, le_refl left⟩
  | call c next ih =>
    refine ⟨trivial, fun r t hw => ?_⟩
    apply wp_mono (ih r (h.2 r t hw))
    intro a u hu
    exact ⟨hu.1, hu.2.trans (Delivers.le hw)⟩
  | fault f => exact h

theorem mono {p : Prog α} (h : Ends sock p R left) (hQ : ∀ a t, t ≤ left → R a t → Q a t) :
    Ends sock p Q left :=
  wp_mono h.left_le fun a t ht => hQ a t ht.2 ht.1

theorem seq {p : Prog α} {k : α → Prog β} (h : Ends sock p R left)
    (hk : ∀ a t, t ≤ left → R a t → Ends sock (k a) T t) : Ends sock (p >>= k) T left :=
  wp_seq h.left_le fun a t ht => hk a t ht.2 ht.1

theorem perform {c : Sys} {k : c.Answer → Prog β}
    (hk : ∀ r t, Delivers sock left c r t → Ends sock (k r) T t) :
    Ends sock (Server.perform c >>= k) T left := ⟨trivial, hk⟩

theorem ite {c : Prop} [Decidable c] {p q : Prog α} (hp : c → Ends sock p Q left)
    (hq : ¬ c → Ends sock q Q left) : Ends sock (if c then p else q) Q left := by
  by_cases hc : c
  · rw [if_pos hc]; exact hp hc
  · rw [if_neg hc]; exact hq hc

theorem lift {X : α → Prop} {e : Except Fault α} (he : Sound Stop X e)
    (hQ : ∀ a, e = .ok a → X a → Q a left) : Ends sock (liftM e) Q left := by
  cases e with
  | ok a => exact hQ a rfl he
  | error f => exact he

theorem wraps {X : α → Prop} {e : Except Fault α} (he : Sound Wraps X e) :
    Ends sock (liftM e) (fun a t => X a ∧ t = left) left :=
  lift (he.mono stop_of_wraps fun _ h => h) fun _ _ h => ⟨h, rfl⟩

/-- What is returned has been reached by a run. -/
theorem reached {p : Prog α} (h : Ends sock p Q left) :
    Ends sock p (fun a t => Q a t ∧ Runs (supplied sock) p left (.done a) t) left := wp_reached h

end Ends

end Supply

section Connection

variable {H : Type}

/-- What is left of the supply suffices for no wrap of the counters. -/
def supplyBound : Nat := 2 ^ 63

/-- The bytes of the buffer that are not processed. -/
def bytesAhead (conn : ServerConnection H) : Nat := conn.readSize - conn.readOffset

/-- The invariant of the buffer and the counters. -/
structure ConnInv (conn : ServerConnection H) : Prop where
  offset : conn.readOffset ≤ conn.readSize
  size : conn.readSize ≤ readBufferSize
  ahead : 0 < conn.readSize → conn.readOffset < conn.readSize
  body : conn.bodyReadLen ≤ conn.bodyLen
  idle : conn.rrs = .idle → conn.header = none ∧ conn.handler = none ∧ conn.chunkHdr = none ∧
    conn.bodyLen = 0 ∧ conn.bodyReadLen = 0

/-- The handler that the body and the trailer are read for. -/
def Live (conn : ServerConnection H) : Prop :=
  conn.rrs = .readBody ∨ conn.rrs = .readTrailer → conn.handler.isSome = true

variable (Fit : H → Prop)

/-- The invariant, with what keeps it: the buffer has its bytes, a request begins with counters
at 0, and the counters stay below the bound. -/
structure InSupply (conn : ServerConnection H) (left : Nat) : Prop extends ConnInv conn where
  filled : conn.readSize ≤ conn.readBuffer.length
  fresh : conn.rrs = .readHead → conn.chunkHdr = none ∧ conn.bodyLen = 0 ∧ conn.bodyReadLen = 0
  bounded : conn.bodyReadLen + bytesAhead conn + left < supplyBound
  fit : conn.rrs = .readBody → ∀ hdlr, conn.handler = some hdlr → Fit hdlr

/-- A connection at work on the bytes `data` of its buffer, which are the last ones. -/
structure AtBytes (conn : ServerConnection H) (data : Bytes) (left : Nat) : Prop where
  size : conn.readSize ≤ readBufferSize
  filled : conn.readSize ≤ conn.readBuffer.length
  inside : data.length ≤ conn.readSize
  body : conn.bodyReadLen ≤ conn.bodyLen
  awake : conn.rrs ≠ .idle
  fresh : conn.rrs = .readHead → conn.chunkHdr = none ∧ conn.bodyLen = 0 ∧ conn.bodyReadLen = 0
  bounded : conn.bodyReadLen + data.length + left < supplyBound
  fit : conn.rrs = .readBody → ∀ hdlr, conn.handler = some hdlr → Fit hdlr

variable {Fit} {conn : ServerConnection H} {data : Bytes} {left : Nat}

theorem InSupply.length_unread (h : InSupply Fit conn left) :
    conn.unread.length = bytesAhead conn := by
  have hfilled := h.filled
  rw [ServerConnection.unread, bytesAhead, List.length_drop, List.length_take]
  omega

theorem InSupply.atBytes (h : InSupply Fit conn left) (hawake : conn.rrs ≠ .idle) :
    AtBytes Fit conn conn.unread left where
  size := h.size
  filled := h.filled
  inside := by
    rw [h.length_unread, bytesAhead]
    omega
  body := h.body
  awake := hawake
  fresh := h.fresh
  bounded := h.length_unread ▸ h.bounded
  fit := h.fit

theorem InSupply.less {left' : Nat} (h : InSupply Fit conn left) (hle : left' ≤ left) :
    InSupply Fit conn left' := by
  have hb := h.bounded
  exact { h with bounded := by omega }

theorem bytesAhead_keep (h : AtBytes Fit conn data left) :
    bytesAhead (conn.keep data) = data.length := by
  have hin := h.inside
  unfold ServerConnection.keep bytesAhead
  by_cases hd : data = []
  · rw [if_pos hd, hd]
    rfl
  · rw [if_neg hd]
    show conn.readSize - (conn.readSize - data.length) = data.length
    omega

/-- The buffer goes on behind what has been processed. -/
theorem AtBytes.keep (h : AtBytes Fit conn data left) : InSupply Fit (conn.keep data) left := by
  have hin := h.inside
  have hsize := h.size
  have hfilled := h.filled
  have hahead := bytesAhead_keep h
  have hb := h.bounded
  by_cases hd : data = []
  · have heq : conn.keep data = { conn with readOffset := 0, readSize := 0 } := by
      rw [ServerConnection.keep, if_pos hd]
    rw [heq] at hahead ⊢
    exact ⟨⟨le_refl 0, Nat.zero_le _, id, h.body, fun hi => absurd hi h.awake⟩, Nat.zero_le _,
      h.fresh, by rw [hahead]; exact hb, h.fit⟩
  · have heq : conn.keep data = { conn with readOffset := conn.readSize - data.length } := by
      rw [ServerConnection.keep, if_neg hd]
    have hpos : 0 < data.length := List.length_pos_iff.mpr hd
    rw [heq] at hahead ⊢
    refine ⟨⟨Nat.sub_le _ _, hsize, fun _ => ?_, h.body, fun hi => absurd hi h.awake⟩, hfilled,
      h.fresh, by rw [hahead]; exact hb, h.fit⟩
    show conn.readSize - data.length < conn.readSize
    omega

end Connection

end FilemanagerHttpd.Audit
