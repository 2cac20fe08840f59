import FilemanagerHttpd.Server.ResponseSender
import FilemanagerHttpd.Audit.BufferBytes

/-!
# The loops of the response sender, byte for byte

`Transfer` says what has gone to the socket and what has come from the file between
two moments. Each loop of the sender is described once in these terms.
-/

namespace FilemanagerHttpd.Audit

open Library Server

/-- The answers to the reads from the descriptor, when there is one. -/
def readsFromOpt (file : Option Fd) (h : History) : List ReadResult :=
  match file with
  | none => []
  | some fd => readsFrom fd h

/-- From `h` to `h'`, `sent` has gone to `sock`, and the reads from `file` gave `reads`. -/
structure Transfer (sock : Fd) (file : Option Fd) (h h' : History) (sent : Bytes)
    (reads : List ReadResult) : Prop where
  sent_eq : sentTo sock h' = sentTo sock h ++ sent
  reads_eq : readsFromOpt file h' = readsFromOpt file h ++ reads

namespace Transfer

variable {sock : Fd} {file : Option Fd} {h h' h'' : History} {s s' : Bytes}
  {g g' : List ReadResult}

theorem refl : Transfer sock file h h [] [] := ⟨by simp, by simp⟩

theorem trans (t : Transfer sock file h h' s g) (t' : Transfer sock file h' h'' s' g') :
    Transfer sock file h h'' (s ++ s') (g ++ g') := by
  constructor
  · rw [t'.sent_eq, t.sent_eq, List.append_assoc]
  · rw [t'.reads_eq, t.reads_eq, List.append_assoc]

/-- A call that neither writes to the socket nor reads from the file. -/
theorem quiet {e : Event} (t : Transfer sock file h h' s g) (hs : e.sent sock = [])
    (hg : ∀ fd, file = some fd → e.reads fd = []) :
    Transfer sock file h (e :: h') s g := by
  constructor
  · rw [sentTo_cons, hs, List.append_nil, t.sent_eq]
  · rw [← t.reads_eq]
    cases file with
    | none => rfl
    | some fd => rw [readsFromOpt, readsFromOpt, readsFrom_cons, hg fd rfl, List.append_nil]

theorem wrote {data : Bytes} {n : Nat} (t : Transfer sock file h h' s g) :
    Transfer sock file h (⟨.write sock data, .wrote n⟩ :: h') (s ++ data.take n) g := by
  constructor
  · rw [sentTo_cons, t.sent_eq, List.append_assoc]; simp [Event.sent]
  · rw [← t.reads_eq]
    cases file with
    | none => rfl
    | some fd => simp [readsFromOpt, readsFrom_cons, Event.reads]

theorem read {fd : Fd} {n : Nat} {r : ReadResult} (t : Transfer sock (some fd) h h' s g) :
    Transfer sock (some fd) h (⟨.read fd n, r⟩ :: h') s (g ++ [r]) := by
  constructor
  · rw [← t.sent_eq]; simp [sentTo_cons, Event.sent]
  · have hg := t.reads_eq
    simp only [readsFromOpt] at hg ⊢
    rw [readsFrom_cons, hg, List.append_assoc]; simp [Event.reads]

/-- What was transferred is what the new events transferred. -/
theorem of_append {new : History} (t : Transfer sock file h (new ++ h) s g) :
    s = sentTo sock new ∧ g = readsFromOpt file new := by
  have hs := t.sent_eq
  have hg := t.reads_eq
  rw [sentTo_append] at hs
  refine ⟨(List.append_cancel_left hs).symm, ?_⟩
  cases file with
  | none => simpa [readsFromOpt] using hg.symm
  | some fd =>
    simp only [readsFromOpt, readsFrom_append] at hg
    exact (List.append_cancel_left hg).symm

end Transfer

/-- What the writing loop has sent and what is left make up what there was to send. -/
theorem writeLoop_transfer (fuel : Nat) (sock : Fd) (file : Option Fd) {data : Bytes} {off : Nat}
    (hoff : off ≤ data.length) (h : History) :
    wp posix .none (writeLoop fuel sock data off) (fun r h' => ∃ sent,
      Transfer sock file h h' sent [] ∧ r.1 ≤ data.length ∧
        sent ++ data.drop r.1 = data.drop off ∧ (r.2 = none → r.1 = data.length)) h := by
  refine wp_iterate (I := fun off' h' => ∃ sent, Transfer sock file h h' sent [] ∧
    off' ≤ data.length ∧ sent ++ data.drop off' = data.drop off) (fun _ => trivial) ?_ fuel
    ⟨[], .refl, hoff, rfl⟩
  rintro off' h' ⟨sent, ht, hle, hsent⟩
  unfold writeRound
  by_cases hlt : off' < data.length
  · rw [if_pos hlt, perform_bind, wp_perform]
    refine ⟨trivial, fun r hr => ?_⟩
    cases r with
    | wrote n =>
      have hn : n ≤ (data.drop off').length := hr.1
      refine ⟨sent ++ (data.drop off').take n, ht.wrote, ?_, ?_⟩
      · rw [List.length_drop] at hn; omega
      · rw [List.append_assoc, ← List.drop_drop, List.take_append_drop, hsent]
    | fail e =>
      refine ⟨sent, ht.quiet rfl (fun _ _ => rfl), hle, hsent, ?_⟩
      simp
  · rw [if_neg hlt]
    exact ⟨sent, ht, hle, hsent, fun _ => by omega⟩

theorem mbReadFile_transfer (sock : Fd) (mb : MemBuf) (fd : Fd) (offset toRead : Nat)
    (h : History) :
    wp posix .none (mbReadFile mb fd offset toRead) (fun r h' =>
      Transfer sock (some fd) h h' [] [r.2] ∧
      match r.2 with
      | .got data => data.length ≤ toRead ∧ r.1.data = overwrite mb.data offset data
      | .fail _ => r.1 = mb) h := by
  unfold mbReadFile
  by_cases hlt : mb.dataLen < offset + toRead
  · rw [if_pos hlt]; trivial
  · rw [if_neg hlt]
    simp only [perform_bind, wp_perform]
    refine ⟨trivial, fun r hr => ?_⟩
    cases r with
    | got data => exact ⟨Transfer.read .refl, hr, rfl⟩
    | fail e => exact ⟨Transfer.read .refl, rfl⟩

/-- How the filling loop has ended, from the last of its reads. -/
def StopsWith (stop : FillStop) (reads : List ReadResult) : Prop :=
  match stop with
  | .full => True
  | .eof => reads.getLast? = some (.got [])
  | .failed e => reads.getLast? = some (.fail e)

/-- The filling loop puts what it reads behind what the buffer held. -/
theorem fillLoop_transfer (sock fd : Fd) {body : MemBuf} {filled toFill : Nat}
    (hle : filled ≤ toFill) (hlen : toFill ≤ body.dataLen) (h : History) :
    wp posix .none (fillLoop body fd filled toFill) (fun r h' => ∃ reads,
      Transfer sock (some fd) h h' [] reads ∧ r.1.dataLen = body.dataLen ∧
        r.2.1 = filled + (delivered reads).length ∧ r.2.1 ≤ toFill ∧
        r.1.data.take r.2.1 = body.data.take filled ++ delivered reads ∧
        (r.2.2 = .full → r.2.1 = toFill) ∧ StopsWith r.2.2 reads) h := by
  refine wp_iterate (I := fun (x : MemBuf × Nat) h' => ∃ reads,
    Transfer sock (some fd) h h' [] reads ∧ x.1.dataLen = body.dataLen ∧
      x.2 = filled + (delivered reads).length ∧ x.2 ≤ toFill ∧
      x.1.data.take x.2 = body.data.take filled ++ delivered reads) (fun _ => trivial) ?_
    (toFill + 1) ⟨[], .refl, rfl, rfl, hle, (List.append_nil _).symm⟩
  rintro ⟨mb, n⟩ h' ⟨reads, ht, hl, hn, hnle, htake⟩
  simp only at hl hn hnle htake
  simp only [fillRound]
  by_cases hlt : n < toFill
  · rw [if_pos hlt]
    refine wp_seq (mbReadFile_transfer sock mb fd n (toFill - n) h') ?_
    rintro ⟨mb', r⟩ h'' ⟨ht', hr⟩
    have hT : Transfer sock (some fd) h h'' [] (reads ++ [r]) := by simpa using ht.trans ht'
    cases r with
    | fail e =>
      obtain rfl : mb' = mb := hr
      refine ⟨_, hT, hl, ?_, hnle, ?_, by simp, by simp [StopsWith]⟩
      · simpa using hn
      · simpa using htake
    | got data =>
      obtain ⟨hd, hmb⟩ := hr
      simp only at hmb
      have hfit : n + data.length ≤ mb.data.length := by
        rw [MemBuf.dataLen] at hl; rw [hl]; exact le_trans (by omega) hlen
      have hlen' : mb'.dataLen = body.dataLen := by
        rw [MemBuf.dataLen, hmb, length_overwrite hfit]; exact hl
      have htake' : mb'.data.take (n + data.length) =
          body.data.take filled ++ delivered (reads ++ [.got data]) := by
        rw [hmb, take_overwrite hfit, htake, delivered_append, delivered_got, List.append_assoc]
      have hn' : n + data.length = filled + (delivered (reads ++ [.got data])).length := by
        rw [delivered_append, delivered_got, List.length_append]; omega
      cases data with
      | nil => exact ⟨_, hT, hlen', hn', hnle, htake', by simp, by simp [StopsWith]⟩
      | cons b data => exact ⟨_, hT, hlen', hn', by simp only; omega, htake'⟩
  · rw [if_neg hlt]
    exact ⟨reads, ht, hl, hn, hnle, htake, fun _ => by simp only; omega, trivial⟩

theorem ensureSize_spec (sock : Fd) (file : Option Fd) (body : MemBuf) (size : Nat) (h : History) :
    wp posix .none (ensureSize body size) (fun b h' =>
      Transfer sock file h h' [] [] ∧ size ≤ b.dataLen) h := by
  unfold ensureSize
  by_cases hlt : body.dataLen < size
  · rw [if_pos hlt, mbResize, if_neg (by omega)]
    split
    · simp only [perform_bind, wp_perform]
      refine ⟨trivial, fun fresh hf => ⟨.quiet .refl rfl fun _ _ => rfl, ?_⟩⟩
      have hfresh : List.length fresh = size - body.dataLen := hf
      simp only [MemBuf.dataLen, List.length_append] at hfresh hlt ⊢
      omega
    · trivial
  · rw [if_neg hlt]
    exact ⟨.refl, by omega⟩

theorem closeIf_transfer {sock : Fd} {file : Option Fd} {h h' : History} {s : Bytes}
    {g : List ReadResult} (t : Transfer sock file h h' s g) (cond : Bool) (fd : Option Fd) :
    wp posix .none (closeIf cond fd) (fun fd' h'' => Transfer sock file h h'' s g ∧
      fd' = if cond then none else fd) h' := by
  unfold closeIf
  cases cond with
  | false => exact ⟨t, rfl⟩
  | true =>
    cases fd with
    | none => exact ⟨t, rfl⟩
    | some fd =>
      simp only [if_true, closeFd, perform_bind, wp_perform]
      exact ⟨trivial, fun _ _ => ⟨t.quiet rfl fun _ _ => rfl, rfl⟩⟩

end FilemanagerHttpd.Audit
