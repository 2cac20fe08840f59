import FilemanagerHttpd.Audit.ReaderSteps

/-!
# A connection is a reader of requests

A turn of a connection is a number of steps of the reader: what it reads from its socket and what
its handlers are given is what the reader receives and gives.
-/

namespace FilemanagerHttpd.Audit

open Library Server

variable {cfg : Config} {H : Type} {ops : HandlerOps H} {K : HandlerContract cfg ops}
  {rest : Multiset Fd} {s₀ : ReadState} {h₀ h t u : History} {conn : ServerConnection H}

theorem unread_nil (hsize : conn.readSize = 0) : conn.unread = [] := by
  rw [ServerConnection.unread, hsize, List.take_zero, List.drop_nil]

/-- The empty buffer has been filled. -/
theorem Hearing.received {data : Bytes} (hc : Hearing K rest s₀ h₀ conn h)
    (hsize : conn.readSize = 0) (hne : data ≠ []) (hlen : data.length ≤ readBufferSize) :
    Hearing K rest s₀ h₀ { conn with readBuffer := data, readSize := data.length }
      (⟨.read conn.socketFd readBufferSize, .got data⟩ :: h) := by
  have hempty := unread_nil hsize
  have hunread : ({ conn with readBuffer := data, readSize := data.length } :
      ServerConnection H).unread = data := by
    show (data.take data.length).drop conn.readOffset = data
    rw [hc.fresh hsize, List.take_length, List.drop_zero]
  refine ⟨⟨⟨hc.allowed, hc.unread⟩, bufferEnd_unread le_rfl fun _ => hc.fresh hsize, hc.blank,
    hc.socket, holds_call hc.holds hlen rfl rfl, ?_⟩,
    fun _ _ hnil => absurd (hunread.symm.trans hnil) hne⟩
  rw [hunread]
  refine hc.reached.step (.received hempty hne hlen) ?_
  rw [heard_cons]
  cases data with
  | nil => exact absurd rfl hne
  | cons b data => exact congrArg (heard conn.socketFd h ++ ·) (if_pos rfl)

/-- A read that brings nothing. -/
theorem Hearing.missed {r : ReadResult} (hc : Hearing K rest s₀ h₀ conn h)
    (hlawful : Lawful h (.read conn.socketFd readBufferSize) r) (hr : r.bytes = []) :
    Hearing K rest s₀ h₀ conn (⟨.read conn.socketFd readBufferSize, r⟩ :: h) := by
  refine ⟨⟨hc.toConnAllowed, hc.toBufferEnd, hc.blank, hc.socket,
    holds_call hc.holds hlawful rfl rfl, hc.reached.quiet ?_⟩, hc.counted⟩
  rw [heard_cons]
  rcases r with (_ | ⟨b, data⟩) | e
  · exact List.append_nil _
  · cases hr
  · exact List.append_nil _

theorem fillReadBuffer_hears (hs : u <:+ h) (hc : Hearing K rest s₀ h₀ conn h)
    (dpr : DataProcessingResult) (isVeryIdle : Bool) :
    Leaves u (fillReadBuffer conn dpr isVeryIdle)
      (fun r t => Hearing K rest s₀ h₀ r.1 t ∧ r.1.rrs = conn.rrs) h := by
  refine .ite (fun _ => .pure hs ⟨hc, rfl⟩) fun hsize => ?_
  refine leaves_call hs fun r hlawful ht => ?_
  rcases r with (_ | ⟨b, data⟩) | e
  · exact .pure ht ⟨Hearing.missed hc hlawful rfl, rfl⟩
  · exact .pure ht ⟨Hearing.received hc (not_not.mp hsize) (List.cons_ne_nil b data) hlawful, rfl⟩
  · have hmissed := Hearing.missed hc hlawful rfl
    exact .ite (fun _ => .pure ht ⟨hmissed, rfl⟩) fun _ => .pure ht ⟨hmissed, rfl⟩

/-- The next request begins. -/
theorem Hearing.restarted (hc : Hearing K rest s₀ h₀ conn h) (hfin : conn.rrs = .readFinished)
    (hnone : conn.handler = none) : Hearing K rest s₀ h₀ (restart conn) h := by
  refine ⟨⟨⟨fun hdlr he => ?_, fun _ => hnone⟩, ⟨hc.filled, hc.fresh, hc.tail⟩, fun _ => rfl,
    hc.socket, hc.holds, hc.reached.silent (.restarted hfin rfl)⟩, fun he => by cases he⟩
  cases hnone.symm.trans he

section Turns

variable (R : ReadContract K)
include R

theorem readRound_hears (fuel : Nat) (hs : u <:+ h) (hc : Hearing K rest s₀ h₀ conn h)
    (dpr : DataProcessingResult) (isVeryIdle : Bool) :
    Leaves u (readRound fuel cfg ops (conn, dpr, isVeryIdle)) (AfterRound
      (fun x t => Hearing K rest s₀ h₀ x.1 t) (fun x t => Hearing K rest s₀ h₀ x.1 t)) h := by
  refine .ite (fun hgo => ?_) fun _ => .pure hs hc
  refine (fillReadBuffer_hears hs hc dpr isVeryIdle).seq ?_
  rintro ⟨c, d, v⟩ t ht ⟨hfilled, hrrs⟩
  dsimp only at hfilled hrrs ⊢
  refine .ite (fun _ => ?_) fun _ => .pure ht hfilled
  refine (appendData_hears R fuel ht hfilled (hrrs ▸ hgo.2.2) d).seq ?_
  rintro ⟨c', d'⟩ w hw hread
  exact .pure hw hread

/-- The response reads nothing from the socket, and takes its handler with it when it ends. -/
theorem progressStep_hears (hs : u <:+ h) (hc : Hearing K rest s₀ h₀ conn h)
    (dpr : DataProcessingResult) :
    Leaves u (progressStep ops conn dpr) (fun r t => Hearing K rest s₀ h₀ r.1 t) h := by
  refine .ite (fun _ => .pure hs hc) fun _ => ?_
  cases hhandler : conn.handler with
  | none => exact .pure hs hc
  | some hdlr =>
    have hbegun := hc.begun hhandler
    have hholds := hc.holds
    rw [connFds, hhandler, fdsIf_some] at hholds
    refine (works_apart hs (K.progressResponse conn.socketFd dpr h (hc.allowed hdlr hhandler))
      (R.apart dpr hc.socket (hc.allowed hdlr hhandler) (by rwa [← add_assoc])) hholds).seq ?_
    rintro ⟨hdlr', d, done⟩ t ht ⟨⟨_, ⟨rfl, hallowed⟩, hholds'⟩, hquiet⟩
    cases done with
    | false =>
      refine .pure ht (hc.handed (some hdlr') (fun hdlr'' he => ?_) hbegun hholds' hquiet)
      rw [← Option.some.inj he]
      exact hallowed
    | true =>
      rw [add_assoc] at hholds'
      refine (works_quiet hc.socket ht (K.free t hallowed) hholds').seq ?_
      rintro _ v hv ⟨⟨_, rfl, hfreed⟩, hquiet'⟩
      refine leaves_call hv fun _ _ hw => .pure hw ?_
      refine hc.handed none (fun hdlr'' he => by cases he) hbegun ?_ ?_
      · rw [fdsIf_none, add_assoc]
        exact holds_note hfreed _
      · rw [heard_cons, hquiet', hquiet]
        exact List.append_nil _

theorem connRound_hears (fuel : Nat) (hs : u <:+ h) (hc : Hearing K rest s₀ h₀ conn h)
    (dpr : DataProcessingResult) (isVeryIdle : Bool) :
    Leaves u (connRound fuel cfg ops (conn, dpr, isVeryIdle)) (AfterRound
      (fun x t => Hearing K rest s₀ h₀ x.1 t) (fun x t => Hearing K rest s₀ h₀ x.1 t)) h := by
  have hloop : Leaves u
      (Program.iterate .outOfFuel (readRound fuel cfg ops) fuel (conn, dpr, isVeryIdle))
      (fun x t => Hearing K rest s₀ h₀ x.1 t) h := by
    refine Leaves.iterate (I := fun x t => Hearing K rest s₀ h₀ x.1 t) ?_ fuel hs hc
    rintro ⟨c, d, v⟩ t ht hx
    exact readRound_hears R fuel ht hx d v
  refine hloop.seq ?_
  rintro ⟨c, d, v⟩ t ht hx
  refine (progressStep_hears R ht hx d).seq ?_
  rintro ⟨c', d'⟩ w hw hx'
  dsimp only at hx' ⊢
  refine .ite (fun _ => .pure hw hx') fun hgo => .ite (fun _ => .fault) fun _ => .ite
    (fun _ => .pure hw hx') fun _ => .pure hw ?_
  simp only [Bool.or_eq_true, not_or, bne_iff_ne, ne_eq, not_not, Option.isSome_iff_ne_none] at hgo
  exact Hearing.restarted hx' hgo.1.2 hgo.2

theorem connProcessDataReady_hears (fuel : Nat) (hs : u <:+ h) (hc : Hearing K rest s₀ h₀ conn h)
    (drs : DataReadySelector) (closeIfIdle : Bool) :
    Leaves u (connProcessDataReady fuel cfg ops conn drs closeIfIdle)
      (fun turn t => Hearing K rest s₀ h₀ turn.conn t) h := by
  have hloop : Leaves u (Program.iterate .outOfFuel (connRound fuel cfg ops) fuel
      (conn, dprInit, conn.rrs == .idle)) (fun x t => Hearing K rest s₀ h₀ x.1 t) h := by
    refine Leaves.iterate (I := fun x t => Hearing K rest s₀ h₀ x.1 t) ?_ fuel hs hc
    rintro ⟨c, d, v⟩ t ht hx
    exact connRound_hears R fuel ht hx d v
  refine hloop.seq ?_
  rintro ⟨c, d, v⟩ t ht hx
  refine (leaves_lift (X := fun turn => turn.conn = c) ht ?_).mono ?_
  · unfold finishTurn
    exact Sound.ite rfl ((Sound.always _).bind fun _ _ => (Sound.always _).bind fun _ _ => rfl)
  · rintro turn _ ⟨rfl, hsame⟩
    rw [hsame]
    exact hx

end Turns

end FilemanagerHttpd.Audit
