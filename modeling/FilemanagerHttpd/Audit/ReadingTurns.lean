import FilemanagerHttpd.Audit.ConnectionTable
import FilemanagerHttpd.Audit.RequestReading

/-!
# The turns of a connection come to their end

`Reading` has the states between the steps of the loops of `conn_processDataReady`, from the
opening of a connection on. Every one of them keeps the invariant, and from every one of them
the loops end: the bytes that are left and ahead become fewer, or the loop that reads stops.
-/

namespace FilemanagerHttpd.Audit

open Library Server

variable {H : Type} {cfg : Config} {ops : Nat → HandlerOps H} {sock : Fd}

/-- The condition of the loop that reads. -/
def Reads (conn : ServerConnection H) (dpr : DataProcessingResult) : Prop :=
  dpr.closeConn = false ∧ dpr.reqState = .ready ∧ conn.rrs ≠ .readFinished

instance (conn : ServerConnection H) (dpr : DataProcessingResult) : Decidable (Reads conn dpr) :=
  inferInstanceAs (Decidable (_ ∧ _))

/-- The rounds that a turn can need. -/
def enoughFuel (left : Nat) : Nat := 2 * left + uintSize

variable (cfg ops sock)

/-- The states in which a connection reads, with what is left of the supply. A turn ends
behind the sending; the next one begins when the handler that a body or a trailer needs is
still there. -/
inductive Reading : ServerConnection H → DataProcessingResult → Nat → Prop
  | opened {left : Nat} : left < supplyBound → Reading (connNew sock) dprInit left
  | fill {conn : ServerConnection H} {dpr : DataProcessingResult} {left left' : Nat}
      {isVeryIdle : Bool} {r : ServerConnection H × DataProcessingResult × Bool} :
      Reading conn dpr left → Reads conn dpr →
      Runs (supplied sock) (fillReadBuffer conn dpr isVeryIdle) left (.done r) left' →
      Reading r.1 r.2.1 left'
  | append {conn : ServerConnection H} {dpr : DataProcessingResult} {left left' fuel : Nat}
      {r : ServerConnection H × DataProcessingResult} :
      Reading conn dpr left → Reads conn dpr → conn.readSize ≠ 0 → uintSize ≤ fuel →
      Runs (supplied sock) (appendData fuel cfg (ops fuel) conn dpr) left (.done r) left' →
      Reading r.1 r.2 left'
  | again {conn : ServerConnection H} {dpr : DataProcessingResult} {left left' fuel : Nat}
      {r : ServerConnection H × DataProcessingResult} :
      Reading conn dpr left → ¬ Reads conn dpr → uintSize ≤ fuel →
      Runs (supplied sock) (progressStep (ops fuel) conn dpr) left (.done r) left' →
      r.1.rrs = .readFinished → r.1.handler = none → Reading (restart r.1) r.2 left'
  | turn {conn : ServerConnection H} {dpr : DataProcessingResult} {left left' fuel : Nat}
      {r : ServerConnection H × DataProcessingResult} :
      Reading conn dpr left → ¬ Reads conn dpr → uintSize ≤ fuel →
      Runs (supplied sock) (progressStep (ops fuel) conn dpr) left (.done r) left' →
      Live r.1 → Reading r.1 dprInit left'

variable {cfg ops sock} {Fit : H → Prop} {conn : ServerConnection H} {dpr : DataProcessingResult}
  {left : Nat}

section Steps

/-- Filling the empty buffer moves bytes from the supply, or the loop stops. -/
structure BufferFilled (Fit : H → Prop) (conn : ServerConnection H) (left : Nat)
    (r : ServerConnection H × DataProcessingResult × Bool) (left' : Nat) : Prop
    extends InSupply Fit r.1 left' where
  socket : r.1.socketFd = conn.socketFd
  rrs : r.1.rrs = conn.rrs
  handler : r.1.handler = conn.handler
  total : left' + bytesAhead r.1 = left + bytesAhead conn
  reads : Reads r.1 r.2.1 → r.1.readSize ≠ 0
  stops : r.1.readSize ≠ 0 → r.2.1.closeConn = false ∧ r.2.1.reqState = .ready

theorem fillReadBuffer_ends (hsock : conn.socketFd = sock) (h : InSupply Fit conn left)
    (hreads : Reads conn dpr) (isVeryIdle : Bool) :
    Ends sock (fillReadBuffer conn dpr isVeryIdle) (BufferFilled Fit conn left) left := by
  refine .ite (fun hne => ?_) fun hempty => ?_
  · exact .pure ⟨h, rfl, rfl, rfl, rfl, fun _ => hne, fun _ => ⟨hreads.1, hreads.2.1⟩⟩
  have hempty : conn.readSize = 0 := not_not.mp hempty
  have hoff : conn.readOffset = 0 := Nat.le_zero.mp (hempty ▸ h.offset)
  have hahead : bytesAhead conn = 0 := by
    rw [bytesAhead, hempty]
    exact Nat.zero_sub _
  refine .perform fun r t ht => ?_
  have hstopped : ∀ d : DataProcessingResult, t = left → ¬ Reads conn d →
      BufferFilled Fit conn left (conn, d, isVeryIdle) t := by
    intro d heq hno
    exact ⟨heq ▸ h, rfl, rfl, rfl, by rw [heq], fun hr => absurd hr hno,
      fun hne => absurd hempty hne⟩
  rcases r with (_ | ⟨b, data⟩) | e
  · obtain ⟨-, heq⟩ : _ ∧ left = (if conn.socketFd = sock then 0 else 0) + t := ht
    refine .pure (hstopped _ ?_ fun hr => by cases hr.1)
    rw [heq, ite_self, Nat.zero_add]
  · obtain ⟨hcount, heq⟩ : (b :: data).length ≤ readBufferSize ∧
      left = (if conn.socketFd = sock then (b :: data).length else 0) + t := ht
    rw [if_pos hsock] at heq
    have hb := h.bounded
    have hpos : 0 < (b :: data).length := Nat.succ_pos _
    have hnew : bytesAhead { conn with
        readBuffer := b :: data, readSize := (b :: data).length } = (b :: data).length := by
      show (b :: data).length - conn.readOffset = _
      rw [hoff]
      rfl
    refine .pure ⟨⟨⟨?_, hcount, fun _ => ?_, h.body, h.idle⟩, le_refl _, h.fresh, ?_, h.fit⟩, rfl,
      rfl, rfl, ?_, fun _ => hpos.ne', fun _ => ⟨hreads.1, hreads.2.1⟩⟩
    · show conn.readOffset ≤ _
      rw [hoff]
      exact Nat.zero_le _
    · show conn.readOffset < _
      rw [hoff]
      exact hpos
    · rw [hnew]
      show conn.bodyReadLen + _ + _ < _
      omega
    · rw [hnew, hahead, heq, Nat.add_zero, Nat.add_comm]
  · have heq : t = left := ht
    refine .ite (fun _ => ?_) fun _ => ?_
    · exact .pure (hstopped _ heq fun hr => by cases hr.2.1)
    · exact .pure (hstopped _ heq fun hr => by cases hr.1)

/-- Sending leaves the reading side as it is, but for the handler. -/
structure Sent (Fit : H → Prop) (conn : ServerConnection H)
    (r : ServerConnection H × DataProcessingResult) (left : Nat) : Prop
    extends InSupply Fit r.1 left where
  socket : r.1.socketFd = conn.socketFd
  rrs : r.1.rrs = conn.rrs
  same : bytesAhead r.1 = bytesAhead conn

theorem progressStep_ends {o : HandlerOps H} (hops : TakesBody Fit sock o)
    (h : InSupply Fit conn left) :
    Ends sock (progressStep o conn dpr) (Sent Fit conn) left := by
  refine .ite (fun _ => .pure ⟨h, rfl, rfl, rfl⟩) fun _ => ?_
  cases hhdlr : conn.handler with
  | none => exact .pure ⟨h, rfl, rfl, rfl⟩
  | some hdlr =>
    have hawake : conn.rrs ≠ .idle := by
      intro hi
      rw [(h.idle hi).2.1] at hhdlr
      cases hhdlr
    have hset : ∀ (hdlr' : Option H) (t : Nat), t ≤ left →
        (conn.rrs = .readBody → ∀ x, hdlr' = some x → Fit x) →
        InSupply Fit { conn with handler := hdlr' } t := by
      intro hdlr' t ht hfit
      have hless := h.less ht
      exact ⟨⟨h.offset, h.size, h.ahead, h.body, fun hi => absurd hi hawake⟩, h.filled, h.fresh,
        hless.bounded, hfit⟩
    refine .seq (hops.progressResponse hdlr conn.socketFd dpr left) ?_
    rintro ⟨hdlr', dpr', done⟩ t ht hfit
    dsimp only at hfit
    cases done with
    | false =>
      refine .pure ⟨hset (some hdlr') t ht fun hb x hx => ?_, rfl, rfl, rfl⟩
      cases hx
      exact hfit (h.fit hb hdlr hhdlr)
    | true =>
      refine .seq (hops.free hdlr' t) fun _ u hu _ => .perform fun _ v hv => ?_
      exact .pure ⟨hset none v ((hv.le.trans hu).trans ht) nofun, rfl, rfl, rfl⟩

theorem InSupply.restart (h : InSupply Fit conn left) (hhdlr : conn.handler = none) :
    InSupply Fit (restart conn) left where
  offset := h.offset
  size := h.size
  ahead := h.ahead
  body := le_refl 0
  idle := fun _ => ⟨rfl, hhdlr, rfl, rfl, rfl⟩
  filled := h.filled
  fresh := nofun
  bounded := by
    have hb := h.bounded
    show 0 + bytesAhead conn + left < supplyBound
    omega
  fit := nofun

end Steps

section Reachable

/-- What is left and what is ahead. -/
def bytesToCome (conn : ServerConnection H) (left : Nat) : Nat := left + bytesAhead conn

/-- The invariant holds in every state in which a connection reads. -/
theorem Reading.inv (hops : ∀ fuel, uintSize ≤ fuel → TakesBody Fit sock (ops fuel))
    (h : Reading cfg ops sock conn dpr left) :
    InSupply Fit conn left ∧ conn.socketFd = sock ∧ Live conn := by
  induction h with
  | opened hleft =>
    refine ⟨⟨⟨le_refl 0, Nat.zero_le _, id, le_refl 0, nofun⟩, le_refl 0,
      fun _ => ⟨rfl, rfl, rfl⟩, ?_, nofun⟩, rfl, nofun⟩
    show 0 + 0 + _ < _
    omega
  | fill _ hreads hrun ih =>
    obtain ⟨hin, hsock, hlive⟩ := ih
    have hfilled := wp_result (fillReadBuffer_ends hsock hin hreads _) hrun
    refine ⟨hfilled.toInSupply, hfilled.socket.trans hsock, ?_⟩
    unfold Live
    rw [hfilled.rrs, hfilled.handler]
    exact hlive
  | @append conn dpr left left' fuel r _ hreads hne hfuel hrun ih =>
    obtain ⟨hin, hsock, hlive⟩ := ih
    have hends : Ends sock (appendData fuel cfg (ops fuel) conn dpr) _ left :=
      appendData_ends (hops fuel hfuel) (lt_of_lt_of_le (by decide) hfuel) hin hlive
        (Nat.pos_of_ne_zero hne) hreads.2.2
    have hprogress := (wp_result hends hrun).1
    have hawake := (appendData_awake conn dpr).returns hrun
    refine ⟨hprogress.toInSupply, hawake.socket.trans hsock, fun hrrs => ?_⟩
    apply hprogress.handler
    rcases hrrs with hb | ht
    · rw [hb]
      nofun
    · rw [ht]
      nofun
  | again _ _ hfuel hrun hfin hnone ih =>
    obtain ⟨hin, hsock, hlive⟩ := ih
    have hsent := wp_result (progressStep_ends (hops _ hfuel) hin) hrun
    exact ⟨hsent.toInSupply.restart hnone, hsent.socket.trans hsock, nofun⟩
  | turn _ _ hfuel hrun hlive ih =>
    obtain ⟨hin, hsock, -⟩ := ih
    have hsent := wp_result (progressStep_ends (hops _ hfuel) hin) hrun
    exact ⟨hsent.toInSupply, hsent.socket.trans hsock, hlive⟩

/-- A call of `appendData` with bytes ahead makes progress. -/
theorem Reading.progress (hops : ∀ fuel, uintSize ≤ fuel → TakesBody Fit sock (ops fuel))
    (h : Reading cfg ops sock conn dpr left) (hreads : Reads conn dpr) (hsize : 0 < conn.readSize)
    {fuel : Nat} (hfuel : uintSize ≤ fuel) :
    Ends sock (appendData fuel cfg (ops fuel) conn dpr)
      (fun r t => Progress Fit (bytesAhead conn) r t ∧
        (conn.rrs = .idle → bytesAhead r.1 < bytesAhead conn) ∧
        Reading cfg ops sock r.1 r.2 t) left := by
  obtain ⟨hin, -, hlive⟩ := h.inv hops
  have hends : Ends sock (appendData fuel cfg (ops fuel) conn dpr) _ left :=
    appendData_ends (hops fuel hfuel) (lt_of_lt_of_le (by decide) hfuel) hin hlive hsize
      hreads.2.2
  refine wp_mono (wp_reached hends) ?_
  rintro r t ⟨⟨hprogress, hidle⟩, hrun⟩
  exact ⟨hprogress, hidle, .append h hreads hsize.ne' hfuel hrun⟩

/-- The bytes to come, and whether the loop that reads goes on. -/
def readMeasure (x : TurnState H) (left : Nat) : Nat :=
  2 * bytesToCome x.1 left + if Reads x.1 x.2.1 then 1 else 0

/-- What the loop that reads keeps: nothing is added, and an idle connection stays idle until it
takes a byte. -/
structure Fewer (conn : ServerConnection H) (left : Nat) (c : ServerConnection H) (t : Nat) :
    Prop where
  le : bytesToCome c t ≤ bytesToCome conn left
  idle : conn.rrs = .idle → bytesToCome c t < bytesToCome conn left ∨ c.rrs = .idle

theorem Fewer.refl (conn : ServerConnection H) (left : Nat) : Fewer conn left conn left :=
  ⟨le_refl _, fun hi => .inr hi⟩

theorem Fewer.trans {c d : ServerConnection H} {t u : Nat} (h : Fewer conn left c t)
    (h' : Fewer c t d u) : Fewer conn left d u where
  le := h'.le.trans h.le
  idle := fun hi => by
    rcases h.idle hi with hlt | hc
    · exact .inl (h'.le.trans_lt hlt)
    · exact (h'.idle hc).imp_left fun hlt => hlt.trans_le h.le

/-- A round of the loop that reads. -/
theorem readRound_ends (hops : ∀ fuel, uintSize ≤ fuel → TakesBody Fit sock (ops fuel)) {fuel : Nat}
    (hfuel : uintSize ≤ fuel) (h : Reading cfg ops sock conn dpr left) (isVeryIdle : Bool) :
    Ends sock (readRound fuel cfg (ops fuel) (conn, dpr, isVeryIdle)) (AfterRound
      (fun y t => Reading cfg ops sock y.1 y.2.1 t ∧ Fewer conn left y.1 t ∧
        readMeasure y t < readMeasure (conn, dpr, isVeryIdle) left)
      (fun r t => Reading cfg ops sock r.1 r.2.1 t ∧ Fewer conn left r.1 t ∧
        ¬ Reads r.1 r.2.1)) left := by
  refine .ite (fun hgo => ?_) fun hstop => .pure ⟨h, .refl conn left, hstop⟩
  obtain ⟨hin, hsock, -⟩ := h.inv hops
  refine .seq (fillReadBuffer_ends hsock hin hgo isVeryIdle).reached ?_
  rintro ⟨c, d, v⟩ t - ⟨hfilled, hrun⟩
  have hreading : Reading cfg ops sock c d t := .fill h hgo hrun
  have htotal : bytesToCome c t = bytesToCome conn left := hfilled.total
  have hfew : Fewer conn left c t := ⟨htotal.le, fun hi => .inr (hfilled.rrs.trans hi)⟩
  have hstart : readMeasure (conn, dpr, isVeryIdle) left = 2 * bytesToCome conn left + 1 := by
    show _ + (if Reads conn dpr then 1 else 0) = _
    rw [if_pos (show Reads conn dpr from hgo)]
  refine .ite (fun hne => ?_) fun hempty => .pure ⟨hreading, hfew, ?_⟩
  · have hreads : Reads c d := by
      obtain ⟨hopen, hready⟩ := hfilled.stops hne
      exact ⟨hopen, hready, fun hfin => hgo.2.2 (hfilled.rrs.symm.trans hfin)⟩
    refine .seq (hreading.progress hops hreads (Nat.pos_of_ne_zero hne) hfuel) ?_
    rintro ⟨c', d'⟩ u hu ⟨hprogress, hidle, hreading'⟩
    dsimp only at hidle hreading'
    have hle : bytesAhead c' ≤ bytesAhead c := hprogress.le
    have hless : Fewer c t c' u := by
      refine ⟨Nat.add_le_add hu hle, fun hi => .inl ?_⟩
      exact Nat.add_lt_add_of_le_of_lt hu (hidle hi)
    refine .pure ⟨hreading', hfew.trans hless, ?_⟩
    show 2 * bytesToCome c' u + (if Reads c' d' then 1 else 0) < _
    rw [hstart, ← htotal]
    unfold bytesToCome
    rcases hprogress.moved with hlt | hstop
    · dsimp only at hlt
      split <;> omega
    · have hno : ¬ Reads c' d' := by
        rintro ⟨-, hready, hopen⟩
        exact hstop.elim (absurd hready) hopen
      rw [if_neg hno]
      omega
  · have hno : ¬ Reads c d := fun hr => hempty (hfilled.reads hr)
    show 2 * bytesToCome c t + (if Reads c d then 1 else 0) < _
    rw [hstart, htotal, if_neg hno]
    omega

/-- The loop that reads. -/
theorem readLoop_ends (hops : ∀ fuel, uintSize ≤ fuel → TakesBody Fit sock (ops fuel)) {fuel : Nat}
    (hfuel : enoughFuel left ≤ fuel) (h : Reading cfg ops sock conn dpr left)
    (isVeryIdle : Bool) :
    Ends sock (Program.iterate .outOfFuel (readRound fuel cfg (ops fuel)) fuel
      (conn, dpr, isVeryIdle)) (fun r t => Reading cfg ops sock r.1 r.2.1 t ∧
        Fewer conn left r.1 t ∧ ¬ Reads r.1 r.2.1) left := by
  have huint : uintSize ≤ fuel := (Nat.le_add_left _ _).trans hfuel
  refine wp_iterate_counted (I := fun k x t => Reading cfg ops sock x.1 x.2.1 t ∧
    Fewer conn left x.1 t ∧ readMeasure x t = k) ?_ fuel ⟨h, .refl conn left, rfl⟩ ?_
  · rintro k ⟨c, d, v⟩ t ⟨hc, hfew, rfl⟩
    refine wp_mono (readRound_ends hops huint hc v) ?_
    rintro (y | r) u hu
    · exact ⟨readMeasure y u, hu.2.2, hu.1, hfew.trans hu.2.1, rfl⟩
    · exact ⟨hu.1, hfew.trans hu.2.1, hu.2.2⟩
  · have hsize : bytesAhead conn ≤ readBufferSize := (Nat.sub_le _ _).trans (h.inv hops).1.size
    show 2 * (left + bytesAhead conn) + (if Reads conn dpr then 1 else 0) < fuel
    unfold enoughFuel uintSize at hfuel
    unfold readBufferSize at hsize
    split <;> omega

end Reachable

section Turn

/-- The bytes to come, and whether a request is under way. -/
def turnMeasure (x : TurnState H) (left : Nat) : Nat :=
  bytesToCome x.1 left + if x.1.rrs = .idle then 0 else 1

/-- What a turn leaves: the invariant, and a state in which the connection can read again. -/
structure TurnDone (cfg : Config) (ops : Nat → HandlerOps H) (sock : Fd)
    (conn : ServerConnection H) (left : Nat) : Prop where
  inv : ConnInv conn
  next : Live conn → Reading cfg ops sock conn dprInit left

theorem connRound_ends (hops : ∀ fuel, uintSize ≤ fuel → TakesBody Fit sock (ops fuel)) {fuel : Nat}
    (hfuel : enoughFuel left ≤ fuel) (h : Reading cfg ops sock conn dpr left)
    (isVeryIdle : Bool) :
    Ends sock (connRound fuel cfg (ops fuel) (conn, dpr, isVeryIdle)) (AfterRound
      (fun y t => Reading cfg ops sock y.1 y.2.1 t ∧ t ≤ left ∧
        turnMeasure y t < turnMeasure (conn, dpr, isVeryIdle) left)
      (fun r t => TurnDone cfg ops sock r.1 t)) left := by
  have huint : uintSize ≤ fuel := (Nat.le_add_left _ _).trans hfuel
  refine .seq (readLoop_ends hops hfuel h isVeryIdle) ?_
  rintro ⟨c, d, v⟩ t ht ⟨hreading, hfew, hno⟩
  dsimp only at hreading hfew hno
  refine .seq (progressStep_ends (hops fuel huint) (hreading.inv hops).1).reached ?_
  rintro ⟨c', d'⟩ u hu ⟨hsent, hrun⟩
  have hdone : TurnDone cfg ops sock c' u :=
    ⟨hsent.toConnInv, fun hlive => .turn hreading hno huint hrun hlive⟩
  refine .ite (fun _ => .pure hdone) fun hgo => ?_
  refine .ite (fun _ => .fault (by decide)) fun _ => ?_
  refine .ite (fun _ => .pure hdone) fun _ => .pure ?_
  simp only [Bool.or_eq_true, not_or, Bool.not_eq_true, Option.isSome_eq_false_iff,
    Option.isNone_iff_eq_none, bne_eq_false_iff_eq] at hgo
  obtain ⟨⟨-, hfin⟩, hnone⟩ := hgo
  refine ⟨.again hreading hno huint hrun hfin hnone, hu.trans ht, ?_⟩
  have hrrs : c.rrs = .readFinished := hsent.rrs.symm.trans hfin
  have hsame : bytesAhead c' = bytesAhead c := hsent.same
  show u + bytesAhead c' + 0 < left + bytesAhead conn + if conn.rrs = .idle then 0 else 1
  have hle := hfew.le
  unfold bytesToCome at hle
  by_cases hi : conn.rrs = .idle
  · rcases hfew.idle hi with hlt | hidle
    · unfold bytesToCome at hlt
      rw [if_pos hi]
      omega
    · rw [hidle] at hrrs
      cases hrrs
  · rw [if_neg hi]
    omega

/-- A turn ends. -/
theorem connProcessDataReady_ends
    (hops : ∀ fuel, uintSize ≤ fuel → TakesBody Fit sock (ops fuel)) {fuel : Nat}
    (hfuel : enoughFuel left ≤ fuel) (h : Reading cfg ops sock conn dprInit left)
    (drs : DataReadySelector) (closeIfIdle : Bool) :
    Ends sock (connProcessDataReady fuel cfg (ops fuel) conn drs closeIfIdle)
      (fun turn t => TurnDone cfg ops sock turn.conn t) left := by
  refine .seq (R := fun r t => TurnDone cfg ops sock r.1 t) ?_ ?_
  · refine wp_iterate_counted (I := fun k x t => Reading cfg ops sock x.1 x.2.1 t ∧ t ≤ left ∧
      turnMeasure x t = k) ?_ fuel ⟨h, le_refl left, rfl⟩ ?_
    · rintro k ⟨c, d, v⟩ t ⟨hc, ht, rfl⟩
      have hfuel' : enoughFuel t ≤ fuel := by
        unfold enoughFuel at hfuel ⊢
        omega
      refine wp_mono (connRound_ends hops hfuel' hc v) ?_
      rintro (y | r) u hu
      · exact ⟨turnMeasure y u, hu.2.2, hu.1, hu.2.1.trans ht, rfl⟩
      · exact hu
    · have hsize : bytesAhead conn ≤ readBufferSize := (Nat.sub_le _ _).trans (h.inv hops).1.size
      show left + bytesAhead conn + (if conn.rrs = .idle then 0 else 1) < fuel
      unfold enoughFuel uintSize at hfuel
      unfold readBufferSize at hsize
      split <;> omega
  · rintro ⟨c, d, v⟩ t - hdone
    have hawait : ∀ drs state fd, Sound Stop Any (drsAwait drs state fd) := by
      intro drs state fd
      cases state with
      | ready => trivial
      | awaitRead =>
        cases fd with
        | none => exact (by decide : Stop (.indexOutOfRange .fdSet))
        | some fd => trivial
      | awaitWrite =>
        cases fd with
        | none => exact (by decide : Stop (.indexOutOfRange .fdSet))
        | some fd => trivial
    have hturn : Sound Stop (fun turn : ConnTurn H => turn.conn = c)
        (finishTurn c d drs closeIfIdle v) := by
      unfold finishTurn
      dsimp only
      refine .ite rfl ?_
      exact (hawait _ _ _).bind fun _ _ => (hawait _ _ _).bind fun _ _ => rfl
    refine .lift hturn fun turn _ heq => ?_
    rw [heq]
    exact hdone

end Turn

end FilemanagerHttpd.Audit
