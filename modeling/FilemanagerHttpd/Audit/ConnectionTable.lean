import FilemanagerHttpd.Library.Conduct
import FilemanagerHttpd.Server.MainLoop
import FilemanagerHttpd.Server.Environment

/-!
# The table of connections

What a turn of a connection leaves, and what a round of turns makes of the table. The
handlers are any.
-/

namespace FilemanagerHttpd.Audit

open Library Server

variable {H : Type} {fuel : Nat} {cfg : Config} {ops : HandlerOps H}

section Turn

/-- A step of a connection that is not idle behind it. -/
structure Awake (sock : Fd) (conn : ServerConnection H) : Prop where
  socket : conn.socketFd = sock
  awake : conn.rrs ≠ .idle

theorem Awake.keep {sock : Fd} {conn : ServerConnection H} (h : Awake sock conn) (rest : Bytes) :
    Awake sock (conn.keep rest) := by
  unfold ServerConnection.keep
  split
  · exact ⟨h.socket, h.awake⟩
  · exact ⟨h.socket, h.awake⟩

theorem onFinishedHeader_awake (conn : ServerConnection H) (header : RequestHeader) :
    Yields (Awake conn.socketFd) (onFinishedHeader ops conn header) := by
  refine .seq fun peer => .seq fun hdlr => .seq fun _ => ?_
  refine .ite (fun _ => ?_) fun _ => ?_
  · exact .seq fun chunkHdr => ⟨rfl, nofun⟩
  · have hne : ∀ n : Nat,
        (if 0 < n then RequestReadState.readBody else .readFinished) ≠ .idle := by
      intro n
      by_cases hn : 0 < n
      · rw [if_pos hn]; nofun
      · rw [if_neg hn]; nofun
    exact .pure ⟨rfl, hne _⟩

theorem offerBody_awake {sock : Fd} {conn : ServerConnection H} (h : Awake sock conn)
    (dpr : DataProcessingResult) (data : Bytes) :
    Yields (fun r => Awake sock r.1) (offerBody ops conn dpr data) := by
  refine .ite (fun _ => ?_) fun _ => ?_
  · refine .seq fun hdlr => .seq fun r => .seq fun _ => ?_
    exact .pure ⟨h.socket, h.awake⟩
  · exact .pure h

theorem startChunk_awake {sock : Fd} {conn : ServerConnection H} (h : Awake sock conn)
    (chunkHdr : MemBuf) : Awake sock (startChunk conn chunkHdr) := by
  unfold startChunk
  dsimp only
  split
  · exact ⟨h.socket, nofun⟩
  · exact ⟨h.socket, h.awake⟩

theorem bodyComplete_awake {sock : Fd} {conn : ServerConnection H} (h : Awake sock conn)
    (data : Bytes) :
    Sound (fun _ => True) (fun r => Awake sock r.1) (bodyComplete conn data) := by
  refine .ite ?_ h
  cases conn.chunkHdr with
  | none => exact ⟨h.socket, nofun⟩
  | some chunkHdr =>
    refine (Sound.always _).bind fun mb _ => ?_
    split
    · exact (Sound.always _).bind fun mb _ => ⟨h.socket, h.awake⟩
    · exact (Sound.always _).bind fun mb _ => startChunk_awake h mb

theorem appendBodyData_awake {sock : Fd} {conn : ServerConnection H} (h : Awake sock conn)
    (dpr : DataProcessingResult) :
    Yields (fun r => Awake sock r.1) (appendBodyData fuel ops conn dpr) := by
  refine Yields.iterate (I := fun s => Awake sock s.1) ?_ fuel h
  rintro ⟨conn, dpr, data⟩ hc
  refine .ite (fun _ => .pure (hc.keep _)) fun _ => ?_
  refine (offerBody_awake hc dpr data).bind ?_
  rintro ⟨conn, dpr, data, goOn⟩ hc
  refine .ite (fun _ => .pure (hc.keep _)) fun _ => ?_
  exact Yields.bind (.lift (bodyComplete_awake hc data)) fun r hr => .pure hr

theorem appendHeaderData_awake {sock : Fd} {conn : ServerConnection H} (h : Awake sock conn) :
    Yields (fun r => Awake sock r.1) (appendHeaderData cfg conn) := by
  refine .seq ?_
  rintro ⟨header, offset⟩
  have hc : Awake sock { conn with header := some header } := ⟨h.socket, h.awake⟩
  refine .seq fun _ => ?_
  cases offset with
  | none => exact .pure (hc.keep [])
  | some offset => exact .pure (hc.keep (conn.unread.drop offset))

theorem appendHead_awake (conn : ServerConnection H) :
    Yields (Awake conn.socketFd) (appendHead cfg ops conn) := by
  have hc : Awake conn.socketFd (if conn.rrs = .idle then
      { conn with header := some reqhdrNew, rrs := .readHead } else conn) := by
    by_cases hi : conn.rrs = .idle
    · rw [if_pos hi]; exact ⟨rfl, nofun⟩
    · rw [if_neg hi]; exact ⟨rfl, hi⟩
  refine .ite (fun _ => ?_) fun _ => .pure hc
  refine (appendHeaderData_awake hc).bind ?_
  rintro ⟨conn', done⟩ hc'
  cases done with
  | false => exact .pure hc'
  | true => exact hc'.socket ▸ onFinishedHeader_awake conn' _

theorem appendTrailer_awake {sock : Fd} {conn : ServerConnection H} (h : Awake sock conn) :
    Yields (Awake sock) (appendTrailer cfg conn) := by
  refine .ite (fun _ => ?_) fun _ => .pure h
  refine (appendHeaderData_awake h).bind ?_
  rintro ⟨conn', done⟩ hc'
  cases done with
  | false => exact .pure hc'
  | true => exact .pure ⟨hc'.socket, nofun⟩

theorem appendData_awake (conn : ServerConnection H) (dpr : DataProcessingResult) :
    Yields (fun r => Awake conn.socketFd r.1) (appendData fuel cfg ops conn dpr) := by
  refine (appendHead_awake conn).bind fun conn₁ h₁ => ?_
  refine Yields.bind (Q := fun r => Awake conn.socketFd r.1) ?_ ?_
  · exact .ite (fun _ => appendBodyData_awake h₁ dpr) fun _ => .pure h₁
  rintro ⟨conn₂, dpr⟩ h₂
  refine (appendTrailer_awake h₂).bind fun conn₃ h₃ => ?_
  refine .ite (fun _ => ?_) fun _ => .pure h₃
  exact .seq fun _ => .seq fun hdlr => .seq fun hdlr => .pure ⟨h₃.socket, h₃.awake⟩

/-- The state of a turn: the connection, what it waits for, whether it has slept so far. -/
abbrev TurnState (H : Type) := ServerConnection H × DataProcessingResult × Bool

/-- An idle connection has nothing to read, or has not been asked yet. -/
structure InTurn (sock : Fd) (s : TurnState H) : Prop where
  socket : s.1.socketFd = sock
  empty : s.1.rrs = .idle → s.2.1.reqState = .ready ∨ s.1.readSize = 0
  veryIdle : s.2.2 = true → s.1.rrs = .idle ∧ s.1.readSize = 0

theorem InTurn.awake {sock : Fd} {conn : ServerConnection H} (h : Awake sock conn)
    (dpr : DataProcessingResult) : InTurn sock (conn, dpr, false) where
  socket := h.socket
  empty hi := absurd hi h.awake
  veryIdle := nofun

theorem fillReadBuffer_inTurn {sock : Fd} {s : TurnState H} (h : InTurn sock s)
    (hready : s.2.1.reqState = .ready) :
    Yields (fun r => InTurn sock r ∧ (r.1.readSize ≠ 0 → r.2.2 = false))
      (fillReadBuffer s.1 s.2.1 s.2.2) := by
  refine .ite (fun hne => .pure ⟨h, fun _ => ?_⟩) fun he => ?_
  · have hv := h.veryIdle
    cases hs : s.2.2 with
    | false => rfl
    | true => exact absurd (hv hs).2 hne
  have he : s.1.readSize = 0 := not_not.mp he
  refine .seq fun r => ?_
  match r with
  | .got [] => exact .pure ⟨⟨h.socket, fun _ => .inr he, h.veryIdle⟩, absurd he⟩
  | .got (b :: data) => exact .pure ⟨⟨h.socket, fun _ => .inl hready, nofun⟩, fun _ => rfl⟩
  | .fail e =>
    refine .ite (fun _ => ?_) fun _ => ?_
    · exact .pure ⟨⟨h.socket, fun _ => .inr he, h.veryIdle⟩, absurd he⟩
    · exact .pure ⟨⟨h.socket, fun _ => .inr he, h.veryIdle⟩, absurd he⟩

/-- The loop that reads has ended. -/
structure ReadDone (sock : Fd) (s : TurnState H) : Prop extends InTurn sock s where
  done : s.2.1.closeConn = false → s.2.1.reqState = .ready → s.1.rrs = .readFinished

theorem readRound_inTurn {sock : Fd} {s : TurnState H} (h : InTurn sock s) :
    Yields (Sum.elim (InTurn sock) (ReadDone sock)) (readRound fuel cfg ops s) := by
  obtain ⟨conn, dpr, isVeryIdle⟩ := s
  refine .ite (fun hgo => ?_) fun hstop => .pure ⟨h, fun h₁ h₂ => ?_⟩
  · refine (fillReadBuffer_inTurn h hgo.2.1).bind ?_
    rintro ⟨conn, dpr, isVeryIdle⟩ ⟨h₁, hawake⟩
    refine .ite (fun hne => ?_) fun _ => .pure h₁
    refine (appendData_awake conn dpr).bind ?_
    rintro ⟨conn', dpr⟩ h₂
    obtain rfl : isVeryIdle = false := hawake hne
    exact .pure (.awake (h₁.socket ▸ h₂) dpr)
  · by_contra hne
    exact hstop ⟨h₁, h₂, hne⟩

theorem progressStep_rrs (conn : ServerConnection H) (dpr : DataProcessingResult) :
    Yields (fun r => r.1.socketFd = conn.socketFd ∧ r.1.rrs = conn.rrs ∧
      r.1.readSize = conn.readSize ∧ (dpr.closeConn = true → r.2 = dpr))
      (progressStep ops conn dpr) := by
  refine .ite (fun _ => .pure ⟨rfl, rfl, rfl, fun _ => rfl⟩) fun hopen => ?_
  cases conn.handler with
  | none => exact .pure ⟨rfl, rfl, rfl, fun _ => rfl⟩
  | some hdlr =>
    refine .seq ?_
    rintro ⟨hdlr, dpr', done⟩
    cases done with
    | false => exact .pure ⟨rfl, rfl, rfl, fun hc => absurd hc hopen⟩
    | true => exact .seq fun _ => .seq fun _ => .pure ⟨rfl, rfl, rfl, fun hc => absurd hc hopen⟩

/-- The loops of a turn have ended. -/
structure AfterTurn (sock : Fd) (s : TurnState H) : Prop where
  socket : s.1.socketFd = sock
  empty : s.2.1.closeConn = false → s.1.rrs = .idle → s.1.readSize = 0
  veryIdle : s.2.2 = true → s.1.rrs = .idle

theorem connRound_inTurn {sock : Fd} {s : TurnState H} (h : InTurn sock s) :
    Yields (Sum.elim (InTurn sock) (AfterTurn sock)) (connRound fuel cfg ops s) := by
  refine Yields.bind (Yields.iterate (I := InTurn sock) (T := ReadDone sock)
    (fun x hx => readRound_inTurn hx) fuel h) ?_
  rintro ⟨conn, dpr, isVeryIdle⟩ h₁
  refine (progressStep_rrs conn dpr).bind ?_
  rintro ⟨conn', dpr'⟩ ⟨hsock, hrrs, hsize, hclose⟩
  dsimp only at hsock hrrs hsize hclose
  have hsock' : conn'.socketFd = sock := hsock.trans h₁.socket
  have hidle : isVeryIdle = true → conn'.rrs = .idle := fun hv => hrrs ▸ (h₁.veryIdle hv).1
  have hempty : dpr'.closeConn = false → conn'.rrs = .idle → conn'.readSize = 0 := by
    intro hopen hi
    have hi' : conn.rrs = .idle := hrrs ▸ hi
    have hopen' : dpr.closeConn = false := by
      cases hc : dpr.closeConn with
      | false => rfl
      | true => rw [hclose hc, hc] at hopen; cases hopen
    rw [hsize]
    rcases h₁.empty hi' with hready | he
    · have hdone : conn.rrs = .readFinished := h₁.done hopen' hready
      rw [hi'] at hdone
      cases hdone
    · exact he
  refine .ite (fun _ => .pure ⟨hsock', hempty, hidle⟩) fun hgo => ?_
  have hfin : conn'.rrs = .readFinished := by
    by_contra hne
    simp [hne] at hgo
  refine .ite (fun _ => .fault) fun hready => ?_
  refine .ite (fun _ => .pure ⟨hsock', nofun, hidle⟩) fun _ => .pure ⟨hsock', fun _ => .inl ?_, ?_⟩
  · exact not_not.mp fun hne => hready (.inl hne)
  · intro hv
    have hi : conn'.rrs = .idle := hidle hv
    rw [hfin] at hi
    cases hi

/-- What holds of an open connection between its turns: when it is idle, its buffer is empty. -/
def Resting (conn : ServerConnection H) : Prop := conn.rrs = .idle → conn.readSize = 0

/-- What a turn makes of a connection. -/
structure TurnEnd (conn : ServerConnection H) (closeIfIdle : Bool) (turn : ConnTurn H) : Prop where
  socket : turn.conn.socketFd = conn.socketFd
  idle : turn.result = .idle → turn.conn.rrs = .idle
  evicted : closeIfIdle = true → turn.conn.rrs = .idle → turn.result = .toClose
  resting : turn.result ≠ .toClose → Resting turn.conn

theorem finishTurn_end {conn₀ conn : ServerConnection H} {dpr : DataProcessingResult}
    {isVeryIdle : Bool} (h : AfterTurn conn₀.socketFd (conn, dpr, isVeryIdle))
    (drs : DataReadySelector) (closeIfIdle : Bool) :
    Sound (fun _ => True) (TurnEnd conn₀ closeIfIdle)
      (finishTurn conn dpr drs closeIfIdle isVeryIdle) := by
  unfold finishTurn
  generalize hd : (if (! dpr.closeConn && closeIfIdle && conn.rrs == .idle) = true then
    dprSetCloseConn dpr else dpr) = dpr'
  have hkept : dpr'.closeConn = false →
      dpr.closeConn = false ∧ ¬ (closeIfIdle = true ∧ conn.rrs = .idle) := by
    intro hopen
    subst hd
    split at hopen
    · cases hopen
    · rename_i hne
      refine ⟨hopen, fun hi => hne ?_⟩
      simp [hopen, hi.1, hi.2]
  by_cases hc : dpr'.closeConn = true
  · rw [if_pos hc]
    exact ⟨h.socket, nofun, fun _ _ => rfl, fun hne => absurd rfl hne⟩
  · rw [if_neg hc]
    obtain ⟨hopen, hstay⟩ := hkept (by simpa using hc)
    refine (Sound.always _).bind fun drs _ => (Sound.always _).bind fun drs _ => ?_
    refine ⟨h.socket, ?_, fun h₁ h₂ => absurd ⟨h₁, h₂⟩ hstay, fun _ => h.empty hopen⟩
    intro hr
    cases hv : isVeryIdle with
    | true => exact h.veryIdle hv
    | false => rw [hv] at hr; cases hr

/-- A turn of an open connection. -/
theorem connProcessDataReady_end {conn : ServerConnection H} (h : Resting conn)
    (drs : DataReadySelector) (closeIfIdle : Bool) :
    Yields (TurnEnd conn closeIfIdle)
      (connProcessDataReady fuel cfg ops conn drs closeIfIdle) := by
  have hstart : InTurn conn.socketFd (conn, dprInit, conn.rrs == .idle) :=
    ⟨rfl, fun _ => .inl rfl, fun hv => ⟨by simpa using hv, h (by simpa using hv)⟩⟩
  refine Yields.bind (Yields.iterate (I := InTurn conn.socketFd) (T := AfterTurn conn.socketFd)
    (fun x hx => connRound_inTurn hx) fuel hstart) ?_
  rintro ⟨conn', dpr, isVeryIdle⟩ h'
  exact Within.lift (finishTurn_end h' drs closeIfIdle)

end Turn

section Table

variable (fuel cfg ops)

/-- The connections that a run of the server can have open. -/
inductive OpenConn : ServerConnection H → Prop
  | accepted (fd : Fd) : OpenConn (connNew fd)
  | served {conn : ServerConnection H} {drs : DataReadySelector} {closeIfIdle : Bool}
      {h h' : History} {turn : ConnTurn H} : OpenConn conn →
      Runs posix (connProcessDataReady fuel cfg ops conn drs closeIfIdle) h (.done turn) h' →
      turn.result ≠ .toClose → OpenConn turn.conn

/-- A turn of each connection in their order, each with the flag it is given. What has to be
closed is freed behind its turn. Nothing is said about a table. -/
def sweep (full : Bool) : Bool → DataReadySelector → List (ServerConnection H) →
    Prog (List (Bool × ConnTurn H) × DataReadySelector)
  | _, drs, [] => return ([], drs)
  | allBusy, drs, conn :: rest => do
    let turn ← connProcessDataReady fuel cfg ops conn drs (full && allBusy)
    let () ← (if turn.result = .toClose then connFree ops turn.conn else return ())
    let (turns, drs) ← sweep full (allBusy && turn.result == .busy) turn.drs rest
    return ((full && allBusy, turn) :: turns, drs)

variable {fuel cfg ops}

/-- The connections with the given result, in the order of their turns. -/
def leftWith (r : ConnProcessingResult) (turns : List (Bool × ConnTurn H)) :
    List (ServerConnection H) :=
  (turns.filter (·.2.result == r)).map (·.2.conn)

theorem leftWith_cons (r : ConnProcessingResult) (t : Bool × ConnTurn H)
    (turns : List (Bool × ConnTurn H)) :
    leftWith r (t :: turns) =
      if t.2.result = r then t.2.conn :: leftWith r turns else leftWith r turns := by
  unfold leftWith
  by_cases ht : t.2.result = r
  · rw [if_pos ht, List.filter_cons_of_pos (by simpa using ht), List.map_cons]
  · rw [if_neg ht, List.filter_cons_of_neg (by simpa using ht)]

theorem take_putBehind (connections busy : List (ServerConnection H)) {n : Nat}
    (hn : n + busy.length ≤ connections.length) :
    (putBehind connections n busy).take (n + busy.length) = connections.take n ++ busy := by
  induction busy generalizing connections n with
  | nil => simp [putBehind]
  | cons conn busy ih =>
    rw [List.length_cons] at hn
    have hrec := ih (connections.set n conn) (n := n + 1)
      (by rw [List.length_set]; omega)
    have hput : (connections.set n conn).take (n + 1) = connections.take n ++ [conn] := by
      rw [List.take_add_one, List.take_set_of_le (le_refl n), List.getElem?_set_self (by omega)]
      rfl
    rw [hput, List.append_assoc] at hrec
    rw [putBehind, List.length_cons, show n + (busy.length + 1) = n + 1 + busy.length by omega]
    exact hrec

/-- A connection that is still to come is not touched by the idle ones put in front. -/
theorem scan_frame {connections : List (ServerConnection H)} {i : Nat} {conn c : ServerConnection H}
    {rest : List (ServerConnection H)} (h : connections.drop i = conn :: rest) :
    connections[i]? = some conn ∧ i < connections.length ∧
      (connections.set i c).drop (i + 1) = rest := by
  have hlt : i < connections.length := by
    by_contra hge
    rw [List.drop_eq_nil_of_le (by omega)] at h
    cases h
  rw [List.drop_eq_getElem_cons hlt] at h
  injection h with h₁ h₂
  refine ⟨by rw [List.getElem?_eq_getElem hlt, h₁], hlt, ?_⟩
  rw [List.drop_set_of_lt (by omega), h₂]

/-- The compaction in place is a sweep that keeps the idle and the busy connections. -/
theorem scan_eq_sweep (fuel : Nat) (cfg : Config) (ops : HandlerOps H)
    (maxConnCount connCount : Nat) {rest : List (ServerConnection H)} {n : Nat}
    {s : TableScan H} (hn : rest.length < n) (hrest : s.connections.drop s.i = rest)
    (hcount : s.idleConnCount + s.busyConnections.length ≤ s.i)
    (hlen : s.i ≤ s.connections.length) :
    (Program.iterate .outOfFuel (scanRound fuel cfg ops maxConnCount connCount) n s >>=
        fun s => Program.done s.compacted) =
      (sweep fuel cfg ops (connCount == maxConnCount) (s.i == s.busyConnections.length) s.drs rest
        >>= fun r => Program.done ⟨s.connections.take s.idleConnCount ++ leftWith .idle r.1 ++
          (s.busyConnections ++ leftWith .busy r.1), r.2⟩) := by
  obtain ⟨n, rfl⟩ : ∃ m, n = m + 1 := ⟨n - 1, by omega⟩
  induction rest generalizing s n with
  | nil =>
    have hend : s.connections[s.i]? = none := by
      rw [List.getElem?_eq_none_iff]
      exact List.drop_eq_nil_iff.mp hrest
    have hput := take_putBehind s.connections s.busyConnections (n := s.idleConnCount) (by omega)
    rw [Program.iterate, scanRound, hend, sweep]
    simp only [Program.pure_eq, Program.done_bind, TableScan.compacted, hput]
    simp [leftWith]
  | cons conn rest ih =>
    rw [List.length_cons] at hn
    obtain ⟨n, rfl⟩ : ∃ m, n = m + 1 := ⟨n - 1, by omega⟩
    rw [Program.iterate, scanRound, (scan_frame (c := conn) hrest).1, sweep]
    simp only [Program.bind_assoc]
    congr 1
    funext turn
    obtain ⟨-, hlt, hdrop⟩ := scan_frame (c := turn.conn) hrest
    have htake : (s.connections.set s.i turn.conn).take s.idleConnCount =
        s.connections.take s.idleConnCount := List.take_set_of_le (by omega)
    unfold placeConnection
    cases hr : turn.result with
    | busy =>
      have hrec := ih (s := { s with
        connections := s.connections.set s.i turn.conn, drs := turn.drs
        busyConnections := s.busyConnections ++ [turn.conn], i := s.i + 1 }) hdrop
        (by simp; omega) (by simp; omega) n (by omega)
      have hflag : (s.i + 1 == (s.busyConnections ++ [turn.conn]).length) =
          (s.i == s.busyConnections.length) := by simp
      dsimp only at hrec
      rw [hflag, htake] at hrec
      simp only [Program.pure_eq, Program.done_bind, hrec]
      simp [leftWith_cons, hr]
    | idle =>
      have hset : (if s.i ≠ s.idleConnCount
          then (s.connections.set s.i turn.conn).set s.idleConnCount turn.conn
          else s.connections.set s.i turn.conn) =
          (s.connections.set s.i turn.conn).set s.idleConnCount turn.conn := by
        by_cases hi : s.i = s.idleConnCount
        · rw [if_neg (by simpa using hi), ← hi, List.set_set]
        · rw [if_pos hi]
      have hrec := ih (s := { s with
        connections := (s.connections.set s.i turn.conn).set s.idleConnCount turn.conn
        drs := turn.drs, idleConnCount := s.idleConnCount + 1, i := s.i + 1 })
        (by rw [List.drop_set_of_lt (by dsimp only; omega)]; exact hdrop) (by simp; omega)
        (by simp; omega) n (by omega)
      have hflag : (s.i + 1 == s.busyConnections.length) = false := by
        simp only [beq_eq_false_iff_ne]; omega
      have htake' : ((s.connections.set s.i turn.conn).set s.idleConnCount turn.conn).take
          (s.idleConnCount + 1) = s.connections.take s.idleConnCount ++ [turn.conn] := by
        rw [List.take_add_one, List.take_set_of_le (le_refl _), htake,
          List.getElem?_set_self (by rw [List.length_set]; omega)]
        rfl
      dsimp only at hrec
      rw [hflag, htake'] at hrec
      have hother : (ConnProcessingResult.idle == .busy) = false := rfl
      simp only [Program.pure_eq, Program.done_bind, hset, hrec]
      simp [leftWith_cons, hr, hother]
    | toClose =>
      have hrec := ih (s := { s with
        connections := s.connections.set s.i turn.conn, drs := turn.drs, i := s.i + 1 }) hdrop
        (by simp; omega) (by simp; omega) n (by omega)
      have hflag : (s.i + 1 == s.busyConnections.length) = false := by
        simp only [beq_eq_false_iff_ne]; omega
      dsimp only at hrec
      rw [hflag, htake] at hrec
      have hother : (ConnProcessingResult.toClose == .busy) = false := rfl
      simp only [Program.pure_eq, Program.done_bind, Program.bind_assoc, hrec]
      simp [leftWith_cons, hr, hother]

theorem processConnections_eq (maxConnCount : Nat) (t : ConnTable H) :
    processConnections fuel cfg ops maxConnCount t =
      (sweep fuel cfg ops (t.connections.length == maxConnCount) true t.drs t.connections >>=
        fun r => Program.done ⟨leftWith .idle r.1 ++ leftWith .busy r.1, r.2⟩) :=
  scan_eq_sweep fuel cfg ops maxConnCount t.connections.length
    (s := ⟨t.connections, [], t.drs, 0, 0⟩) (Nat.lt_succ_self t.connections.length) rfl (le_refl 0)
    (Nat.zero_le _)

theorem OpenConn.resting {conn : ServerConnection H} (h : OpenConn fuel cfg ops conn) :
    Resting conn := by
  induction h with
  | accepted fd => exact nofun
  | served _ hrun hne ih => exact ((connProcessDataReady_end ih _ _).returns hrun).resting hne

/-- The connection was asked to close when it is idle, and it is closed. -/
def ClosedAsIdle (t : Bool × ConnTurn H) : Bool := t.1 && t.2.result == .toClose

/-- What a sweep of open connections gives. -/
structure Swept (fuel : Nat) (cfg : Config) (ops : HandlerOps H) (full allBusy : Bool)
    (conns : List (ServerConnection H)) (turns : List (Bool × ConnTurn H)) : Prop where
  sockets : List.Forall₂ (fun conn t => t.2.conn.socketFd = conn.socketFd) conns turns
  stillOpen : ∀ t ∈ turns, t.2.result ≠ .toClose → OpenConn fuel cfg ops t.2.conn
  evicted : (turns.filter ClosedAsIdle).length ≤ if full && allBusy then 1 else 0
  evicts : full = true → allBusy = true → (∃ t ∈ turns, t.2.conn.rrs = .idle) →
    ∃ t ∈ turns, t.2.result = .toClose

theorem swept_cons {full allBusy : Bool} {conn : ServerConnection H}
    {rest : List (ServerConnection H)} {turn : ConnTurn H} {turns : List (Bool × ConnTurn H)}
    (hturn : TurnEnd conn (full && allBusy) turn)
    (hopen : turn.result ≠ .toClose → OpenConn fuel cfg ops turn.conn)
    (h : Swept fuel cfg ops full (allBusy && turn.result == .busy) rest turns) :
    Swept fuel cfg ops full allBusy (conn :: rest) ((full && allBusy, turn) :: turns) where
  sockets := .cons hturn.socket h.sockets
  stillOpen t ht := by
    rcases List.mem_cons.mp ht with rfl | ht
    · exact hopen
    · exact h.stillOpen t ht
  evicted := by
    have htail := h.evicted
    cases hflag : full && allBusy with
    | false =>
      have hrest : (full && (allBusy && turn.result == .busy)) = false := by
        rw [← Bool.and_assoc, hflag, Bool.false_and]
      rw [hrest] at htail
      rw [List.filter_cons_of_neg (by simp [ClosedAsIdle])]
      exact htail
    | true =>
      simp only [Bool.and_eq_true] at hflag
      rw [hflag.1, hflag.2] at htail
      by_cases hclose : turn.result = .toClose
      · -- the ones behind it are not asked to close
        rw [hclose] at htail
        rw [List.filter_cons_of_pos (by simp [ClosedAsIdle, hclose]), List.length_cons]
        have hnone : (turns.filter ClosedAsIdle).length ≤ 0 := htail
        simp only [if_true]
        omega
      · rw [List.filter_cons_of_neg (by simp [ClosedAsIdle, hclose])]
        refine htail.trans ?_
        split <;> simp
  evicts hfull hbusy := by
    rintro ⟨t, ht, hidle⟩
    by_cases hclose : turn.result = .toClose
    · exact ⟨_, List.mem_cons_self, hclose⟩
    have hawake : turn.conn.rrs ≠ .idle := fun hi =>
      hclose (hturn.evicted (by rw [hfull, hbusy]; rfl) hi)
    have hres : turn.result = .busy := by
      cases hr : turn.result with
      | toClose => exact absurd hr hclose
      | idle => exact absurd (hturn.idle hr) hawake
      | busy => rfl
    rcases List.mem_cons.mp ht with rfl | ht
    · exact absurd hidle hawake
    obtain ⟨u, hu, hclosed⟩ := h.evicts hfull (by rw [hbusy, hres]; rfl) ⟨t, ht, hidle⟩
    exact ⟨u, .tail _ hu, hclosed⟩

theorem sweep_swept {full allBusy : Bool} {conns : List (ServerConnection H)}
    (hopen : ∀ c ∈ conns, OpenConn fuel cfg ops c) {drs : DataReadySelector} {h h' : History}
    {r : List (Bool × ConnTurn H) × DataReadySelector}
    (hrun : Runs posix (sweep fuel cfg ops full allBusy drs conns) h (.done r) h') :
    Swept fuel cfg ops full allBusy conns r.1 := by
  induction conns generalizing allBusy drs h h' r with
  | nil =>
    obtain ⟨rfl, -⟩ := hrun.done_eq
    have hnone : ∀ t : Bool × ConnTurn H, t ∉ [] := fun t => List.not_mem_nil
    exact ⟨.nil, fun t ht => absurd ht (hnone t), Nat.zero_le _,
      fun _ _ ⟨t, ht, _⟩ => absurd ht (hnone t)⟩
  | cons conn rest ih =>
    rw [sweep] at hrun
    obtain ⟨turn, u, hturn, hrun⟩ := hrun.of_bind_done
    obtain ⟨_, v, -, hrun⟩ := hrun.of_bind_done
    obtain ⟨⟨turns, drs'⟩, w, hsweep, hrun⟩ := hrun.of_bind_done
    obtain ⟨rfl, -⟩ := hrun.done_eq
    have hconn : OpenConn fuel cfg ops conn := hopen conn List.mem_cons_self
    have hend := (connProcessDataReady_end hconn.resting drs (full && allBusy)).returns hturn
    have hrest := ih (fun c hc => hopen c (.tail _ hc)) hsweep
    exact swept_cons hend (hconn.served hturn) hrest

theorem mem_leftWith {r : ConnProcessingResult} {turns : List (Bool × ConnTurn H)}
    {conn : ServerConnection H} (hm : conn ∈ leftWith r turns) :
    ∃ t ∈ turns, t.2.result = r ∧ t.2.conn = conn := by
  obtain ⟨t, ht, rfl⟩ := List.mem_map.mp hm
  obtain ⟨ht, hr⟩ := List.mem_filter.mp ht
  exact ⟨t, ht, by simpa using hr, rfl⟩

theorem length_left_le (turns : List (Bool × ConnTurn H)) :
    (leftWith .idle turns ++ leftWith .busy turns).length ≤ turns.length := by
  induction turns with
  | nil => exact le_refl 0
  | cons t turns ih =>
    rw [List.length_append] at ih ⊢
    rw [leftWith_cons, leftWith_cons, List.length_cons]
    cases hr : t.2.result with
    | toClose => simp; omega
    | idle => simp; omega
    | busy => simp; omega

theorem acceptConnections_open {maxConnCount : Nat} {conns : List (ServerConnection H)}
    (hopen : ∀ c ∈ conns, OpenConn fuel cfg ops c) (hcount : conns.length ≤ maxConnCount) :
    Yields (fun conns' => conns <+: conns' ∧ conns'.length ≤ maxConnCount ∧
      ∀ c ∈ conns', OpenConn fuel cfg ops c) (acceptConnections maxConnCount conns) := by
  have hstart : conns <+: conns ∧ conns.length ≤ maxConnCount ∧
      ∀ c ∈ conns, OpenConn fuel cfg ops c := ⟨List.prefix_rfl, hcount, hopen⟩
  unfold acceptConnections
  refine Yields.iterate (I := fun conns' => conns <+: conns' ∧ conns'.length ≤ maxConnCount ∧
    ∀ c ∈ conns', OpenConn fuel cfg ops c) ?_ _ hstart
  rintro conns' ⟨hpre, hle, hall⟩
  unfold acceptRound
  refine Yields.ite (fun hlt => ?_) fun _ => Yields.pure ⟨hpre, hle, hall⟩
  refine Yields.seq fun r => ?_
  match r with
  | .error e => exact .pure ⟨hpre, hle, hall⟩
  | .ok fd =>
    refine .pure ⟨hpre.trans (List.prefix_append _ _), ?_, ?_⟩
    · rw [List.length_append, List.length_singleton]; exact hlt
    · intro c hc
      rcases List.mem_append.mp hc with hc | hc
      · exact hall c hc
      · rw [List.mem_singleton.mp hc]; exact .accepted fd

/-- What a round of the main loop makes of the connections at hand, given their turns. -/
structure RoundOf (fuel : Nat) (cfg : Config) (ops : HandlerOps H) (maxConnCount : Nat)
    (conns : List (ServerConnection H)) (turns : List (Bool × ConnTurn H))
    (conns' : List (ServerConnection H)) : Prop where
  /-- the turns are those of the connections, in their order -/
  sockets : List.Forall₂ (fun conn t => t.2.conn.socketFd = conn.socketFd) conns turns
  compacted : conns' = leftWith .idle turns ++ leftWith .busy turns
  count : conns'.length ≤ maxConnCount
  stillOpen : ∀ c ∈ conns', OpenConn fuel cfg ops c
  evicted : conns.length = maxConnCount → (turns.filter ClosedAsIdle).length ≤ 1
  evicts : conns.length = maxConnCount → (∃ t ∈ turns, t.2.conn.rrs = .idle) →
    ∃ t ∈ turns, t.2.result = .toClose

/-- The table of a server with place for one connection, which sends nothing. -/
def waitingTable : ConnTable RequestHandler := ⟨[connNew 7], drsNew⟩

def waitingRound : Prog (ConnTable RequestHandler) :=
  mainRound 3 bareConfig (reqhdlrOps 3 bareConfig) 1 4 waitingTable

end Table

end FilemanagerHttpd.Audit
