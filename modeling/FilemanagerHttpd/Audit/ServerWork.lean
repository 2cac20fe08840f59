import FilemanagerHttpd.Audit.ConnectionWork
import FilemanagerHttpd.Audit.ConnectionTable

/-!
# A server and its connections

A server accepts connections and gives them turns, in any order. Between two calls each open
descriptor belongs to one connection, or was open before. The main loop is such a server: its
table is compacted in place, and its rounds are turns in the order of the table.
-/

namespace FilemanagerHttpd.Audit

open Library Server

variable {H : Type} {fuel : Nat} {cfg : Config} {ops : HandlerOps H}
  {conns : Multiset (ServerConnection H)} {base h : History}

/-- The connections that are open at a moment between two turns, of a server that began with the
history `base`. -/
inductive Serving (fuel : Nat) (cfg : Config) (ops : HandlerOps H) (base : History) :
    Multiset (ServerConnection H) → History → Prop
  | start : Serving fuel cfg ops base 0 base
  | refused {conns : Multiset (ServerConnection H)} {h : History} {e : Errno} :
      Serving fuel cfg ops base conns h →
      Serving fuel cfg ops base conns (⟨.accept, .error e⟩ :: h)
  | accepted {conns : Multiset (ServerConnection H)} {h : History} {fd : Fd} :
      Serving fuel cfg ops base conns h → fd ∉ openFds h →
      Serving fuel cfg ops base (connNew fd ::ₘ conns) (⟨.accept, .ok fd⟩ :: h)
  | served {conn : ServerConnection H} {others : Multiset (ServerConnection H)} {h h' : History}
      {drs : DataReadySelector} {closeIfIdle : Bool} {turn : ConnTurn H} :
      Serving fuel cfg ops base (conn ::ₘ others) h →
      Runs posix (serveTurn fuel cfg ops conn drs closeIfIdle) h (.done turn) h' →
      Serving fuel cfg ops base (leftOpen turn + others) h'

/-- A response has ended before its request was read, and its connection stayed open. -/
def EndedEarly (h : History) : Prop := (⟨.note (.finished true), ()⟩ : Event) ∈ h

theorem EndedEarly.later {h h' : History} (hearly : EndedEarly h) (hs : h <:+ h') :
    EndedEarly h' := hs.subset hearly

theorem tell_early {e : Event} {g : Told} (h : (tell e g).early = true) :
    g.early = true ∨ e = ⟨.note (.finished true), ()⟩ := by
  obtain ⟨c, r⟩ := e
  cases c with
  | note n =>
    cases n with
    | finished early =>
      cases early with
      | true => exact .inr rfl
      | false => exact .inl h
    | _ => exact .inl h
  | _ => exact .inl h

theorem endedEarly_of_told {g : Told} {h₀ h : History} (hs : h₀ <:+ h)
    (hearly : (toldSince g h₀ h).early = true) : g.early = true ∨ EndedEarly h := by
  obtain ⟨new, rfl⟩ := hs
  induction new with
  | nil =>
    rw [List.nil_append, toldSince_self] at hearly
    exact .inl hearly
  | cons e new ih =>
    rw [List.cons_append, toldSince_cons g (List.suffix_append new h₀)] at hearly
    rcases tell_early hearly with hearly | rfl
    · exact (ih hearly).imp_right (List.mem_cons_of_mem e)
    · exact .inr List.mem_cons_self

/-- Nothing is taken out of a history. -/
theorem Runs.extends {α : Type} {p q : Prog α} {h h' : History} (hr : Runs posix p h q h') :
    h <:+ h' := by
  induction hr with
  | refl => exact List.suffix_rfl
  | step hw _ ih =>
    obtain ⟨-, rfl⟩ := hw
    exact (List.suffix_cons _ _).trans ih

section Invariant

variable (K : HandlerContract cfg ops)

/-- What the connections of a server own. -/
def serverFds (fds : H → Multiset Fd) (conns : Multiset (ServerConnection H)) : Multiset Fd :=
  (conns.map (connFds fds)).sum

/-- The invariant of a server. -/
structure ServerKeeps (base : History) (conns : Multiset (ServerConnection H)) (h : History) :
    Prop where
  holds : descriptors.Holds (serverFds K.fds conns + (openFds base : Multiset Fd)) h
  opened : ∀ conn ∈ conns, ConnOpen K conn
  lost : ∀ conn ∈ conns, orphaned conn = true → EndedEarly h

variable {K}

theorem serverFds_cons (fds : H → Multiset Fd) (conn : ServerConnection H)
    (others : Multiset (ServerConnection H)) :
    serverFds fds (conn ::ₘ others) = connFds fds conn + serverFds fds others := by
  rw [serverFds, Multiset.map_cons, Multiset.sum_cons]
  rfl

/-- A turn beside the other connections. -/
theorem ServerKeeps.turn {conn : ServerConnection H} {others : Multiset (ServerConnection H)}
    (hk : ServerKeeps K base (conn ::ₘ others) h) (fuel : Nat) (drs : DataReadySelector)
    (closeIfIdle : Bool) :
    wp posix (descriptors.duty (turnDuty cfg (toldBy conn) h)
        (serverFds K.fds others + (openFds base : Multiset Fd)))
      (serveTurn fuel cfg ops conn drs closeIfIdle)
      (fun turn t => ∃ o, (o = ((leftOpen turn).map (connFds K.fds)).sum ∧ Grows drs turn.drs ∧
        (turn.result ≠ .toClose → LeftOpen K (toldBy conn) h turn t)) ∧
        descriptors.Holds (o + (serverFds K.fds others + (openFds base : Multiset Fd))) t) h := by
  have hconn := hk.opened conn (Multiset.mem_cons_self conn others)
  refine serveTurn_owns fuel hconn drs closeIfIdle h _ ?_
  rw [← add_assoc, ← serverFds_cons]
  exact hk.holds

/-- What `accept` gives belongs to a new connection. -/
theorem ServerKeeps.heard (hk : ServerKeeps K base conns h) {r : Except Errno Fd}
    (hr : Lawful h .accept r) :
    descriptors.Holds (serverFds K.fds conns + (openFds base : Multiset Fd) +
      descriptors.takes Sys.accept r) (⟨.accept, r⟩ :: h) :=
  hk.holds.step (c := Sys.accept) ⟨hr, rfl⟩ (zero_add _).symm

theorem ServerKeeps.refused (hk : ServerKeeps K base conns h) (e : Errno) :
    ServerKeeps K base conns (⟨.accept, .error e⟩ :: h) where
  holds := by
    have hheard := hk.heard (r := .error e) trivial
    rw [show descriptors.takes Sys.accept (.error e) = 0 from rfl, add_zero] at hheard
    exact hheard
  opened := hk.opened
  lost conn hm horphan := (hk.lost conn hm horphan).later (List.suffix_cons _ h)

theorem ServerKeeps.accepted (hk : ServerKeeps K base conns h) {fd : Fd} (hnew : fd ∉ openFds h) :
    ServerKeeps K base (connNew fd ::ₘ conns) (⟨.accept, .ok fd⟩ :: h) where
  holds := by
    have hconn : connFds K.fds (connNew fd) = descriptors.takes Sys.accept (.ok fd) := zero_add _
    have hfds : serverFds K.fds (connNew fd ::ₘ conns) + (openFds base : Multiset Fd) =
        serverFds K.fds conns + (openFds base : Multiset Fd) +
          descriptors.takes Sys.accept (.ok fd) := by
      rw [serverFds_cons, hconn]
      abel
    rw [hfds]
    exact hk.heard hnew
  opened conn hm := by
    rcases Multiset.mem_cons.mp hm with rfl | hm
    · exact ⟨⟨fun hdlr he => (by cases he), fun _ => rfl⟩, fun he => by cases he⟩
    · exact hk.opened conn hm
  lost conn hm horphan := by
    rcases Multiset.mem_cons.mp hm with rfl | hm
    · cases horphan
    · exact (hk.lost conn hm horphan).later (List.suffix_cons _ h)

theorem ServerKeeps.served {conn : ServerConnection H} {others : Multiset (ServerConnection H)}
    (hk : ServerKeeps K base (conn ::ₘ others) h) {drs : DataReadySelector} {closeIfIdle : Bool}
    {turn : ConnTurn H} {h' : History}
    (hrun : Runs posix (serveTurn fuel cfg ops conn drs closeIfIdle) h (.done turn) h') :
    ServerKeeps K base (leftOpen turn + others) h' := by
  have hs := Runs.extends hrun
  obtain ⟨_, ⟨rfl, -, hleft⟩, hholds⟩ := wp_result (hk.turn fuel drs closeIfIdle) hrun
  have hkept : ∀ c ∈ leftOpen turn, LeftOpen K (toldBy conn) h turn h' ∧ c = turn.conn := by
    intro c hm
    unfold leftOpen at hm
    split at hm
    · exact absurd hm (Multiset.notMem_zero c)
    · rename_i hopen
      exact ⟨hleft hopen, Multiset.mem_singleton.mp hm⟩
  constructor
  · rw [serverFds, Multiset.map_add, Multiset.sum_add, add_assoc]
    exact hholds
  · intro c hm
    rcases Multiset.mem_add.mp hm with hm | hm
    · obtain ⟨hopen, rfl⟩ := hkept c hm
      exact hopen.toConnOpen
    · exact hk.opened c (Multiset.mem_cons_of_mem hm)
  · intro c hm horphan
    rcases Multiset.mem_add.mp hm with hm | hm
    · obtain ⟨hopen, rfl⟩ := hkept c hm
      rcases endedEarly_of_told hs (hopen.lost horphan) with hbefore | hearly
      · exact (hk.lost conn (Multiset.mem_cons_self conn others) hbefore).later hs
      · exact hearly
    · exact (hk.lost c (Multiset.mem_cons_of_mem hm) horphan).later hs

/-- Every server keeps the invariant, whatever the order of its turns. -/
theorem Serving.keeps (hbase : (openFds base).Nodup) (hs : Serving fuel cfg ops base conns h) :
    ServerKeeps K base conns h := by
  induction hs with
  | start =>
    have hnone : ∀ conn : ServerConnection H, conn ∉ (0 : Multiset (ServerConnection H)) :=
      Multiset.notMem_zero
    refine ⟨⟨(zero_add _).symm, ?_⟩, fun c hm => absurd hm (hnone c), fun c hm => absurd hm (hnone c)⟩
    rw [serverFds, Multiset.map_zero, Multiset.sum_zero, zero_add]
    exact hbase
  | refused _ ih => exact ih.refused _
  | accepted _ hnew ih => exact ih.accepted hnew
  | served _ hrun ih => exact ih.served hrun

end Invariant

section Moments

variable {conn : ServerConnection RequestHandler}
  {others : Multiset (ServerConnection RequestHandler)} {drs : DataReadySelector}
  {closeIfIdle : Bool} {q : Prog (ConnTurn RequestHandler)} {c : Sys} {h₀ : History}

/-- The login state of the request of a connection, in a turn that began in `h₀`. -/
def loginAt {H : Type} (conn : ServerConnection H) (h₀ h : History) : LoginState :=
  (toldSince (toldBy conn) h₀ h).login

/-- A moment of a turn, in a server whose connections have had any turns before. -/
structure TurnMoment (fuel : Nat) (cfg : Config) (base : History)
    (conn : ServerConnection RequestHandler)
    (others : Multiset (ServerConnection RequestHandler)) (h₀ : History)
    (q : Prog (ConnTurn RequestHandler)) (h : History) : Prop where
  base_nodup : (openFds base).Nodup
  serving : Serving fuel cfg (reqhdlrOps fuel cfg) base (conn ::ₘ others) h₀
  run : ∃ drs closeIfIdle,
    Runs posix (serveTurn fuel cfg (reqhdlrOps fuel cfg) conn drs closeIfIdle) h₀ q h

/-- What the turn owes is met at every moment of it. -/
theorem TurnMoment.duty (hm : TurnMoment fuel cfg base conn others h₀ q h) :
    (∀ c next, q = .call c next →
      Permitted cfg (loginAt conn h₀ h) h c ∧
        descriptors.Proper (serverFds handlerFds others + (openFds base : Multiset Fd)) c h) ∧
      ∀ f, q = .fault f → f ≠ .fatal .internal ∧
        (f = .nullPointer .handler → (toldSince (toldBy conn) h₀ h).early = true) := by
  obtain ⟨hnodup, hserving, drs, closeIfIdle, hrun⟩ := hm
  have hkeeps := hserving.keeps (K := reqhdlrContract fuel cfg) hnodup
  have hturn := hkeeps.turn fuel drs closeIfIdle
  refine ⟨?_, ?_⟩
  · rintro c next rfl
    exact wp_guard hturn hrun
  · rintro f rfl
    exact wp_faulted hturn hrun

section Example

/-- A client that sends some pieces, to a server of directories. -/
def typing (pieces : List ReadResult) : Environment := fun h c =>
  match c with
  | .read fd count =>
    match pieces[(readsFrom fd h).length]? with
    | some (.got data) => ⟨.got (data.take count), List.length_take_le _ _⟩
    | _ => ⟨.fail .wouldBlock, trivial⟩
  | c => directories h c

/-- A form that makes a directory. -/
def newDirForm : Bytes :=
  ascii "--b" ++ crlf ++
    ascii "Content-Disposition: form-data; name=\"new_dir\"" ++ crlf ++ crlf ++
    ascii "x" ++ crlf ++ ascii "--b" ++ crlf ++
    ascii "Content-Disposition: form-data; name=\"do_newdir\"" ++ crlf ++ crlf ++
    ascii "x" ++ crlf ++ ascii "--b--"

def newDirRequest : Bytes :=
  ascii "POST /pub/ HTTP/1.1" ++ crlf ++
    ascii "Content-Type: multipart/form-data; boundary=b" ++ crlf ++
    ascii "Content-Length: 123" ++ crlf ++ crlf ++ newDirForm

/-- A form for a directory whose slash is missing: the answer does not wait for the form. -/
def slashlessRequest : Bytes :=
  ascii "POST /pub HTTP/1.1" ++ crlf ++ ascii "Content-Length: 3" ++ crlf ++ crlf

/-- Two connections have been accepted. -/
def twoAccepted : History := [⟨.accept, .ok (7 : Fd)⟩, ⟨.accept, .ok (5 : Fd)⟩]

theorem serving_twoAccepted : Serving 9 oneShare (reqhdlrOps 9 oneShare) []
    (connNew 7 ::ₘ {connNew 5}) twoAccepted :=
  .accepted (.accepted .start (by decide)) (by decide)

def turnOf (conn : ServerConnection RequestHandler) : Prog (ConnTurn RequestHandler) :=
  serveTurn 9 oneShare (reqhdlrOps 9 oneShare) conn drsNew false

/-- The turn of the first one, after some calls. -/
def newDirTurn (n : Nat) : Prog (ConnTurn RequestHandler) × History :=
  (turnOf (connNew 7)).playFor (typing [.got newDirRequest]).player n twoAccepted

theorem newDirTurn_moment (n : Nat) : TurnMoment 9 oneShare [] (connNew 7) {connNew 5} twoAccepted
    (newDirTurn n).1 (newDirTurn n).2 :=
  ⟨List.nodup_nil, serving_twoAccepted, drsNew, false, Program.playFor_runs _ n _ _⟩

def slashlessPieces : Environment :=
  typing [.got slashlessRequest, .fail .wouldBlock, .got (ascii "abc")]

def slashlessTurn : Prog (ConnTurn RequestHandler) × History :=
  playIn slashlessPieces (turnOf (connNew 7)) twoAccepted

/-- The connection that has been answered before its form. -/
def answeredTurn : ConnTurn RequestHandler := slashlessTurn.1.result?.get (by decide +kernel)

end Example

/-- Whatever the login state of the request is at a step, the step is one that it permits. -/
theorem calls_permitted (hm : TurnMoment fuel cfg base conn others h₀ q h)
    (hc : q.call? = some c) : Permitted cfg (loginAt conn h₀ h) h c := by
  obtain ⟨next, hq⟩ := Program.eq_call hc
  exact (hm.duty.1 c next hq).1

theorem calls_permitted_mkdir : ∃ q h,
    TurnMoment 9 oneShare [] (connNew 7) {connNew 5} twoAccepted q h ∧
      Permitted oneShare (loginAt (H := RequestHandler) (connNew 7) twoAccepted h) h
        (.mkdir (ascii "/srv/x")) := by
  have hcall : (newDirTurn 9).1.call? = some (.mkdir (ascii "/srv/x")) := by decide +kernel
  exact ⟨_, _, newDirTurn_moment 9, calls_permitted (newDirTurn_moment 9) hcall⟩

/-- The handler is followed where it is missing only behind a response that has ended early. -/
theorem handler_missing_early (hm : TurnMoment fuel cfg base conn others h₀ q h)
    (hf : q.fault? = some (.nullPointer .handler)) : EndedEarly h := by
  have hs : h₀ <:+ h := by
    obtain ⟨drs, closeIfIdle, hrun⟩ := hm.run
    exact Runs.extends hrun
  have htold := (hm.duty.2 _ (Program.eq_fault hf)).2 rfl
  rcases endedEarly_of_told hs htold with horphan | hearly
  · have hkeeps := hm.serving.keeps (K := reqhdlrContract fuel cfg) hm.base_nodup
    exact (hkeeps.lost conn (Multiset.mem_cons_self conn others) horphan).later hs
  · exact hearly

/-- The form of a request that has been answered reaches the missing handler. -/
theorem handler_missing_early_slashless : ∃ q h,
    TurnMoment 9 oneShare [] answeredTurn.conn {connNew 5} slashlessTurn.2 q h ∧
      q.fault? = some (.nullPointer .handler) ∧ EndedEarly h := by
  have hrun : Runs posix (turnOf (connNew 7)) twoAccepted (.done answeredTurn) slashlessTurn.2 :=
    playIn_returns _ _ _ (Option.some_get _).symm
  have hopen : leftOpen answeredTurn = {answeredTurn.conn} := if_neg (by decide +kernel)
  have hserving := serving_twoAccepted.served hrun
  rw [hopen, Multiset.singleton_add] at hserving
  have hm : TurnMoment 9 oneShare [] answeredTurn.conn {connNew 5} slashlessTurn.2
      (playIn slashlessPieces (turnOf answeredTurn.conn) slashlessTurn.2).1 _ :=
    ⟨List.nodup_nil, hserving, drsNew, false, Program.play_runs _ _ _⟩
  have hfault : (playIn slashlessPieces (turnOf answeredTurn.conn) slashlessTurn.2).1.fault? =
      some (.nullPointer .handler) := by decide +kernel
  exact ⟨_, _, hm, hfault, handler_missing_early hm hfault⟩

end Moments

section MainLoop

/-- The rounds of the main loop. -/
inductive MainLoop (fuel : Nat) (cfg : Config) (ops : HandlerOps H) (maxConnCount : Nat)
    (listenfd : Fd) (base : History) : ConnTable H → History → Prop
  | start : MainLoop fuel cfg ops maxConnCount listenfd base ⟨[], drsNew⟩ base
  | round {t t' : ConnTable H} {h h' : History} :
      MainLoop fuel cfg ops maxConnCount listenfd base t h →
      Runs posix (mainRound fuel cfg ops maxConnCount listenfd t) h (.done t') h' →
      MainLoop fuel cfg ops maxConnCount listenfd base t' h'

/-- A step of a server: a step of a turn, whatever turns there were before. -/
def ServerStep (fuel : Nat) (cfg : Config) (ops : HandlerOps H) (base : History) {α : Type}
    (q : Prog α) (h : History) : Prop :=
  ∃ conn others h₀ drs closeIfIdle q', Serving fuel cfg ops base (conn ::ₘ others) h₀ ∧
    Runs posix (serveTurn fuel cfg ops conn drs closeIfIdle) h₀ q' h ∧ q'.SameNext q

theorem ServerStep.same {α β : Type} {p : Prog α} {q : Prog β}
    (hp : ServerStep fuel cfg ops base p h) (hnext : p.SameNext q) :
    ServerStep fuel cfg ops base q h := by
  obtain ⟨conn, others, h₀, drs, closeIfIdle, q', hs, hrun, hsame⟩ := hp
  exact ⟨conn, others, h₀, drs, closeIfIdle, q', hs, hrun, hsame.trans hnext⟩

/-- What the turns of a sweep leave. -/
def sweepLeft (turns : List (Bool × ConnTurn H)) : Multiset (ServerConnection H) :=
  (turns.map fun t => leftOpen t.2).sum

/-- A sweep is a turn of one connection after the other. -/
theorem sweep_serving {full allBusy : Bool} {drs : DataReadySelector}
    {conns : List (ServerConnection H)} {others : Multiset (ServerConnection H)} {h' : History}
    {q : Prog (List (Bool × ConnTurn H) × DataReadySelector)}
    (hs : Serving fuel cfg ops base (conns + others) h)
    (hrun : Runs posix (sweep fuel cfg ops full allBusy drs conns) h q h') :
    ServerStep fuel cfg ops base q h' ∨
      ∃ r, q = .done r ∧ Serving fuel cfg ops base (sweepLeft r.1 + others) h' := by
  induction conns generalizing allBusy drs h others h' q with
  | nil =>
    cases hrun with
    | refl => exact .inr ⟨_, rfl, hs⟩
  | cons conn rest ih =>
    rw [← Multiset.cons_coe, Multiset.cons_add] at hs
    have hstep : ∀ {q'}, Runs posix (serveTurn fuel cfg ops conn drs (full && allBusy)) h q' h' →
        q'.SameNext q → ServerStep fuel cfg ops base q h' :=
      fun hturn hsame => ⟨conn, rest + others, h, drs, _, _, hs, hturn, hsame⟩
    rw [sweep] at hrun
    rcases Program.next_of_bind hrun with ⟨p', hp, hsame⟩ | ⟨turn, u, hturn, hrun⟩
    · exact .inl (hstep (hp.bind _) (hsame.bind _))
    rcases Program.next_of_bind hrun with ⟨p', hp, hsame⟩ | ⟨_, v, hfree, hrun⟩
    · exact .inl (hstep ((hturn.bind _).trans (hp.bind _)) (hsame.bind _))
    have hserved := hs.served ((hturn.bind _).trans (hfree.bind _))
    have hrest : Serving fuel cfg ops base (rest + (leftOpen turn + others)) v := by
      rw [add_left_comm]
      exact hserved
    rcases Program.next_of_bind hrun with ⟨p', hp, hsame⟩ | ⟨⟨turns, drs'⟩, w, hsweep, hrun⟩
    · rcases ih hrest hp with hstep' | ⟨r, rfl, -⟩
      · exact .inl (hstep'.same hsame)
      · cases hsame
    · rcases ih hrest hsweep with ⟨conn', others', h₁, drs₁, b, q', -, -, hsame⟩ | ⟨r, hr, hleft⟩
      · cases hsame
      · cases hr
        cases hrun with
        | refl =>
          refine .inr ⟨_, rfl, ?_⟩
          rw [sweepLeft, List.map_cons, List.sum_cons, add_comm (leftOpen turn), add_assoc]
          exact hleft

/-- The loop that accepts connections; its bound is not used up. -/
theorem acceptLoop_serving {maxConnCount n : Nat} {connections : List (ServerConnection H)}
    {h' : History} {q : Prog (List (ServerConnection H))}
    (hn : maxConnCount - connections.length < n) (hs : Serving fuel cfg ops base connections h)
    (hrun : Runs posix (Program.iterate .outOfFuel (acceptRound maxConnCount) n connections) h q h') :
    (∃ next, q = .call .accept next) ∨
      ∃ conns, q = .done conns ∧ Serving fuel cfg ops base (conns : Multiset _) h' := by
  induction n generalizing connections h with
  | zero => exact absurd hn (Nat.not_lt_zero _)
  | succ n ih =>
    rw [Program.iterate, acceptRound] at hrun
    split at hrun
    · rename_i hlt
      cases hrun with
      | refl => exact .inl ⟨_, rfl⟩
      | step hw hrest =>
        obtain ⟨hr, rfl⟩ := hw
        rename_i r
        cases r with
        | error e =>
          cases hrest with
          | refl => exact .inr ⟨_, rfl, hs.refused⟩
        | ok fd =>
          refine ih ?_ ?_ hrest
          · rw [List.length_append, List.length_singleton]
            omega
          · rw [← Multiset.coe_add, add_comm]
            exact hs.accepted hr
    · cases hrun with
      | refl => exact .inr ⟨_, rfl, hs⟩

theorem leftWith_left (turns : List (Bool × ConnTurn H)) :
    ((leftWith .idle turns ++ leftWith .busy turns : List _) : Multiset _) = sweepLeft turns := by
  induction turns with
  | nil => rfl
  | cons t turns ih =>
    rw [← Multiset.coe_add] at ih ⊢
    rw [leftWith_cons, leftWith_cons, sweepLeft, List.map_cons, List.sum_cons, ← sweepLeft, ← ih]
    unfold leftOpen
    cases t.2.result with
    | toClose => exact (zero_add _).symm
    | idle =>
      rw [if_pos rfl, if_neg (by decide), if_neg (by decide), ← Multiset.cons_coe,
        Multiset.cons_add, Multiset.singleton_add]
    | busy =>
      rw [if_neg (by decide), if_pos rfl, if_neg (by decide), ← Multiset.cons_coe,
        Multiset.add_cons, Multiset.singleton_add]

/-- A round of the main loop accepts connections, and sweeps over the table. -/
theorem mainRound_eq (maxConnCount : Nat) (listenfd : Fd) (t : ConnTable H) :
    mainRound fuel cfg ops maxConnCount listenfd t =
      (acceptConnections maxConnCount t.connections >>= fun connections =>
        sweep fuel cfg ops (connections.length == maxConnCount) true drsNew connections >>=
          fun r => Program.done ⟨leftWith .idle r.1 ++ leftWith .busy r.1, r.2⟩) := by
  have hsets : ∃ drs, (if t.connections.length < maxConnCount
      then (liftM (drsSetReadFd t.drs (some listenfd)) : Prog DataReadySelector)
      else pure t.drs) = .done drs := by
    split
    · exact ⟨_, rfl⟩
    · exact ⟨_, rfl⟩
  obtain ⟨drs, hdrs⟩ := hsets
  unfold mainRound
  rw [hdrs]
  exact congrArg (acceptConnections maxConnCount t.connections >>= ·)
    (funext fun connections => processConnections_eq maxConnCount ⟨connections, drsSelect drs⟩)

theorem mainRound_serving {maxConnCount : Nat} {listenfd : Fd} {t : ConnTable H} {h' : History}
    {q : Prog (ConnTable H)} (hs : Serving fuel cfg ops base t.connections h)
    (hrun : Runs posix (mainRound fuel cfg ops maxConnCount listenfd t) h q h') :
    (∃ next, q = .call .accept next) ∨ ServerStep fuel cfg ops base q h' ∨
      ∃ t', q = .done t' ∧ Serving fuel cfg ops base (t'.connections : Multiset _) h' := by
  rw [mainRound_eq] at hrun
  rcases Program.next_of_bind hrun with ⟨p', hp, hsame⟩ | ⟨connections, u, haccept, hrun⟩
  · rcases acceptLoop_serving (by omega) hs hp with ⟨next, rfl⟩ | ⟨conns, rfl, -⟩
    · cases hsame with
      | call _ _ next' => exact .inl ⟨next', rfl⟩
    · cases hsame
  rcases acceptLoop_serving (by omega) hs haccept with ⟨next, hq⟩ | ⟨conns, hq, hconns⟩
  · cases hq
  cases hq
  rw [← add_zero (connections : Multiset (ServerConnection H))] at hconns
  rcases Program.next_of_bind hrun with ⟨p', hp, hsame⟩ | ⟨r, v, hsweep, hrun⟩
  · rcases sweep_serving hconns hp with hstep | ⟨r, rfl, -⟩
    · exact .inr (.inl (hstep.same hsame))
    · cases hsame
  rcases sweep_serving hconns hsweep with hstep | ⟨r', hr, hleft⟩
  · obtain ⟨_, _, _, _, _, _, -, -, hsame⟩ := hstep
    cases hsame
  cases hr
  cases hrun with
  | refl =>
    refine .inr (.inr ⟨_, rfl, ?_⟩)
    rw [leftWith_left]
    rwa [add_zero] at hleft

/-- Behind any number of rounds the table is a server's. -/
theorem MainLoop.serving {maxConnCount : Nat} {listenfd : Fd} {t : ConnTable H}
    (hm : MainLoop fuel cfg ops maxConnCount listenfd base t h) :
    Serving fuel cfg ops base t.connections h := by
  induction hm with
  | start => exact .start
  | round _ hrun ih =>
    rcases mainRound_serving ih hrun with ⟨next, hq⟩ | hstep | ⟨t', hq, hs⟩
    · cases hq
    · obtain ⟨_, _, _, _, _, _, -, -, hsame⟩ := hstep
      cases hsame
    · cases hq
      exact hs

/-- The main loop is a server: behind any number of its rounds, and at every step of the next
one. -/
theorem main_loop_serves {maxConnCount : Nat} {listenfd : Fd} {t : ConnTable H}
    (hm : MainLoop fuel cfg ops maxConnCount listenfd base t h) :
    Serving fuel cfg ops base t.connections h ∧
      ∀ q h', Runs posix (mainRound fuel cfg ops maxConnCount listenfd t) h q h' →
        (∃ next, q = .call .accept next) ∨ ServerStep fuel cfg ops base q h' ∨
          ∃ t', q = .done t' ∧ MainLoop fuel cfg ops maxConnCount listenfd base t' h' := by
  refine ⟨hm.serving, fun q h' hrun => ?_⟩
  rcases mainRound_serving hm.serving hrun with haccept | hstep | ⟨t', rfl, -⟩
  · exact .inl haccept
  · exact .inr (.inl hstep)
  · exact .inr (.inr ⟨t', rfl, hm.round hrun⟩)

/-- A client that connects, and says nothing. -/
def visiting : Environment := fun h c =>
  match c with
  | .accept =>
    if openFds h = [] then ⟨.ok (Environment.freshFd h), Environment.freshFd_not_mem h⟩
    else ⟨.error .wouldBlock, trivial⟩
  | c => Environment.quiet h c

def visitedRound : Prog (ConnTable RequestHandler) :=
  mainRound 3 bareConfig (reqhdlrOps 3 bareConfig) 1 4 ⟨[], drsNew⟩

theorem main_loop_serves_visitor : Serving 3 bareConfig (reqhdlrOps 3 bareConfig) []
    {connNew 1} (playIn visiting visitedRound []).2 := by
  have hrun : Runs posix visitedRound [] (.done ⟨[connNew 1], ⟨[1], []⟩⟩)
      (playIn visiting visitedRound []).2 := playIn_returns _ _ _ (by decide +kernel)
  exact (main_loop_serves (MainLoop.start.round hrun)).1

end MainLoop

end FilemanagerHttpd.Audit
