import FilemanagerHttpd.Audit.ServerWork

/-!
# What the main loop waits for

Between two rounds the sets of the main loop have, for each connection of the table, a descriptor
that has blocked in the round before. It is still open, unless the connection has lost its handler
to a response that has ended while the body was read.
-/

namespace FilemanagerHttpd.Audit

open Library Server

variable {H : Type} {fuel : Nat} {cfg : Config} {ops : HandlerOps H} {base h₀ h h' : History}

theorem Blocked.earlier {h₁ : History} {state : DataProcessingResultState} {fd : Fd}
    (hb : Blocked h₁ state fd h) (hs : h₀ <:+ h₁) : Blocked h₀ state fd h := by
  obtain ⟨new, rfl, e, hm, he⟩ := hb
  obtain ⟨older, rfl⟩ := hs
  exact ⟨new ++ older, (List.append_assoc _ _ _).symm, e, List.mem_append_left _ hm, he⟩

/-- What a connection waits for stays in the sets while the others have their turns. -/
theorem Awaits.later {view : HandlerView H} {h₁ : History} {conn : ServerConnection H}
    {drs drs' : DataReadySelector} (hw : Awaits view h₁ conn drs h) (hstart : h₀ <:+ h₁)
    (hgrows : Grows drs drs') (hs : h <:+ h') : Awaits view h₀ conn drs' h' := by
  have hlater : ∀ {state fd}, Waiting h₁ drs state fd h → Waiting h₀ drs' state fd h' :=
    fun hwait => ⟨(hwait.1.earlier hstart).later hs, hgrows _ hwait.2⟩
  constructor
  · intro hreading
    obtain ⟨state, fd, hwait, hown⟩ := hw.request hreading
    exact ⟨state, fd, hlater hwait, hown⟩
  · intro hfin
    obtain ⟨state, fd, hwait, hown⟩ := hw.response hfin
    exact ⟨state, fd, hlater hwait, hown⟩

variable {K : HandlerContract cfg ops}

/-- A sweep leaves each connection something to wait for. -/
theorem sweep_awaits {full allBusy : Bool} {drs drs' : DataReadySelector}
    {conns : List (ServerConnection H)} {others : Multiset (ServerConnection H)}
    {turns : List (Bool × ConnTurn H)} (hk : ServerKeeps K base (conns + others) h)
    (hs : h₀ <:+ h) (hrun : Runs posix (sweep fuel cfg ops full allBusy drs conns) h
      (.done (turns, drs')) h') :
    Grows drs drs' ∧ ∀ conn ∈ sweepLeft turns, Awaits K.toHandlerView h₀ conn drs' h' := by
  induction conns generalizing allBusy drs h others turns with
  | nil =>
    obtain ⟨he, -⟩ := Runs.done_eq hrun
    cases he
    exact ⟨Grows.refl _, fun conn hm => absurd hm (Multiset.notMem_zero conn)⟩
  | cons conn rest ih =>
    rw [← Multiset.cons_coe, Multiset.cons_add] at hk
    rw [sweep] at hrun
    obtain ⟨turn, u, hturn, hrun⟩ := Runs.of_bind_done hrun
    obtain ⟨_, v, hfree, hrun⟩ := Runs.of_bind_done hrun
    obtain ⟨⟨turns', drs''⟩, w, hsweep, hrun⟩ := Runs.of_bind_done hrun
    obtain ⟨he, rfl⟩ := Runs.done_eq hrun
    cases he
    have hserved : Runs posix (serveTurn fuel cfg ops conn drs (full && allBusy)) h (.done turn) v :=
      (hturn.bind _).trans (hfree.bind _)
    obtain ⟨_, ⟨-, hgrows, hleft⟩, -⟩ :=
      wp_result (hk.turn fuel drs (full && allBusy)) hserved
    have hkept : ServerKeeps K base (rest + (leftOpen turn + others)) v := by
      rw [add_left_comm]
      exact hk.served hserved
    obtain ⟨hgrows', hrest⟩ := ih hkept (hs.trans (Runs.extends hserved)) hsweep
    refine ⟨hgrows.trans hgrows', fun c hm => ?_⟩
    rw [sweepLeft, List.map_cons, List.sum_cons] at hm
    rcases Multiset.mem_add.mp hm with hm | hm
    · unfold leftOpen at hm
      split at hm
      · exact absurd hm (Multiset.notMem_zero c)
      · rename_i hopen
        rw [Multiset.mem_singleton.mp hm]
        exact (hleft hopen).waits.later hs hgrows' (Runs.extends hsweep)
    · exact hrest c hm

theorem mainRound_awaits {maxConnCount : Nat} {listenfd : Fd} {t t' : ConnTable H}
    (hbase : (openFds base).Nodup) (hs : Serving fuel cfg ops base t.connections h)
    (hrun : Runs posix (mainRound fuel cfg ops maxConnCount listenfd t) h (.done t') h') :
    ∀ conn ∈ t'.connections, Awaits K.toHandlerView h conn t'.drs h' := by
  rw [mainRound_eq] at hrun
  obtain ⟨connections, u, haccept, hrun⟩ := Runs.of_bind_done hrun
  obtain ⟨⟨turns, drs⟩, v, hsweep, hrun⟩ := Runs.of_bind_done hrun
  obtain ⟨he, rfl⟩ := Runs.done_eq hrun
  cases he
  rcases acceptLoop_serving (by omega) hs haccept with ⟨next, hq⟩ | ⟨conns, hq, hconns⟩
  · cases hq
  cases hq
  have hkeeps := hconns.keeps (K := K) hbase
  rw [← add_zero (connections : Multiset (ServerConnection H))] at hkeeps
  obtain ⟨-, hwaits⟩ := sweep_awaits hkeeps (Runs.extends haccept) hsweep
  intro conn hm
  refine hwaits conn ?_
  rw [← leftWith_left]
  exact Multiset.mem_coe.mpr hm

section Example

/-- A client that connects, sends a request and does not read the answer. -/
def stalling : Environment := fun h c =>
  match c with
  | .accept => visiting h .accept
  | .write _ _ => ⟨.fail .wouldBlock, trivial⟩
  | c => typing [.got (ascii "GET /pub HTTP/1.1" ++ crlf ++ crlf)] h c

def stalledRound : Prog (ConnTable RequestHandler) × History :=
  playIn stalling (mainRound 9 oneShare (reqhdlrOps 9 oneShare) 1 4 ⟨[], drsNew⟩) []

def stalledTable : ConnTable RequestHandler := stalledRound.1.result?.get (by decide +kernel)

end Example

end FilemanagerHttpd.Audit
