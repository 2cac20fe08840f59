import FilemanagerHttpd.Server.ServerConnection

/-!
# The main loop

A round of `mainloop` accepts what connections it has place for and gives each
connection a turn. The table is compacted in place during the turns.
-/

namespace FilemanagerHttpd.Server

open Library

/-- What the main loop keeps between its rounds. The array has `connCount` entries in use. -/
structure ConnTable (H : Type) where
  connections : List (ServerConnection H)
  drs : DataReadySelector
  deriving DecidableEq

/-- `drs_select` waits, and leaves the sets empty. -/
def drsSelect (_ : DataReadySelector) : DataReadySelector := drsNew

/-- The variables of the loop that gives the turns. -/
structure TableScan (H : Type) where
  connections : List (ServerConnection H)
  busyConnections : List (ServerConnection H)
  drs : DataReadySelector
  i : Nat
  idleConnCount : Nat

variable {H : Type}

/-- One round of the loop that accepts connections. -/
def acceptRound (maxConnCount : Nat) (connections : List (ServerConnection H)) :
    Prog (List (ServerConnection H) ⊕ List (ServerConnection H)) :=
  if connections.length < maxConnCount then do
    match ← perform .accept with
    | .ok acceptfd => return .inl (connections ++ [connNew acceptfd])
    | .error _ => return .inr connections
  else return .inr connections

/-- The test behind this loop asks for more connections than the maximum; it is never met. -/
def acceptConnections (maxConnCount : Nat) (connections : List (ServerConnection H)) :
    Prog (List (ServerConnection H)) :=
  Program.iterate .outOfFuel (acceptRound maxConnCount) (maxConnCount + 1) connections

/-- What becomes of the connection at hand after its turn. -/
def placeConnection (ops : HandlerOps H) (s : TableScan H) (turn : ConnTurn H) :
    Prog (TableScan H) :=
  match turn.result with
  | .busy => return { s with busyConnections := s.busyConnections ++ [turn.conn], i := s.i + 1 }
  | .idle =>
    return { s with
      connections := if s.i ≠ s.idleConnCount then s.connections.set s.idleConnCount turn.conn
        else s.connections
      idleConnCount := s.idleConnCount + 1
      i := s.i + 1 }
  | .toClose => do
    connFree ops turn.conn
    return { s with i := s.i + 1 }

/-- One round of the loop that gives the turns. The table has pointers, so the connection
has changed in it when its turn is over. -/
def scanRound (fuel : Nat) (cfg : Config) (ops : HandlerOps H) (maxConnCount connCount : Nat)
    (s : TableScan H) : Prog (TableScan H ⊕ TableScan H) :=
  match s.connections[s.i]? with
  | none => return .inr s
  | some conn => do
    let turn ← connProcessDataReady fuel cfg ops conn s.drs
      (connCount == maxConnCount && s.i == s.busyConnections.length)
    let s := { s with connections := s.connections.set s.i turn.conn, drs := turn.drs }
    let s ← placeConnection ops s turn
    return .inl s

/-- `connections[idleConnCount+i] = busyConnections[i]`, for each `i`. -/
def putBehind : List (ServerConnection H) → Nat → List (ServerConnection H) →
    List (ServerConnection H)
  | connections, _, [] => connections
  | connections, n, conn :: busy => putBehind (connections.set n conn) (n + 1) busy

/-- The table behind the turns. -/
def TableScan.compacted (s : TableScan H) : ConnTable H where
  connections := (putBehind s.connections s.idleConnCount s.busyConnections).take
    (s.idleConnCount + s.busyConnections.length)
  drs := s.drs

/-- Give each connection of the table a turn. -/
def processConnections (fuel : Nat) (cfg : Config) (ops : HandlerOps H) (maxConnCount : Nat)
    (t : ConnTable H) : Prog (ConnTable H) := do
  let s ← Program.iterate .outOfFuel
    (scanRound fuel cfg ops maxConnCount t.connections.length) (t.connections.length + 1)
    { connections := t.connections, busyConnections := [], drs := t.drs, i := 0,
      idleConnCount := 0 }
  return s.compacted

/-- One round of `mainloop`. -/
def mainRound (fuel : Nat) (cfg : Config) (ops : HandlerOps H) (maxConnCount : Nat)
    (listenfd : Fd) (t : ConnTable H) : Prog (ConnTable H) := do
  let drs ← (if t.connections.length < maxConnCount then liftM (drsSetReadFd t.drs (some listenfd))
    else return t.drs)
  let connections ← acceptConnections maxConnCount t.connections
  processConnections fuel cfg ops maxConnCount ⟨connections, drsSelect drs⟩

end FilemanagerHttpd.Server
