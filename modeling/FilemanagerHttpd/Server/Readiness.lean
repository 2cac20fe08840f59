import FilemanagerHttpd.Server.System

/-!
# What a connection waits for

`DataProcessingResult` is how the functions below the connection tell it why they
stopped; `DataReadySelector` collects the descriptors for the next `select`.
-/

namespace FilemanagerHttpd.Server

inductive DataProcessingResultState
  | ready | awaitRead | awaitWrite
  deriving DecidableEq, Repr

/-- No descriptor stands for -1. -/
structure DataProcessingResult where
  closeConn : Bool
  reqState : DataProcessingResultState
  reqAwaitFd : Option Fd
  respState : DataProcessingResultState
  respAwaitFd : Option Fd
  deriving DecidableEq, Repr

def dprInit : DataProcessingResult where
  closeConn := false
  reqState := .ready
  reqAwaitFd := none
  respState := .ready
  respAwaitFd := none

def dprSetReqState (dpr : DataProcessingResult) (state : DataProcessingResultState)
    (awaitFd : Option Fd) : DataProcessingResult :=
  { dpr with reqState := state, reqAwaitFd := awaitFd }

def dprSetRespState (dpr : DataProcessingResult) (state : DataProcessingResultState)
    (awaitFd : Option Fd) : DataProcessingResult :=
  { dpr with respState := state, respAwaitFd := awaitFd }

def dprSetCloseConn (dpr : DataProcessingResult) : DataProcessingResult :=
  { dpr with closeConn := true }

/-- The descriptors to wait for; `FD_SET` of -1 leaves its array. -/
structure DataReadySelector where
  readFds : List Fd
  writeFds : List Fd
  deriving DecidableEq, Repr

def drsNew : DataReadySelector := ⟨[], []⟩

def drsSetReadFd (drs : DataReadySelector) : Option Fd → Except Fault DataReadySelector
  | none => .error (.indexOutOfRange .fdSet)
  | some fd => .ok { drs with readFds := fd :: drs.readFds }

def drsSetWriteFd (drs : DataReadySelector) : Option Fd → Except Fault DataReadySelector
  | none => .error (.indexOutOfRange .fdSet)
  | some fd => .ok { drs with writeFds := fd :: drs.writeFds }

end FilemanagerHttpd.Server
