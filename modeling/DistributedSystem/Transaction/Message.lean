import Mathlib.Algebra.GroupWithZero.Nat
import Mathlib.Data.Fintype.Basic
import Mathlib.Data.Fintype.Pi
import Mathlib.Data.Fin.Basic

/-!
# Messages and stored data

The constants and structures of `msg.h`, `tworker.h` and `tmanager.h` that the
transaction manager and the transaction workers share. Transaction ids, node ids,
ports and clock times are natural numbers here; only a tick wraps like the `unsigned int` of
the source. `WireSystem` says for how long all of them fit into their words.
-/

namespace DistributedSystem.Transaction

/-- `MAX_NODES` -/
abbrev maxNodes : ℕ := 10

instance : NeZero maxNodes := ⟨by decide⟩

/-- `MAX_TRANS` -/
abbrev maxTrans : ℕ := 5

/-- A transaction id; `0` marks an empty slot of the manager's table. -/
abbrev Tid := ℕ

/-- A node id: the command port of a worker, the port of the manager. -/
abbrev NodeId := ℕ

/-- A `struct timeval`. -/
abbrev Timeval := ℕ

/-- `enum cmdMsgKind` and `enum managerDecision`; `other` is any other number. -/
inductive MsgId where
  | begintx | jointx | newA | newB | newIdStr | delayResponse | crash | commit | commitCrash
  | abort | abortCrash | voteAbort | voteCommit
  | joinFail | joinSuccess | beginFail | beginSuccess
  | prepareCommit | commitReq | pollDecision | restarted
  | decideAbort | decideCommit | wait
  | other (id : ℕ)
  deriving DecidableEq, Repr

/-- `struct clock`: a node id and the time of that node. Id `0` is an unused entry. -/
structure Clock where
  nodeId : NodeId
  time : ℕ
  deriving DecidableEq, Repr

/-- A vector clock. -/
abbrev VClock := Fin maxNodes → Clock

/-- `struct sockaddr_in` -/
structure SockAddr where
  addr : ℕ
  port : ℕ
  deriving DecidableEq, Repr

/-- `msgType`: a message of the cmd program. `strData` is the arm of the union that
    `msgID` selects. -/
structure MsgType where
  msgID : MsgId
  tid : Tid := 0
  port : ℕ := 0
  newValue : ℤ := 0
  delay : ℤ := 0
  strData : String := ""
  deriving DecidableEq

/-- `txMessage`: a message between a worker and the manager. -/
structure TxMessage where
  msgID : MsgId
  tid : Tid
  nodeId : NodeId
  isCrash : Bool
  vectorClock : VClock
  deriving DecidableEq

/-- `ObjectData`: the object a worker stores. -/
structure ObjectData where
  IDstring : String
  lastUpdateTime : Timeval
  A : ℤ
  B : ℤ
  vectorClock : VClock
  deriving DecidableEq

/-- `CrashInfo`: the head of a worker's log file. -/
structure CrashInfo where
  sys_port : ℕ
  managerAddr : SockAddr
  vectorClock : VClock
  deriving DecidableEq

/-- An event line of the ShiViz log. -/
inductive ShiVizEvent where
  | start
  /-- `writeLocalEventToLog` -/
  | localEvent (msgID : MsgId)
  /-- `writeEventToLog` -/
  | message (msgID : MsgId) (tid : Tid) (isSend : Bool) (toFromNodeId : ℕ)
  deriving DecidableEq

/-! ## Records -/

/-- What the records of both logs name. -/
class LogRecord (ρ : Type) where
  msgID : ρ → MsgId
  tid : ρ → Tid

/-- A record of kind `d` on `t` is in the log. -/
def Logged {ρ : Type} [LogRecord ρ] (d : MsgId) (t : Tid) (log : List ρ) : Prop :=
  ∃ r ∈ log, LogRecord.msgID r = d ∧ LogRecord.tid r = t

instance {ρ : Type} [LogRecord ρ] (d : MsgId) (t : Tid) (log : List ρ) : Decidable (Logged d t log) := by
  unfold Logged; infer_instance

/-! ## Vector clocks -/

/-- A clock without entries. -/
def emptyClock : VClock := fun _ => ⟨0, 0⟩

/-- The clock a node starts with: its own entry, at time 1. -/
def startClock (port : NodeId) : VClock := fun i => if i = 0 then ⟨port, 1⟩ else ⟨0, 0⟩

end DistributedSystem.Transaction
