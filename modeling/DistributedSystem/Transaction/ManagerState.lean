import DistributedSystem.Library.Process
import DistributedSystem.Library.Window
import DistributedSystem.Transaction.VectorClock

/-!
# The transaction manager's state

The transaction table that `tmanager.c` maps from the head of its log file, the record
log behind it, the global variables, and the scans of the record log.
-/

namespace DistributedSystem.Transaction

open DistributedSystem.Library

/-- `struct w`: a participant of a transaction. Port `0` marks a free entry, node id `0`
    one the vote count skips; `voteYes` is the kind of the message that voted. -/
structure W where
  nodeId : NodeId := 0
  port : ℕ := 0
  workerAddr : SockAddr := ⟨0, 0⟩
  voteYes : Option MsgId := none
  deriving DecidableEq

/-- `struct info`: a slot of the table. -/
structure Info where
  tid : Tid := 0
  isCrash : Bool := false
  workers : Fin maxNodes → W := fun _ => {}
  deriving DecidableEq

/-- `crashInfo->workerInfo` -/
abbrev Table := Fin maxTrans → Info

/-- `CoordRecord` -/
structure CoordRecord where
  msgID : MsgId
  tid : Tid
  nodeId : NodeId
  deriving DecidableEq

instance : LogRecord CoordRecord := ⟨CoordRecord.msgID, CoordRecord.tid⟩

@[simp] theorem CoordRecord.logRecord_msgID (r : CoordRecord) : LogRecord.msgID r = r.msgID := rfl

@[simp] theorem CoordRecord.logRecord_tid (r : CoordRecord) : LogRecord.tid r = r.tid := rfl

/-- The volatile state: the globals and the local `rec` of `handleWorkerMsg`. -/
structure ManagerMem where
  up : Bool := false
  myVectorClock : VClock := emptyClock
  abortTid : Tid := 0
  /-- the node id last left in `rec` -/
  recNodeId : NodeId := 0
  deriving DecidableEq

/-- The transaction manager: its port, its files and its memory. -/
structure Manager where
  port : NodeId
  vectorClock : VClock
  workerInfo : Table
  log : List CoordRecord
  shiviz : List (ShiVizEvent × VClock)
  mem : ManagerMem
  deriving DecidableEq

/-- The atomic effects of the manager. `i` is a slot, `j` a participant entry. -/
inductive ManagerEffect where
  /-- `writeRecordToLog` -/
  | log (r : CoordRecord)
  | tid (i : Fin maxTrans) (tid : Tid)
  | isCrash (i : Fin maxTrans) (b : Bool)
  | nodeId (i : Fin maxTrans) (j : Fin maxNodes) (n : NodeId)
  | port (i : Fin maxTrans) (j : Fin maxNodes) (p : ℕ)
  | workerAddr (i : Fin maxTrans) (j : Fin maxNodes) (a : SockAddr)
  | voteYes (i : Fin maxTrans) (j : Fin maxNodes) (v : Option MsgId)
  /-- `myVectorClock` -/
  | clock (vc : VClock)
  | saveVectorTime
  | shiviz (e : ShiVizEvent)
  | send (dst : SockAddr) (m : TxMessage)
  | abortTid (tid : Tid)
  /-- the process is running -/
  | up
  /-- the end of the process, by `_exit` or by a crash -/
  | exit
  deriving DecidableEq

namespace Manager

/-- Change one slot of the table. -/
def withSlot (s : Manager) (i : Fin maxTrans) (f : Info → Info) : Manager :=
  { s with workerInfo := Function.update s.workerInfo i (f (s.workerInfo i)) }

/-- Change one participant entry of the table. -/
def withEntry (s : Manager) (i : Fin maxTrans) (j : Fin maxNodes) (f : W → W) : Manager :=
  s.withSlot i fun x => { x with workers := Function.update x.workers j (f (x.workers j)) }

/-- The state after one effect. -/
def apply (s : Manager) : ManagerEffect → Manager
  | .log r => { s with log := s.log ++ [r], mem := { s.mem with recNodeId := r.nodeId } }
  | .tid i tid => s.withSlot i fun x => { x with tid }
  | .isCrash i b => s.withSlot i fun x => { x with isCrash := b }
  | .nodeId i j n => s.withEntry i j fun w => { w with nodeId := n }
  | .port i j p => s.withEntry i j fun w => { w with port := p }
  | .workerAddr i j a => s.withEntry i j fun w => { w with workerAddr := a }
  | .voteYes i j v => s.withEntry i j fun w => { w with voteYes := v }
  | .clock vc => { s with mem := { s.mem with myVectorClock := vc } }
  | .saveVectorTime => { s with vectorClock := s.mem.myVectorClock }
  | .shiviz e => { s with shiviz := s.shiviz ++ [(e, s.mem.myVectorClock)] }
  | .send _ _ => s
  | .abortTid tid => { s with mem := { s.mem with abortTid := tid } }
  | .up => { s with mem := { s.mem with up := true } }
  | .exit => { s with mem := {} }

end Manager

/-! ## The mapped page -/

/-- The records on the page that `mmap(NULL, 512, ..)` maps: 4096 bytes, of which
    `CoordCrashInfo` takes 1520, at 12 bytes a record. -/
def mappedCoordRecords : ℕ := 214

/-- The record that the page ends in: its `nodeId` lies behind the page, where the memory holds
    zeros. -/
def CoordRecord.cut (r : CoordRecord) : CoordRecord := { r with nodeId := 0 }

/-- A record behind the page. -/
def CoordRecord.zero : CoordRecord := ⟨.other 0, 0, 0⟩

/-- What the scans copy into `records`. -/
def mappedCoord (log : List CoordRecord) : List CoordRecord :=
  window mappedCoordRecords CoordRecord.cut CoordRecord.zero log

@[simp] theorem mappedCoord_nil : mappedCoord [] = [] := rfl

/-- A log that ends on the page is read as it is. -/
theorem mappedCoord_eq_self {log : List CoordRecord} (h : log.length ≤ mappedCoordRecords) :
    mappedCoord log = log := window_eq_self h

/-- A record that is read says of its kind and transaction what a record of the log says, or is
    zero. -/
theorem mem_mappedCoord {log : List CoordRecord} {r : CoordRecord} (h : r ∈ mappedCoord log) :
    (∃ r' ∈ log, r.msgID = r'.msgID ∧ r.tid = r'.tid) ∨ r = CoordRecord.zero := by
  rcases mem_window h with h | ⟨r', hr', rfl⟩ | h
  · exact Or.inl ⟨r, h, rfl, rfl⟩
  · exact Or.inl ⟨r', hr', rfl, rfl⟩
  · exact Or.inr h

/-- A record appended to the log is read behind the others, cut or zero where the page ends. -/
theorem mappedCoord_concat (log : List CoordRecord) (r : CoordRecord) :
    ∃ r', mappedCoord (log ++ [r]) = mappedCoord log ++ [r'] ∧
      ((r'.msgID = r.msgID ∧ r'.tid = r.tid) ∨ r' = CoordRecord.zero) := by
  refine ⟨_, window_concat, ?_⟩
  by_cases hlt : log.length < mappedCoordRecords
  · rw [if_pos hlt]
    exact Or.inl ⟨rfl, rfl⟩
  rw [if_neg hlt]
  by_cases heq : log.length = mappedCoordRecords
  · rw [if_pos heq]
    exact Or.inl ⟨rfl, rfl⟩
  · rw [if_neg heq]
    exact Or.inr rfl

/-! ## Scans of the record log -/

/-- A record of the log marks a decision to commit `tid`. -/
def decidesCommit (tid : Tid) (r : CoordRecord) : Bool := r.tid = tid ∧ r.msgID = .decideCommit

/-- `isCommit`, the scan of all records for one transaction; `findStateFromRecord`
    runs the same scan for every slot. -/
def isCommit (log : List CoordRecord) (curTid : Tid) : Bool :=
  (mappedCoord log).reverse.any (decidesCommit curTid)

/-- The inner loop of `waitingForVotes`, on the records still to be read, last one first.
    The test for a decision compares with `DECIDE_ABORT || DECIDE_COMMIT`, which is `1`. -/
def waitingLoop (curTid : Tid) : List CoordRecord → Bool
  | [] => false
  | r :: rs =>
      if r.tid = curTid then
        if r.msgID = .other 1 then false
        else if r.msgID = .commitReq then true
        else waitingLoop curTid rs
      else waitingLoop curTid rs

/-- `waitingForVotes`: the transaction it stores in `abortTid` when it returns 1. -/
def waitingForVotes (T : Table) (log : List CoordRecord) : Option Tid :=
  (firstFin fun i => waitingLoop (T i).tid (mappedCoord log).reverse).map fun i => (T i).tid

end DistributedSystem.Transaction
