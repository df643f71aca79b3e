import DistributedSystem.Library.Process
import DistributedSystem.Transaction.VectorClock
import DistributedSystem.Transaction.WorkerLog

/-!
# The transaction worker

The state of `tworker.c` and its four entry points as effect lists: a message of the
cmd program (`handleCmdMsg`), a datagram of the manager in the command loop
(`handleManagerMsg`) or while waiting for a decision (`waitingForCoordResponse`), an
expired poll while waiting, and the restart branch of `main`.

Every assignment that outlives the call is one effect, in the order of the source, so
the process can die between any two of them. Files are written through `fwrite` and
shared mappings and survive the process; the global variables do not.
-/

namespace DistributedSystem.Transaction

open DistributedSystem.Library

/-- Where a worker's thread of control waits for its next input. -/
inductive Control where
  | down
  /-- the `poll` of `handleCmdMsg` -/
  | cmdLoop
  /-- the `poll` of `waitingForCoordResponse`, with the address it sends polls to -/
  | waiting (managerAddr : SockAddr)
  deriving DecidableEq

/-- The global variables of `tworker.c`, and `toAddr` of `handleCmdMsg`. -/
structure WorkerMem where
  curTid : Tid := 0
  isTXRun : Bool := false
  delay : ℤ := 0
  isCrash : Bool := false
  vote : Option MsgId := none
  firstTimeWaiting : Bool := false
  myVectorClock : VClock := emptyClock
  toAddr : SockAddr := ⟨0, 0⟩
  control : Control := .down
  deriving DecidableEq

/-- A worker: its command port, its files and its memory. -/
structure Worker where
  nodeId : NodeId
  crashInfo : CrashInfo
  log : List Record
  objData : ObjectData
  shiviz : List (ShiVizEvent × VClock)
  mem : WorkerMem
  deriving DecidableEq

/-- The atomic effects of a worker. `update*` are the in-place writes of the `NEW_*`
    commands, `restore*` those of `readValFromRecord`. -/
inductive WorkerEffect where
  /-- `writeRecordToLog` -/
  | log (r : Record)
  | updateA (v : ℤ) | updateB (v : ℤ) | updateID (s : String)
  /-- `gettimeofday(&objData->lastUpdateTime, NULL)` -/
  | lastUpdateTime (now : Timeval)
  /-- `objData->vectorClock[i].time = myVectorClock[i].time` -/
  | objClock (i : ℕ)
  | restoreA (v : ℤ) | restoreB (v : ℤ) | restoreID (s : String)
  | restoreClock (k : Fin maxNodes) (c : Clock) | restoreTime (t : Timeval)
  /-- `myVectorClock` -/
  | clock (vc : VClock)
  | saveVectorTime
  /-- `crashInfo->managerAddr = managerAddr` -/
  | managerAddr (a : SockAddr)
  | shiviz (e : ShiVizEvent)
  | send (dst : SockAddr) (m : TxMessage)
  /-- `curTid = msg.tid; isTXRun = 1` on `JOIN_SUCCESS` -/
  | joined (tid : Tid)
  /-- `curTid = r.tid` in `findStateFromRecord` -/
  | curTid (tid : Tid)
  | isTXRun (b : Bool)
  | delay (d : ℤ)
  | isCrash (b : Bool)
  | vote (v : Option MsgId)
  | firstTimeWaiting (b : Bool)
  | toAddr (a : SockAddr)
  | control (c : Control)
  /-- the end of the process, by `_exit` or by a crash -/
  | exit
  deriving DecidableEq

/-- What the calls return that the branches of `handleCmdMsg` make. -/
structure CmdCalls where
  gettimeofday : Timeval
  gethostbyname : Option ℕ
  deriving DecidableEq

namespace Worker

/-- The log ends on the page that the scans read. -/
def OnPage (w : Worker) : Prop := w.log.length ≤ mappedRecords

instance (w : Worker) : Decidable w.OnPage := inferInstanceAs (Decidable (_ ≤ _))

/-- Change the memory of a worker. -/
def withMem (w : Worker) (f : WorkerMem → WorkerMem) : Worker := { w with mem := f w.mem }

/-- Change the stored object of a worker. -/
def withObj (w : Worker) (f : ObjectData → ObjectData) : Worker := { w with objData := f w.objData }

/-- The state after one effect. -/
def apply (w : Worker) : WorkerEffect → Worker
  | .log r => { w with log := w.log ++ [r] }
  | .updateA v | .restoreA v => w.withObj fun o => { o with A := v }
  | .updateB v | .restoreB v => w.withObj fun o => { o with B := v }
  | .updateID s | .restoreID s => w.withObj fun o => { o with IDstring := s }
  | .lastUpdateTime now | .restoreTime now => w.withObj fun o => { o with lastUpdateTime := now }
  | .objClock i =>
      -- for i = MAX_NODES the source writes past the array, outside the modelled object
      if h : i < maxNodes then
        let entry : Clock :=
          { w.objData.vectorClock ⟨i, h⟩ with time := (w.mem.myVectorClock ⟨i, h⟩).time }
        w.withObj fun o => { o with vectorClock := Function.update o.vectorClock ⟨i, h⟩ entry }
      else w
  | .restoreClock k c => w.withObj fun o => { o with vectorClock := Function.update o.vectorClock k c }
  | .clock vc => w.withMem fun m => { m with myVectorClock := vc }
  | .saveVectorTime => { w with crashInfo := { w.crashInfo with vectorClock := w.mem.myVectorClock } }
  | .managerAddr a => { w with crashInfo := { w.crashInfo with managerAddr := a } }
  | .shiviz e => { w with shiviz := w.shiviz ++ [(e, w.mem.myVectorClock)] }
  | .send _ _ => w
  | .joined tid => w.withMem fun m => { m with curTid := tid, isTXRun := true }
  | .curTid tid => w.withMem fun m => { m with curTid := tid }
  | .isTXRun b => w.withMem fun m => { m with isTXRun := b }
  | .delay d => w.withMem fun m => { m with delay := d }
  | .isCrash b => w.withMem fun m => { m with isCrash := b }
  | .vote v => w.withMem fun m => { m with vote := v }
  | .firstTimeWaiting b => w.withMem fun m => { m with firstTimeWaiting := b }
  | .toAddr a => w.withMem fun m => { m with toAddr := a }
  | .control c => w.withMem fun m => { m with control := c }
  | .exit => { w with mem := {} }

/-! ## Sending -/

/-- `constructMessage` with the message kind already chosen. -/
def constructMessage (w : Worker) (msgID : MsgId) (tid : Tid) (vc : VClock) : TxMessage :=
  -- isCrash is not assigned by the source, and the manager does not read it here
  { msgID, tid, nodeId := w.nodeId, isCrash := false, vectorClock := vc }

/-- `constructTxMessage` -/
def constructTxMessage (w : Worker) (msgKind : MsgId) (tid : Tid) (nodeId : NodeId)
    (vc : VClock) : TxMessage :=
  { msgID := msgKind, tid, nodeId, isCrash := w.mem.isCrash, vectorClock := vc }

/-- `sendMsg`, with `vc` the current clock. A negative delay ends the process, and
    `-1000` does so before the datagram is sent. -/
def sendMsg (w : Worker) (vc : VClock) (dst : SockAddr) (m : TxMessage) : List WorkerEffect :=
  -- both crashes write the same line and save the clock
  let crashed := [.clock (tick m.nodeId vc), .saveVectorTime, .shiviz (.localEvent .crash), .exit]
  if w.mem.delay = -1000 then crashed
  else if w.mem.delay < 0 then .send dst m :: crashed
  else [.send dst m]

/-! ## Rollback -/

/-- The writes `readValFromRecord` makes at a join record. -/
def restore (x : OldValues × Record) : List WorkerEffect :=
  [.restoreA x.1.oldA, .restoreB x.1.oldB, .restoreID x.1.oldID] ++
    (List.finRange maxNodes).map (fun k => .restoreClock k (x.2.vectorClock k)) ++
    [.restoreTime x.2.lastUpdateTime]

/-- `readValFromRecord` as effects. -/
def rollback (w : Worker) (curTid : Tid) : List WorkerEffect :=
  (readValFromRecord w.log curTid w.objData).flatMap restore

/-! ## Messages of the cmd program -/

/-- The three update branches of `handleCmdMsg`: the undo record when a transaction is
    running, the in-place write, and the stamps. `NEW_IDSTR` leaves the object's clock alone. -/
def updateObject (w : Worker) (undo : Record) (write : WorkerEffect) (stampClock : Bool)
    (now : Timeval) : List WorkerEffect :=
  let (myTime, vc) := updateMyVectorClock w.nodeId w.mem.myVectorClock
  -- outside a transaction the object is written without a record
  (if w.mem.isTXRun then [.log undo] else []) ++
    [write, .clock vc, .saveVectorTime, .shiviz (.localEvent undo.msgID), .lastUpdateTime now] ++
    (if stampClock then [.objClock myTime] else [])

/-- `case NEW_A` -/
def handleNewA (w : Worker) (m : MsgType) (now : Timeval) : List WorkerEffect :=
  w.updateObject { msgID := .newA, tid := w.mem.curTid, oldValue := w.objData.A }
    (.updateA m.newValue) true now

/-- `case NEW_B` -/
def handleNewB (w : Worker) (m : MsgType) (now : Timeval) : List WorkerEffect :=
  w.updateObject { msgID := .newB, tid := w.mem.curTid, oldValue := w.objData.B }
    (.updateB m.newValue) true now

/-- `case NEW_IDSTR` -/
def handleNewIdStr (w : Worker) (m : MsgType) (now : Timeval) : List WorkerEffect :=
  w.updateObject { msgID := .newIdStr, tid := w.mem.curTid, oldID := w.objData.IDstring }
    (.updateID m.strData) false now

/-- `case BEGINTX` and `case JOINTX`. The arguments of the `memcpy` are swapped, so the
    resolved host never reaches `toAddr.sin_addr`, which stays zero. -/
def handleBeginJoin (w : Worker) (m : MsgType) (toIP : Option ℕ) : List WorkerEffect :=
  match toIP with
  -- `toIP->h_addr` goes through a null pointer
  | none => [.exit]
  | some _ =>
      let toAddr : SockAddr := ⟨0, m.port % 65536⟩
      let vc := tick w.nodeId w.mem.myVectorClock
      [.toAddr toAddr, .clock vc, .saveVectorTime,
        .shiviz (.message m.msgID m.tid true toAddr.port)] ++
        w.sendMsg vc toAddr (w.constructMessage m.msgID m.tid vc)

/-- `case COMMIT` and `case COMMIT_CRASH`, which differ in the flag and in the record. -/
def handleCommit (w : Worker) (m : MsgType) : List WorkerEffect :=
  let vc := tick w.nodeId w.mem.myVectorClock
  [.isCrash (m.msgID = .commitCrash), .log { msgID := m.msgID, tid := w.mem.curTid },
    .clock vc, .saveVectorTime, .shiviz (.message .commit w.mem.curTid true w.mem.toAddr.port)] ++
    w.sendMsg vc w.mem.toAddr (w.constructMessage .commit w.mem.curTid vc)

/-- `case ABORT` and `case ABORT_CRASH`, which differ in the flag. -/
def handleAbort (w : Worker) (m : MsgType) : List WorkerEffect :=
  [.isCrash (m.msgID = .abortCrash)] ++ w.rollback w.mem.curTid ++
    [.clock (tick w.nodeId w.mem.myVectorClock), .shiviz (.localEvent m.msgID), .saveVectorTime,
      .log { msgID := .abort, tid := w.mem.curTid }]

/-- `case CRASH` -/
def handleCrash (w : Worker) : List WorkerEffect :=
  [.clock (tick w.nodeId w.mem.myVectorClock), .saveVectorTime, .shiviz (.localEvent .crash), .exit]

/-- One message in the loop of `handleCmdMsg`. -/
def handleCmdMsg (w : Worker) (m : MsgType) (calls : CmdCalls) : List WorkerEffect :=
  match m.msgID with
  | .begintx | .jointx => w.handleBeginJoin m calls.gethostbyname
  | .newA => w.handleNewA m calls.gettimeofday
  | .newB => w.handleNewB m calls.gettimeofday
  | .newIdStr => w.handleNewIdStr m calls.gettimeofday
  | .delayResponse => [.delay m.delay]
  | .crash => w.handleCrash
  | .commitCrash | .commit => w.handleCommit m
  | .abortCrash | .abort => w.handleAbort m
  | .voteAbort => [.vote (some .voteAbort)]
  | _ => []

/-! ## Datagrams of the manager -/

/-- The clock after a datagram has been merged and the own entry advanced. -/
def receivedClock (w : Worker) (m : TxMessage) : VClock :=
  tick w.nodeId (mergeVectorClock w.mem.myVectorClock m)

/-- What both receive paths do before they look at the message kind. -/
def receive (w : Worker) (src : SockAddr) (m : TxMessage) : List WorkerEffect :=
  [.clock (mergeVectorClock w.mem.myVectorClock m), .clock (w.receivedClock m), .saveVectorTime,
    .shiviz (.message m.msgID m.tid false src.port)]

/-- `DECIDE_COMMIT` in either receive path. -/
def handleDecideCommit (m : TxMessage) : List WorkerEffect :=
  [.log { msgID := .decideCommit, tid := m.tid }, .isTXRun false]

/-- `DECIDE_ABORT` in either receive path: the rollback is that of `curTid`, the record
    carries the tid of the message. -/
def handleDecideAbort (w : Worker) (m : TxMessage) : List WorkerEffect :=
  w.rollback w.mem.curTid ++ [.log { msgID := .decideAbort, tid := m.tid }, .isTXRun false]

/-- The record of `JOIN_FAIL` and `JOIN_SUCCESS`. -/
def joinRecord (w : Worker) (m : TxMessage) : Record :=
  { msgID := .jointx, tid := m.tid, vectorClock := w.objData.vectorClock,
    lastUpdateTime := w.objData.lastUpdateTime }

/-- The vote on a `PREPARE_COMMIT`; the log already holds its record. -/
def voteFor (w : Worker) (m : TxMessage) : MsgId :=
  if isLocalAbort (w.log ++ [{ msgID := .prepareCommit, tid := m.tid }]) w.mem.curTid = true ∨
      w.mem.vote = some .voteAbort then .voteAbort
  else .voteCommit

/-- `case PREPARE_COMMIT`. The vote record is a `VOTE_COMMIT` record in every case; it
    is reached only when `sendMsg` returns. -/
def handlePrepareCommit (w : Worker) (src : SockAddr) (m : TxMessage) : List WorkerEffect :=
  let vc := tick w.nodeId (w.receivedClock m)
  let ballot := w.voteFor m
  [.log { msgID := .prepareCommit, tid := m.tid }, .clock vc, .saveVectorTime] ++
    -- a `VOTE_ABORT` of the cmd program counts once
    (if ballot = .voteAbort then [.vote none] else []) ++
    [.shiviz (.message ballot m.tid true src.port)] ++
    w.sendMsg vc src (w.constructTxMessage ballot m.tid m.nodeId vc) ++
    if w.mem.delay < 0 then []
    else [.log { msgID := .voteCommit, tid := m.tid }, .firstTimeWaiting true,
      .control (.waiting src)]

/-- `handleManagerMsg` -/
def handleManagerMsg (w : Worker) (src : SockAddr) (m : TxMessage) : List WorkerEffect :=
  w.receive src m ++
    match m.msgID with
    | .joinFail => [.log (w.joinRecord m)]
    | .joinSuccess => [.joined m.tid, .managerAddr src, .log (w.joinRecord m)]
    | .decideCommit => handleDecideCommit m
    | .prepareCommit => w.handlePrepareCommit src m
    | .decideAbort => w.handleDecideAbort m
    | _ => []

/-- A datagram in the loop of `waitingForCoordResponse`: the function returns, whatever
    the datagram says. -/
def waitingForCoordResponse (w : Worker) (src : SockAddr) (m : TxMessage) : List WorkerEffect :=
  w.receive src m ++
    -- nothing compares the tid of the decision with `curTid`
    (match m.msgID with
      | .decideCommit => handleDecideCommit m
      | .decideAbort => w.handleDecideAbort m
      | _ => []) ++
    [.control .cmdLoop]

/-- An expired `poll` in the loop of `waitingForCoordResponse`. -/
def pollDecision (w : Worker) (managerAddr : SockAddr) : List WorkerEffect :=
  let vc := tick w.nodeId w.mem.myVectorClock
  [.firstTimeWaiting false, .clock vc, .saveVectorTime,
    .shiviz (.message .pollDecision w.mem.curTid true managerAddr.port)] ++
    w.sendMsg vc managerAddr (w.constructTxMessage .pollDecision w.mem.curTid w.nodeId vc)

/-! ## Restart -/

/-- The kinds of a last record for which `main` asks the manager instead of aborting. -/
def awaitsDecision (state : Option MsgId) : Bool :=
  state ∈ [some .abort, some .decideAbort, some .prepareCommit, some .voteCommit, some .decideCommit]

/-- `curTid` after `findStateFromRecord`. -/
def recoveredTid (w : Worker) : Tid :=
  match findStateFromRecord w.log with
  | some r => r.tid
  | none => w.mem.curTid

/-- The restart branch of `main`, up to the first `poll`. -/
def restart (w : Worker) : List WorkerEffect :=
  -- the saved clock, advanced by the restart
  let vc := tick w.nodeId w.crashInfo.vectorClock
  [.clock w.crashInfo.vectorClock, .clock vc, .saveVectorTime, .shiviz (.localEvent .restarted),
    .curTid w.recoveredTid] ++
    if awaitsDecision ((findStateFromRecord w.log).map Record.msgID) then
      [.control (.waiting w.crashInfo.managerAddr)]
    else
      -- any other last record: abort without asking
      w.rollback w.recoveredTid ++
        [.clock (tick w.nodeId vc), .shiviz (.localEvent .abort), .saveVectorTime,
          .log { msgID := .abort, tid := w.recoveredTid }, .isTXRun false, .control .cmdLoop]

/-! ## The process -/

/-- What a worker can be given next. -/
inductive Input where
  | cmd (m : MsgType) (calls : CmdCalls)
  | manager (src : SockAddr) (m : TxMessage)
  | pollTimeout
  | restart
  deriving DecidableEq

/-- The inputs a worker takes in its current wait. -/
def accepts (w : Worker) : Input → Prop
  | .cmd _ _ => w.mem.control = .cmdLoop
  | .manager _ _ => w.mem.control ≠ .down
  | .pollTimeout => w.mem.control ≠ .down ∧ w.mem.control ≠ .cmdLoop
  | .restart => w.mem.control = .down

instance (w : Worker) : ∀ i, Decidable (w.accepts i)
  | .cmd _ _ | .restart => inferInstanceAs (Decidable (_ = _))
  | .manager _ _ => inferInstanceAs (Decidable (_ ≠ _))
  | .pollTimeout => inferInstanceAs (Decidable (_ ∧ _))

/-- The effects of an input. -/
def handle (w : Worker) : Input → List WorkerEffect
  | .cmd m calls => w.handleCmdMsg m calls
  | .manager src m =>
      match w.mem.control with
      | .waiting _ => w.waitingForCoordResponse src m
      | _ => w.handleManagerMsg src m
  | .pollTimeout =>
      match w.mem.control with
      | .waiting managerAddr => w.pollDecision managerAddr
      | _ => []
  | .restart => w.restart

/-- The worker process. -/
def process : Process Worker WorkerEffect Input where
  apply := apply
  handler := handle
  crash _ := .exit
  accepts := accepts

instance (w : Worker) (a : Act Input) : Decidable (process.machine.enabled w a) :=
  inferInstanceAs (Decidable (w.accepts a.input))

/-- A worker after its first start, on an object file whose `A`, `B` and `IDstring` hold
    whatever the file held. -/
def start (nodeId : NodeId) (sys_port : ℕ) (A B : ℤ) (IDstring : String) (now : Timeval) : Worker :=
  { nodeId
    crashInfo := { sys_port, managerAddr := ⟨0, 0⟩, vectorClock := startClock nodeId }
    log := []
    objData := { IDstring, lastUpdateTime := now, A, B, vectorClock := startClock nodeId }
    shiviz := [(.start, startClock nodeId)]
    mem := { myVectorClock := startClock nodeId, control := .cmdLoop } }

end Worker

end DistributedSystem.Transaction
