import DistributedSystem.Transaction.ManagerState

/-!
# The transaction manager

The functions of `tmanager.c` that work on the table, the event loop of
`handleWorkerMsg` and the restart branch of `main`, as effect lists in the order of
the source. The process can die between any two effects.
-/

namespace DistributedSystem.Transaction

open DistributedSystem.Library

namespace Manager

/-- The log ends on the page that the scans read. -/
def OnPage (s : Manager) : Prop := s.log.length ≤ mappedCoordRecords

instance (s : Manager) : Decidable s.OnPage := inferInstanceAs (Decidable (_ ≤ _))

/-! ## The transaction table -/

/-- The first slot that holds `tid`. -/
def findSlot (T : Table) (tid : Tid) : Option (Fin maxTrans) := firstFin fun i => (T i).tid = tid

/-- Enter a worker into the first free entry of slot `i`, if there is one. -/
def addWorker (T : Table) (i : Fin maxTrans) (port : ℕ) (nodeId : NodeId) (addr : SockAddr) :
    List ManagerEffect :=
  match firstFin fun j => ((T i).workers j).port = 0 with
  | some j => [.port i j port, .nodeId i j nodeId, .workerAddr i j addr]
  | none => []

/-- `saveWorkerInfo`: its return value and its effects. `index` is what the variable of
    that name holds before the search assigns it; the search leaves it alone when it runs
    off the table. An `index` outside the table makes the source write elsewhere, and
    the table stays as it is. -/
def saveWorkerInfo (T : Table) (port : ℕ) (tid : Tid) (msgID : MsgId) (nodeId : NodeId)
    (addr : SockAddr) (index : ℕ) : ℤ × List ManagerEffect :=
  match firstFin fun i => (T i).tid = tid ∨ (T i).tid = 0 with
  | some i =>
      if (T i).tid = tid then
        -- the transaction has been begun; a `BEGINTX` fails
        if msgID = .begintx then (-1, [])
        else (0, if msgID = .jointx then addWorker T i port nodeId addr else [])
      -- a free slot ends the search: there is nothing to join, or the transaction gets it
      else if msgID = .jointx then (-1, [])
      else (0, [.tid i tid])
  | none =>
      -- the table is full, and `index` is what it was
      (0, if h : msgID = .jointx ∧ index < maxTrans then addWorker T ⟨index, h.2⟩ port nodeId addr
          else [])

/-- `cleanWorkerInfo` -/
def cleanWorkerInfo (T : Table) (tid : Tid) : List ManagerEffect :=
  match findSlot T tid with
  | some i =>
      (List.finRange maxNodes).flatMap (fun j => [.nodeId i j 0, .port i j 0, .voteYes i j none]) ++
        [.isCrash i false, .tid i 0]
  | none => []

/-- The loop of `collectVote` over the participants; `commit₀` is what its local `commit`, which
    is not initialised, holds so far. -/
def tally : List W → MsgId → MsgId
  | [], commit₀ => commit₀
  | w :: ws, commit₀ =>
      if w.nodeId ≠ 0 then
        -- a vote against ends the count, and so does a missing vote
        if w.voteYes = some .voteAbort ∨ w.voteYes = some .abort then .decideAbort
        else if w.voteYes = none then .wait
        else tally ws .decideCommit
      else tally ws commit₀

/-- The vote that `collectVote` writes into slot `i`. The condition around the write ends
    in `|| VOTE_ABORT`, which holds for every message, polls included. -/
def recordVote (T : Table) (i : Fin maxTrans) (m : TxMessage) : List ManagerEffect :=
  match firstFin fun j => ((T i).workers j).nodeId = m.nodeId with
  | some j => [.voteYes i j (some m.msgID)]
  | none => []

/-- `collectVote`: the decision and the effects; `commit₀` is the value of the local
    variable `commit` before the count assigns it. -/
def collectVote (s : Manager) (m : TxMessage) (commit₀ : MsgId) : MsgId × List ManagerEffect :=
  match findSlot s.workerInfo m.tid with
  | some i =>
      let es := recordVote s.workerInfo i m
      (tally (List.ofFn ((es.foldl apply s).workerInfo i).workers) commit₀, es)
  -- cleaned up: the log knows the decision, and no record counts as abort
  | none => (if isCommit s.log m.tid then .decideCommit else .decideAbort, [])

/-- `setCrash` -/
def setCrash (T : Table) (m : TxMessage) : List ManagerEffect :=
  match findSlot T m.tid with
  | some i => [.isCrash i ((T i).isCrash || m.isCrash)]
  | none => []

/-- `resetCrash` -/
def resetCrash (T : Table) (m : TxMessage) : List ManagerEffect :=
  match findSlot T m.tid with
  | some i => [.isCrash i false]
  | none => []

/-- `getCrash` -/
def getCrash (T : Table) (m : TxMessage) : Bool :=
  match findSlot T m.tid with
  | some i => (T i).isCrash
  | none => false

/-! ## Sending -/

/-- `constructMessage`; the fields it does not assign are zero here. -/
def constructMessage (msgKind : MsgId) (tid : Tid) (nodeId : NodeId) (vc : VClock) : TxMessage :=
  { msgID := msgKind, tid, nodeId, isCrash := false, vectorClock := vc }

/-- Advance the clock and send one message, as in the poll replies and in the loop of
    `sendToAllWorkers`. -/
def sendTo (port : NodeId) (vc : VClock) (dst : SockAddr) (msgKind : MsgId) (tid : Tid)
    (nodeId : NodeId) : List ManagerEffect :=
  let vc := tick port vc
  [.clock vc, .saveVectorTime, .shiviz (.message msgKind tid true nodeId),
    .send dst (constructMessage msgKind tid nodeId vc)]

/-- The participants `sendToAllWorkers` reaches: those with a port, in every slot that
    holds `tid`. -/
def targets (T : Table) (tid : Tid) : List W :=
  (List.finRange maxTrans).flatMap fun i =>
    if (T i).tid = tid then (List.ofFn (T i).workers).filter (fun w => w.port ≠ 0) else []

/-- The loop of `sendToAllWorkers`. A participant with node id `0` gets the node id of
    the message that is answered. -/
def sendLoop (port : NodeId) (msgKind : MsgId) (recvNodeId : NodeId) :
    VClock → List (Tid × W) → List ManagerEffect
  | _, [] => []
  | vc, (tid, w) :: ws =>
      sendTo port vc w.workerAddr msgKind tid (if w.nodeId = 0 then recvNodeId else w.nodeId) ++
        sendLoop port msgKind recvNodeId (tick port vc) ws

/-- `sendToAllWorkers` -/
def sendToAllWorkers (s : Manager) (vc : VClock) (tid : Tid) (recvNodeId : NodeId)
    (msgKind : MsgId) : List ManagerEffect :=
  sendLoop s.port msgKind recvNodeId vc ((targets s.workerInfo tid).map fun w => (tid, w))

/-! ## The event loop -/

/-- The values of uninitialised locals that a run of the loop body can meet. -/
structure Uninit where
  index : ℕ := 0
  commit : MsgId := .other 0
  deriving DecidableEq

/-- The expired `poll`: abort the transaction `waitingForVotes` names. -/
def voteTimeout (s : Manager) : List ManagerEffect :=
  match waitingForVotes s.workerInfo s.log with
  | some tid =>
      -- `nodeId` of the record is what the last record left there
      [.abortTid tid, .log { msgID := .decideAbort, tid, nodeId := s.mem.recNodeId }] ++
        s.sendToAllWorkers s.mem.myVectorClock tid 0 .decideAbort ++
        cleanWorkerInfo s.workerInfo tid
  | none => []

/-- The clock after the own entry is advanced and a message merged. -/
def receivedClock (s : Manager) (m : TxMessage) : VClock :=
  mergeVectorClock (tick s.port s.mem.myVectorClock) m

/-- What the loop does with every message before it looks at its kind. -/
def receive (s : Manager) (m : TxMessage) : List ManagerEffect :=
  [.clock (tick s.port s.mem.myVectorClock), .clock (s.receivedClock m), .saveVectorTime,
    .shiviz (.message m.msgID m.tid false m.nodeId)]

/-- The reply to a `BEGINTX` or `JOINTX`, sent on the clock `vc`. -/
def reply (src : SockAddr) (m : TxMessage) (msgKind : MsgId) (vc : VClock) : List ManagerEffect :=
  [.shiviz (.message msgKind m.tid true m.nodeId),
    .send src (constructMessage msgKind m.tid m.nodeId vc)]

/-- `case BEGINTX` -/
def handleBegin (s : Manager) (src : SockAddr) (m : TxMessage) (u : Uninit) : List ManagerEffect :=
  let saved := saveWorkerInfo s.workerInfo src.port m.tid m.msgID m.nodeId src u.index
  let vc := tick s.port (s.receivedClock m)
  saved.2 ++ [.clock vc, .saveVectorTime] ++
    reply src m (if saved.1 < 0 then .beginFail else .beginSuccess) vc

/-- `case JOINTX` -/
def handleJoin (s : Manager) (src : SockAddr) (m : TxMessage) (u : Uninit) : List ManagerEffect :=
  let saved := saveWorkerInfo s.workerInfo src.port m.tid m.msgID m.nodeId src u.index
  let vc := tick s.port (s.receivedClock m)
  saved.2 ++ [.clock vc, .saveVectorTime] ++
    if saved.1 < 0 then reply src m .joinFail vc
    else .log { msgID := m.msgID, tid := m.tid, nodeId := m.nodeId } :: reply src m .joinSuccess vc

/-- `case COMMIT` -/
def handleCommit (s : Manager) (m : TxMessage) : List ManagerEffect :=
  .log { msgID := .commitReq, tid := m.tid, nodeId := m.nodeId } ::
    s.sendToAllWorkers (s.receivedClock m) m.tid m.nodeId .prepareCommit

/-- What follows a logged decision: the record, and then either the requested crash,
    which clears the slot without telling anyone, or the broadcast and the clearing. -/
def announce (s : Manager) (m : TxMessage) (decision : MsgId) : List ManagerEffect :=
  .log { msgID := decision, tid := m.tid, nodeId := m.nodeId } ::
    if getCrash s.workerInfo m then
      -- `_exit` comes before the broadcast
      resetCrash s.workerInfo m ++
        [.clock (tick s.port (s.receivedClock m)), .saveVectorTime, .shiviz (.localEvent .crash)] ++
        cleanWorkerInfo s.workerInfo m.tid ++ [.exit]
    else
      s.sendToAllWorkers (s.receivedClock m) m.tid m.nodeId decision ++
        cleanWorkerInfo s.workerInfo m.tid

/-- `if (msg.isCrash == 1) setCrash(msg)` -/
def crashFlag (s : Manager) (m : TxMessage) : List ManagerEffect :=
  if m.isCrash then setCrash s.workerInfo m else []

/-- `case POLL_DECISION` and `case VOTE_COMMIT`, which share their code. -/
def handleVote (s : Manager) (src : SockAddr) (m : TxMessage) (u : Uninit) : List ManagerEffect :=
  let flag := s.crashFlag m
  let votes := collectVote (flag.foldl apply s) m u.commit
  flag ++ votes.2 ++
    match votes.1 with
    | .decideCommit =>
        -- a poll is answered, and the decision is not announced
        if m.msgID = .pollDecision then
          sendTo s.port (s.receivedClock m) src .decideCommit m.tid m.nodeId
        else ((flag ++ votes.2).foldl apply s).announce m .decideCommit
    | .decideAbort => sendTo s.port (s.receivedClock m) src .decideAbort m.tid m.nodeId
    | _ => []

/-- `case VOTE_ABORT` -/
def handleVoteAbort (s : Manager) (m : TxMessage) : List ManagerEffect :=
  s.crashFlag m ++ ((s.crashFlag m).foldl apply s).announce m .decideAbort

/-- One message in the loop of `handleWorkerMsg`. -/
def handleWorkerMsg (s : Manager) (src : SockAddr) (m : TxMessage) (u : Uninit) :
    List ManagerEffect :=
  s.receive m ++
    match m.msgID with
    | .begintx => s.handleBegin src m u
    | .jointx => s.handleJoin src m u
    | .commit => s.handleCommit m
    | .pollDecision | .voteCommit => s.handleVote src m u
    | .voteAbort => s.handleVoteAbort m
    | _ => []

/-! ## Restart -/

/-- The participants that the recovery broadcast of `main` reaches: those of every slot
    without a commit record, once for every slot that holds the same transaction. -/
def recoveryTargets (T : Table) (log : List CoordRecord) : List (Tid × W) :=
  (List.finRange maxTrans).flatMap fun k =>
    -- empty slots are gone through as well
    if isCommit log (T k).tid then [] else (targets T (T k).tid).map fun w => ((T k).tid, w)

/-- The restart branch of `main`, up to the first `poll`. -/
def restart (s : Manager) : List ManagerEffect :=
  let vc := tick s.port s.vectorClock
  [.clock s.vectorClock, .clock vc, .saveVectorTime, .shiviz (.localEvent .restarted)] ++
    sendLoop s.port .decideAbort 0 vc (recoveryTargets s.workerInfo s.log) ++ [.up]

/-! ## The process -/

/-- What the manager can be given next. -/
inductive Input where
  | message (src : SockAddr) (m : TxMessage) (u : Uninit)
  | timeout
  | restart
  deriving DecidableEq

/-- The inputs the manager takes: a restart when it is down, the others when it is up. -/
def accepts (s : Manager) : Input → Prop
  | .message _ _ _ | .timeout => s.mem.up = true
  | .restart => s.mem.up = false

instance (s : Manager) : ∀ i, Decidable (s.accepts i)
  | .message _ _ _ | .timeout | .restart => inferInstanceAs (Decidable (_ = _))

/-- The effects of an input. -/
def handle (s : Manager) : Input → List ManagerEffect
  | .message src m u => s.handleWorkerMsg src m u
  | .timeout => s.voteTimeout
  | .restart => s.restart

/-- The manager process. -/
def process : Process Manager ManagerEffect Input where
  apply := apply
  handler := handle
  crash _ := .exit
  accepts := accepts

instance (s : Manager) (a : Act Input) : Decidable (process.machine.enabled s a) :=
  inferInstanceAs (Decidable (s.accepts a.input))

/-- The manager after its first start. The start branch saves the still empty clock
    before it sets `myVectorClock`. -/
def start (port : NodeId) : Manager :=
  { port
    vectorClock := emptyClock
    workerInfo := fun _ => {}
    log := []
    shiviz := [(.start, startClock port)]
    mem := { up := true, myVectorClock := startClock port } }

end Manager

end DistributedSystem.Transaction
