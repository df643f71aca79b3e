import DistributedSystem.Library.Symmetry
import DistributedSystem.Transaction.Manager

/-!
# The manager under a renaming of transactions

A transaction id is only a name for the manager, apart from `0`, which marks an empty slot:
an injective renaming that keeps `0` is a symmetry of the manager process.
-/

namespace DistributedSystem.Transaction

open DistributedSystem.Library

/-! ## Renaming the data -/

def TxMessage.rename (f : Tid → Tid) (m : TxMessage) : TxMessage := { m with tid := f m.tid }

def ShiVizEvent.rename (f : Tid → Tid) : ShiVizEvent → ShiVizEvent
  | .message msgID tid isSend toFromNodeId => .message msgID (f tid) isSend toFromNodeId
  | e => e

def Info.rename (f : Tid → Tid) (x : Info) : Info := { x with tid := f x.tid }

def CoordRecord.rename (f : Tid → Tid) (r : CoordRecord) : CoordRecord := { r with tid := f r.tid }

def ManagerEffect.rename (f : Tid → Tid) : ManagerEffect → ManagerEffect
  | .log r => .log (r.rename f)
  | .tid i x => .tid i (f x)
  | .shiviz e => .shiviz (e.rename f)
  | .send dst m => .send dst (m.rename f)
  | .abortTid x => .abortTid (f x)
  | e => e

/-- A renaming of the transactions: no two become one, and `0` stays what it is. -/
structure Renaming (f : Tid → Tid) : Prop where
  injective : Function.Injective f
  zero : f 0 = 0

/-- Only the empty slot becomes an empty slot. -/
theorem Renaming.eq_zero_iff {f : Tid → Tid} (hf : Renaming f) {x : Tid} : f x = 0 ↔ x = 0 := by
  constructor
  · intro h
    exact hf.injective (h.trans hf.zero.symm)
  · rintro rfl
    exact hf.zero

namespace Manager

def rename (f : Tid → Tid) (s : Manager) : Manager :=
  { s with
    workerInfo := fun i => (s.workerInfo i).rename f
    log := s.log.map (CoordRecord.rename f)
    shiviz := s.shiviz.map fun x => (x.1.rename f, x.2)
    mem := { s.mem with abortTid := f s.mem.abortTid } }

def Input.rename (f : Tid → Tid) : Input → Input
  | .message src m u => .message src (m.rename f) u
  | .timeout => .timeout
  | .restart => .restart

variable {f : Tid → Tid} (hf : Renaming f) (s : Manager) (T : Table) (m : TxMessage)

/-! ## The table -/

/-- The renamed table. -/
def renameTable (f : Tid → Tid) (T : Table) : Table := fun i => (T i).rename f

include hf in
/-- The search finds the same slot under the new name. -/
theorem findSlot_rename (tid : Tid) : findSlot (renameTable f T) (f tid) = findSlot T tid := by
  unfold findSlot
  congr 1
  funext i
  simp [renameTable, Info.rename, hf.injective.eq_iff]

/-- A participant is entered by its slot and its address, and no id is written. -/
theorem map_rename_addWorker (i : Fin maxTrans) (port : ℕ) (nodeId : NodeId) (addr : SockAddr) :
    addWorker (renameTable f T) i port nodeId addr =
      (addWorker T i port nodeId addr).map (ManagerEffect.rename f) := by
  have hsame : addWorker (renameTable f T) i port nodeId addr = addWorker T i port nodeId addr := rfl
  rw [hsame]
  unfold addWorker
  split <;> rfl

include hf in
/-- Whether a `BEGIN` or `JOIN` succeeds does not depend on the name, and what is written is
    renamed. -/
theorem saveWorkerInfo_rename (port : ℕ) (tid : Tid) (msgID : MsgId) (nodeId : NodeId)
    (addr : SockAddr) (index : ℕ) :
    saveWorkerInfo (renameTable f T) port (f tid) msgID nodeId addr index =
      ((saveWorkerInfo T port tid msgID nodeId addr index).1,
        (saveWorkerInfo T port tid msgID nodeId addr index).2.map (ManagerEffect.rename f)) := by
  -- the renaming fixes 0, so a free slot stays free
  have hsearch : (firstFin fun i => (renameTable f T i).tid = f tid ∨ (renameTable f T i).tid = 0) =
      firstFin fun i => (T i).tid = tid ∨ (T i).tid = 0 := by
    congr 1
    funext i
    simp [renameTable, Info.rename, hf.injective.eq_iff, hf.eq_zero_iff]
  unfold saveWorkerInfo
  rw [hsearch]
  cases firstFin fun i => (T i).tid = tid ∨ (T i).tid = 0 with
  | none =>
      dsimp only
      split
      · rw [map_rename_addWorker]
      · rfl
  | some i =>
      have htid : (renameTable f T i).tid = f tid ↔ (T i).tid = tid := hf.injective.eq_iff
      dsimp only
      by_cases hi : (T i).tid = tid
      · rw [if_pos (htid.mpr hi), if_pos hi]
        split
        · rfl
        · split
          · rw [map_rename_addWorker]
          · rfl
      · rw [if_neg (mt htid.mp hi), if_neg hi]
        split <;> rfl

include hf in
/-- The slot is cleared with tid 0, which keeps its name. -/
theorem cleanWorkerInfo_rename (tid : Tid) :
    cleanWorkerInfo (renameTable f T) (f tid) =
      (cleanWorkerInfo T tid).map (ManagerEffect.rename f) := by
  unfold cleanWorkerInfo
  rw [findSlot_rename hf]
  cases findSlot T tid with
  | none => rfl
  | some i => simp [ManagerEffect.rename, List.map_flatMap, hf.zero]

/-- A vote is written by node id. -/
theorem recordVote_rename (i : Fin maxTrans) :
    recordVote (renameTable f T) i (m.rename f) = (recordVote T i m).map (ManagerEffect.rename f) := by
  have hsame : recordVote (renameTable f T) i (m.rename f) = recordVote T i m := rfl
  rw [hsame]
  unfold recordVote
  split <;> rfl

include hf in
/-- The crash flag is set in the same slot. -/
theorem setCrash_rename :
    setCrash (renameTable f T) (m.rename f) = (setCrash T m).map (ManagerEffect.rename f) := by
  unfold setCrash
  simp only [TxMessage.rename, findSlot_rename hf]
  split <;> rfl

include hf in
theorem resetCrash_rename :
    resetCrash (renameTable f T) (m.rename f) = (resetCrash T m).map (ManagerEffect.rename f) := by
  unfold resetCrash
  simp only [TxMessage.rename, findSlot_rename hf]
  split <;> rfl

include hf in
theorem getCrash_rename : getCrash (renameTable f T) (m.rename f) = getCrash T m := by
  unfold getCrash
  simp only [TxMessage.rename, findSlot_rename hf]
  split <;> rfl

/-! ## The effects -/

/-- Writing a slot and renaming the table can be exchanged. -/
theorem rename_withSlot (i : Fin maxTrans) (g g' : Info → Info)
    (hg : ∀ x, g' (x.rename f) = (g x).rename f) :
    (s.rename f).withSlot i g' = (s.withSlot i g).rename f := by
  unfold withSlot rename
  congr 1
  funext k
  by_cases hk : k = i
  · subst hk
    simp [hg]
  · simp [hk]

theorem rename_withEntry (i : Fin maxTrans) (j : Fin maxNodes) (g : W → W) :
    (s.rename f).withEntry i j g = (s.withEntry i j g).rename f :=
  rename_withSlot s i _ _ fun _ => rfl

include hf in
/-- **One effect**: the renamed effect takes the renamed state to the renamed next state. -/
theorem apply_rename (s : Manager) (e : ManagerEffect) :
    (s.rename f).apply (e.rename f) = (s.apply e).rename f := by
  cases e with
  | log r => simp [apply, rename, ManagerEffect.rename, CoordRecord.rename]
  | tid i x =>
      exact rename_withSlot s i (fun y => { y with tid := x }) (fun y => { y with tid := f x }) fun _ => rfl
  | isCrash i b =>
      exact rename_withSlot s i (fun y => { y with isCrash := b }) (fun y => { y with isCrash := b })
        fun _ => rfl
  | nodeId i j n => exact rename_withEntry s i j fun w => { w with nodeId := n }
  | port i j n => exact rename_withEntry s i j fun w => { w with port := n }
  | workerAddr i j n => exact rename_withEntry s i j fun w => { w with workerAddr := n }
  | voteYes i j n => exact rename_withEntry s i j fun w => { w with voteYes := n }
  | shiviz e => simp [apply, rename, ManagerEffect.rename]
  | exit => simp [apply, rename, ManagerEffect.rename, hf.zero]
  | _ => rfl

include hf in
/-- The same for several effects. -/
theorem foldl_rename (es : List ManagerEffect) :
    (es.map (ManagerEffect.rename f)).foldl apply (s.rename f) = (es.foldl apply s).rename f := by
  induction es generalizing s with
  | nil => rfl
  | cons e es ih => rw [List.map_cons, List.foldl_cons, apply_rename hf, ih, List.foldl_cons]

/-! ## The scans -/

include hf in
/-- Transaction 0 of the records behind the page keeps its number. -/
theorem mappedCoord_rename (log : List CoordRecord) :
    mappedCoord (log.map (CoordRecord.rename f)) = (mappedCoord log).map (CoordRecord.rename f) := by
  have hzero : CoordRecord.zero.rename f = CoordRecord.zero := by
    simp [CoordRecord.rename, CoordRecord.zero, hf.zero]
  rw [mappedCoord, mappedCoord, map_window (CoordRecord.rename f) CoordRecord.cut fun _ _ => rfl, hzero]

include hf in
/-- A transaction has committed under its new name exactly if it had under the old one. -/
theorem isCommit_rename (log : List CoordRecord) (tid : Tid) :
    isCommit (log.map (CoordRecord.rename f)) (f tid) = isCommit log tid := by
  unfold isCommit
  rw [mappedCoord_rename hf, ← List.map_reverse, List.any_map]
  congr 1
  funext r
  simp [decidesCommit, CoordRecord.rename, hf.injective.eq_iff]

include hf in
theorem waitingLoop_rename (rs : List CoordRecord) (tid : Tid) :
    waitingLoop (f tid) (rs.map (CoordRecord.rename f)) = waitingLoop tid rs := by
  induction rs with
  | nil => rfl
  | cons r rs ih =>
      simp only [List.map_cons, waitingLoop, CoordRecord.rename, hf.injective.eq_iff, ih]

include hf in
/-- The transaction that the timeout finds is the same one, renamed. -/
theorem waitingForVotes_rename (log : List CoordRecord) :
    waitingForVotes (renameTable f T) (log.map (CoordRecord.rename f)) =
      (waitingForVotes T log).map f := by
  unfold waitingForVotes
  simp only [renameTable, Info.rename, mappedCoord_rename hf, ← List.map_reverse, waitingLoop_rename hf,
    Option.map_map]
  rfl

/-! ## Sending -/

theorem sendTo_rename (port : NodeId) (vc : VClock) (dst : SockAddr) (msgKind : MsgId) (tid : Tid)
    (nodeId : NodeId) : sendTo port vc dst msgKind (f tid) nodeId =
      (sendTo port vc dst msgKind tid nodeId).map (ManagerEffect.rename f) := rfl

include hf in
/-- The participants of a transaction are entries, which carry no tid. -/
theorem targets_rename (tid : Tid) : targets (renameTable f T) (f tid) = targets T tid := by
  unfold targets
  simp only [renameTable, Info.rename, hf.injective.eq_iff]

/-- The ticks of the clock between the datagrams are not touched. -/
theorem sendLoop_rename (port : NodeId) (msgKind : MsgId) (recvNodeId : NodeId) (vc : VClock)
    (ws : List (Tid × W)) :
    sendLoop port msgKind recvNodeId vc (ws.map fun x => (f x.1, x.2)) =
      (sendLoop port msgKind recvNodeId vc ws).map (ManagerEffect.rename f) := by
  induction ws generalizing vc with
  | nil => rfl
  | cons x ws ih => simp only [List.map_cons, sendLoop, ih, sendTo_rename, List.map_append]

include hf in
/-- A broadcast about the renamed transaction is the renamed broadcast. -/
theorem sendToAllWorkers_rename (vc : VClock) (tid : Tid) (recvNodeId : NodeId) (msgKind : MsgId) :
    (s.rename f).sendToAllWorkers vc (f tid) recvNodeId msgKind =
      (s.sendToAllWorkers vc tid recvNodeId msgKind).map (ManagerEffect.rename f) := by
  have htargets : targets (s.rename f).workerInfo (f tid) = targets s.workerInfo tid :=
    targets_rename hf s.workerInfo tid
  unfold sendToAllWorkers
  rw [htargets, ← sendLoop_rename, List.map_map]
  rfl

/-! ## The handlers -/

include hf in
/-- An expired poll aborts the same transaction. -/
theorem voteTimeout_rename :
    (s.rename f).voteTimeout = s.voteTimeout.map (ManagerEffect.rename f) := by
  have hwaiting : waitingForVotes (s.rename f).workerInfo (s.rename f).log =
      (waitingForVotes s.workerInfo s.log).map f := waitingForVotes_rename hf s.workerInfo s.log
  unfold voteTimeout
  rw [hwaiting]
  cases waitingForVotes s.workerInfo s.log with
  | none => rfl
  | some tid =>
      have hclean : cleanWorkerInfo (s.rename f).workerInfo (f tid) =
          (cleanWorkerInfo s.workerInfo tid).map (ManagerEffect.rename f) :=
        cleanWorkerInfo_rename hf s.workerInfo tid
      simp only [Option.map_some, sendToAllWorkers_rename hf, hclean, List.map_append]
      rfl

include hf in
/-- The reply to a `BEGIN` is the renamed reply. -/
theorem handleBegin_rename (src : SockAddr) (u : Uninit) :
    (s.rename f).handleBegin src (m.rename f) u =
      (s.handleBegin src m u).map (ManagerEffect.rename f) := by
  have hsave : saveWorkerInfo (s.rename f).workerInfo src.port (m.rename f).tid (m.rename f).msgID
      (m.rename f).nodeId src u.index = _ :=
    saveWorkerInfo_rename hf s.workerInfo src.port m.tid m.msgID m.nodeId src u.index
  simp only [handleBegin, hsave, List.map_append]
  rfl

include hf in
/-- The reply to a `JOIN` is the renamed reply. -/
theorem handleJoin_rename (src : SockAddr) (u : Uninit) :
    (s.rename f).handleJoin src (m.rename f) u =
      (s.handleJoin src m u).map (ManagerEffect.rename f) := by
  have hsave : saveWorkerInfo (s.rename f).workerInfo src.port (m.rename f).tid (m.rename f).msgID
      (m.rename f).nodeId src u.index = _ :=
    saveWorkerInfo_rename hf s.workerInfo src.port m.tid m.msgID m.nodeId src u.index
  simp only [handleJoin, hsave, List.map_append]
  split <;> rfl

include hf in
theorem handleCommit_rename :
    (s.rename f).handleCommit (m.rename f) = (s.handleCommit m).map (ManagerEffect.rename f) :=
  congrArg (_ :: ·) (sendToAllWorkers_rename hf s (s.receivedClock m) m.tid m.nodeId .prepareCommit)

include hf in
/-- A decision is announced, and its slot cleared, under the new name. -/
theorem announce_rename (decision : MsgId) :
    (s.rename f).announce (m.rename f) decision =
      (s.announce m decision).map (ManagerEffect.rename f) := by
  -- each part of the announcement is renamed by itself
  have hcrash : getCrash (s.rename f).workerInfo (m.rename f) = getCrash s.workerInfo m :=
    getCrash_rename hf s.workerInfo m
  have hreset : resetCrash (s.rename f).workerInfo (m.rename f) =
      (resetCrash s.workerInfo m).map (ManagerEffect.rename f) := resetCrash_rename hf s.workerInfo m
  have hclean : cleanWorkerInfo (s.rename f).workerInfo (m.rename f).tid =
      (cleanWorkerInfo s.workerInfo m.tid).map (ManagerEffect.rename f) :=
    cleanWorkerInfo_rename hf s.workerInfo m.tid
  have hsend : (s.rename f).sendToAllWorkers ((s.rename f).receivedClock (m.rename f)) (m.rename f).tid
      (m.rename f).nodeId decision = _ :=
    sendToAllWorkers_rename hf s (s.receivedClock m) m.tid m.nodeId decision
  unfold announce
  rw [hcrash, hreset, hclean, hsend, List.map_cons]
  split
  · simp only [List.map_append]
    rfl
  · rw [List.map_append]
    rfl

include hf in
theorem crashFlag_rename :
    (s.rename f).crashFlag (m.rename f) = (s.crashFlag m).map (ManagerEffect.rename f) := by
  have hset : setCrash (s.rename f).workerInfo (m.rename f) =
      (setCrash s.workerInfo m).map (ManagerEffect.rename f) := setCrash_rename hf s.workerInfo m
  have hflag : (m.rename f).isCrash = m.isCrash := rfl
  unfold crashFlag
  rw [hset, hflag]
  split <;> rfl

include hf in
/-- The count of the votes comes to the same decision. -/
theorem collectVote_rename (init : MsgId) :
    collectVote (s.rename f) (m.rename f) init =
      ((collectVote s m init).1, (collectVote s m init).2.map (ManagerEffect.rename f)) := by
  have hslot : findSlot (s.rename f).workerInfo (m.rename f).tid = findSlot s.workerInfo m.tid :=
    findSlot_rename hf s.workerInfo m.tid
  have hcommit : isCommit (s.rename f).log (m.rename f).tid = isCommit s.log m.tid :=
    isCommit_rename hf s.log m.tid
  unfold collectVote
  rw [hslot, hcommit]
  cases findSlot s.workerInfo m.tid with
  | none => rfl
  | some i =>
      have hvote : recordVote (s.rename f).workerInfo i (m.rename f) =
          (recordVote s.workerInfo i m).map (ManagerEffect.rename f) :=
        recordVote_rename s.workerInfo m i
      simp only [hvote, foldl_rename hf]
      rfl

include hf in
/-- A vote or a poll gets the renamed answer. -/
theorem handleVote_rename (src : SockAddr) (u : Uninit) :
    (s.rename f).handleVote src (m.rename f) u =
      (s.handleVote src m u).map (ManagerEffect.rename f) := by
  have hvotes := collectVote_rename hf ((s.crashFlag m).foldl apply s) m u.commit
  have hkind : (m.rename f).msgID = m.msgID := rfl
  unfold handleVote
  simp only [crashFlag_rename hf, foldl_rename hf, hvotes, ← List.map_append, announce_rename hf, hkind]
  simp only [List.map_append]
  congr 1
  generalize (collectVote ((s.crashFlag m).foldl apply s) m u.commit).1 = decision
  cases decision with
  | decideCommit =>
      dsimp only
      split <;> rfl
  | _ => rfl

include hf in
/-- **Every datagram of a worker** is handled alike. -/
theorem handleWorkerMsg_rename (src : SockAddr) (u : Uninit) :
    (s.rename f).handleWorkerMsg src (m.rename f) u =
      (s.handleWorkerMsg src m u).map (ManagerEffect.rename f) := by
  have hreceive : (s.rename f).receive (m.rename f) = (s.receive m).map (ManagerEffect.rename f) := rfl
  have hkind : (m.rename f).msgID = m.msgID := rfl
  unfold handleWorkerMsg
  rw [hreceive, hkind, List.map_append]
  congr 1
  split
  · exact handleBegin_rename hf s m src u
  · exact handleJoin_rename hf s m src u
  · exact handleCommit_rename hf s m
  · exact handleVote_rename hf s m src u
  · exact handleVote_rename hf s m src u
  · simp only [handleVoteAbort, crashFlag_rename hf, foldl_rename hf, announce_rename hf, List.map_append]
  · rfl

include hf in
/-- A restart finds the same participants to be told about an abort. -/
theorem recoveryTargets_rename (log : List CoordRecord) :
    recoveryTargets (renameTable f T) (log.map (CoordRecord.rename f)) =
      (recoveryTargets T log).map fun x => (f x.1, x.2) := by
  unfold recoveryTargets
  rw [List.map_flatMap]
  congr 1
  funext k
  have htid : (renameTable f T k).tid = f (T k).tid := rfl
  rw [htid, isCommit_rename hf, targets_rename hf]
  split
  · rfl
  · rw [List.map_map]
    rfl

include hf in
/-- **A restart** broadcasts the same aborts. -/
theorem restart_rename : (s.rename f).restart = s.restart.map (ManagerEffect.rename f) := by
  have htargets : recoveryTargets (s.rename f).workerInfo (s.rename f).log =
      (recoveryTargets s.workerInfo s.log).map fun x => (f x.1, x.2) :=
    recoveryTargets_rename hf s.workerInfo s.log
  simp only [restart, htargets, sendLoop_rename, List.map_append]
  rfl

/-- **The manager does not care about the names of transactions.** -/
def symmetry (f : Tid → Tid) (hf : Renaming f) : process.Symmetry where
  state := rename f
  effect := ManagerEffect.rename f
  input := Input.rename f
  apply := apply_rename hf
  handler s inp := by
    cases inp with
    | message src m u => exact handleWorkerMsg_rename hf s m src u
    | timeout => exact voteTimeout_rename hf s
    | restart => exact restart_rename hf s
  crash _ := rfl

end Manager

end DistributedSystem.Transaction
