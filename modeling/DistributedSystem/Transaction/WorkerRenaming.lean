import DistributedSystem.Transaction.ManagerRenaming
import DistributedSystem.Transaction.Restore

/-!
# The worker under a renaming of transactions

The counterpart for the worker process: an injective renaming of the transaction ids in its
log, its memory, its commands and its datagrams is a symmetry.
-/

namespace DistributedSystem.Transaction

open DistributedSystem.Library

/-! ## Renaming the data -/

def Record.rename (f : Tid → Tid) (r : Record) : Record := { r with tid := f r.tid }

def MsgType.rename (f : Tid → Tid) (m : MsgType) : MsgType := { m with tid := f m.tid }

def WorkerEffect.rename (f : Tid → Tid) : WorkerEffect → WorkerEffect
  | .log r => .log (r.rename f)
  | .shiviz e => .shiviz (e.rename f)
  | .send dst m => .send dst (m.rename f)
  | .joined x => .joined (f x)
  | .curTid x => .curTid (f x)
  | e => e

namespace Worker

def rename (f : Tid → Tid) (w : Worker) : Worker :=
  { w with
    log := w.log.map (Record.rename f)
    shiviz := w.shiviz.map fun x => (x.1.rename f, x.2)
    mem := { w.mem with curTid := f w.mem.curTid } }

def Input.rename (f : Tid → Tid) : Input → Input
  | .cmd m calls => .cmd (m.rename f) calls
  | .manager src m => .manager src (m.rename f)
  | .pollTimeout => .pollTimeout
  | .restart => .restart

variable {f : Tid → Tid} (hf : Renaming f) (w : Worker) (m : TxMessage) (src : SockAddr)

include hf in
/-- **One effect**: the renamed effect takes the renamed state to the renamed next state. -/
theorem apply_rename (w : Worker) (e : WorkerEffect) :
    (w.rename f).apply (e.rename f) = (w.apply e).rename f := by
  cases e with
  | log r => simp [apply, rename, WorkerEffect.rename]
  | shiviz e => simp [apply, rename, WorkerEffect.rename]
  | objClock i =>
      simp only [apply, WorkerEffect.rename]
      split <;> rfl
  | exit => simp [apply, rename, WorkerEffect.rename, hf.zero]
  | _ => rfl

/-! ## The scans -/

include hf in
/-- Transaction 0 of the records behind the page keeps its number. -/
theorem mapped_rename (log : List Record) :
    mapped (log.map (Record.rename f)) = (mapped log).map (Record.rename f) := by
  have hzero : Record.zero.rename f = Record.zero := by
    simp [Record.rename, Record.zero, hf.zero]
  rw [mapped, mapped, map_window (Record.rename f) Record.cut fun _ _ => rfl, hzero]

include hf in
/-- The last record that a restart reads is renamed. -/
theorem findStateFromRecord_rename (log : List Record) :
    findStateFromRecord (log.map (Record.rename f)) =
      (findStateFromRecord log).map (Record.rename f) := by
  rw [findStateFromRecord, mapped_rename hf]
  exact List.getLast?_map

include hf in
/-- An abort is found under the new name exactly if it was under the old one. -/
theorem isLocalAbort_rename (log : List Record) (curTid : Tid) :
    isLocalAbort (log.map (Record.rename f)) (f curTid) = isLocalAbort log curTid := by
  rw [Bool.eq_iff_iff, isLocalAbort_iff_mapped, isLocalAbort_iff_mapped, mapped_rename hf]
  simp [Record.rename, hf.injective.eq_iff]

include hf in
/-- The loop stops at the first record of another transaction, and that stays another one. -/
theorem readValLoop_rename (curTid : Tid) (rs : List Record) (old : OldValues) :
    readValLoop (f curTid) (rs.map (Record.rename f)) old =
      (readValLoop curTid rs old).map fun x => (x.1, x.2.rename f) := by
  induction rs generalizing old with
  | nil => rfl
  | cons r rs ih =>
      simp only [List.map_cons, readValLoop, Record.rename, hf.injective.eq_iff]
      split
      · split
        · rw [List.map_cons, ih]
          rfl
        · exact ih _
      · rfl

/-- A rollback writes no transaction id. -/
theorem map_rename_restore (x : OldValues × Record) :
    (restore x).map (WorkerEffect.rename f) = restore x := by
  simp [restore, WorkerEffect.rename, Function.comp_def]

include hf in
/-- A rollback restores the same values. -/
theorem rollback_rename (curTid : Tid) :
    (w.rename f).rollback (f curTid) = (w.rollback curTid).map (WorkerEffect.rename f) := by
  have hread : readValFromRecord (w.rename f).log (f curTid) (w.rename f).objData =
      (readValFromRecord w.log curTid w.objData).map fun x => (x.1, x.2.rename f) := by
    unfold readValFromRecord
    have hlog : (w.rename f).log = w.log.map (Record.rename f) := rfl
    rw [hlog, mapped_rename hf, ← List.map_reverse]
    exact readValLoop_rename hf curTid (mapped w.log).reverse w.objData.current
  unfold rollback
  simp only [hread, List.flatMap_map, List.map_flatMap, map_rename_restore]
  rfl

/-! ## The handlers -/

/-- Whether the worker crashes around a datagram depends on `delay` only. -/
theorem sendMsg_rename (vc : VClock) (dst : SockAddr) :
    (w.rename f).sendMsg vc dst (m.rename f) = (w.sendMsg vc dst m).map (WorkerEffect.rename f) := by
  have hdelay : (w.rename f).mem.delay = w.mem.delay := rfl
  simp only [sendMsg, hdelay]
  split
  · rfl
  · split <;> rfl

/-- An update writes the same value and the renamed undo record. -/
theorem updateObject_rename (undo : Record) (write : WorkerEffect) (stampClock : Bool) (now : Timeval)
    (hwrite : write.rename f = write) :
    (w.rename f).updateObject (undo.rename f) write stampClock now =
      (w.updateObject undo write stampClock now).map (WorkerEffect.rename f) := by
  have hmem : (w.rename f).mem.isTXRun = w.mem.isTXRun := rfl
  simp only [updateObject, hmem, List.map_append, List.map_cons, hwrite]
  congr 1
  · congr 1
    split <;> rfl
  · split <;> rfl

include hf in
/-- A local abort of the renamed transaction is the renamed abort. -/
theorem handleAbort_rename (c : MsgType) :
    (w.rename f).handleAbort (c.rename f) = (w.handleAbort c).map (WorkerEffect.rename f) := by
  have hroll : (w.rename f).rollback (w.rename f).mem.curTid = _ := rollback_rename hf w w.mem.curTid
  simp only [handleAbort, hroll, List.map_append]
  rfl

/-- A `BEGIN` or `JOIN` is sent to the same manager. -/
theorem handleBeginJoin_rename (c : MsgType) (toIP : Option ℕ) :
    (w.rename f).handleBeginJoin (c.rename f) toIP =
      (w.handleBeginJoin c toIP).map (WorkerEffect.rename f) := by
  cases toIP with
  | none => rfl
  | some addr =>
      simp only [handleBeginJoin, List.map_append, ← sendMsg_rename]
      rfl

theorem handleCommit_rename (c : MsgType) :
    (w.rename f).handleCommit (c.rename f) = (w.handleCommit c).map (WorkerEffect.rename f) := by
  simp only [handleCommit, List.map_append, ← sendMsg_rename]
  rfl

include hf in
/-- **Every command** is handled alike. -/
theorem handleCmdMsg_rename (c : MsgType) (calls : CmdCalls) :
    (w.rename f).handleCmdMsg (c.rename f) calls =
      (w.handleCmdMsg c calls).map (WorkerEffect.rename f) := by
  have hkind : (c.rename f).msgID = c.msgID := rfl
  unfold handleCmdMsg
  rw [hkind]
  split
  · exact handleBeginJoin_rename w c _
  · exact handleBeginJoin_rename w c _
  · exact updateObject_rename w { msgID := .newA, tid := w.mem.curTid, oldValue := w.objData.A }
      (.updateA c.newValue) true calls.gettimeofday rfl
  · exact updateObject_rename w { msgID := .newB, tid := w.mem.curTid, oldValue := w.objData.B }
      (.updateB c.newValue) true calls.gettimeofday rfl
  · exact updateObject_rename w { msgID := .newIdStr, tid := w.mem.curTid, oldID := w.objData.IDstring }
      (.updateID c.strData) false calls.gettimeofday rfl
  · rfl
  · rfl
  · exact handleCommit_rename w c
  · exact handleCommit_rename w c
  · exact handleAbort_rename hf w c
  · exact handleAbort_rename hf w c
  · rfl
  · rfl

theorem receive_rename :
    (w.rename f).receive src (m.rename f) = (w.receive src m).map (WorkerEffect.rename f) := rfl

include hf in
theorem handleDecideAbort_rename :
    (w.rename f).handleDecideAbort (m.rename f) = (w.handleDecideAbort m).map (WorkerEffect.rename f) := by
  have hroll : (w.rename f).rollback (w.rename f).mem.curTid = _ := rollback_rename hf w w.mem.curTid
  simp only [handleDecideAbort, hroll, List.map_append]
  rfl

include hf in
/-- The vote does not depend on the name. -/
theorem voteFor_rename : (w.rename f).voteFor (m.rename f) = w.voteFor m := by
  let prepare : Record := { msgID := .prepareCommit, tid := m.tid }
  have hlog : (w.rename f).log ++ [prepare.rename f] = (w.log ++ [prepare]).map (Record.rename f) := by
    simp [rename]
  have hscan : isLocalAbort ((w.rename f).log ++ [prepare.rename f]) (w.rename f).mem.curTid =
      isLocalAbort (w.log ++ [prepare]) w.mem.curTid := by
    rw [hlog]
    exact isLocalAbort_rename hf _ w.mem.curTid
  show (if isLocalAbort ((w.rename f).log ++ [prepare.rename f]) (w.rename f).mem.curTid = true ∨
    (w.rename f).mem.vote = some .voteAbort then MsgId.voteAbort else .voteCommit) = w.voteFor m
  rw [hscan]
  rfl

include hf in
/-- The vote is sent and recorded under the new name. -/
theorem handlePrepareCommit_rename :
    (w.rename f).handlePrepareCommit src (m.rename f) =
      (w.handlePrepareCommit src m).map (WorkerEffect.rename f) := by
  have hdelay : (w.rename f).mem.delay = w.mem.delay := rfl
  simp only [handlePrepareCommit, voteFor_rename hf, hdelay, List.map_append, ← sendMsg_rename]
  congr 1
  · congr 1
    congr 1
    congr 1
    split <;> rfl
  · split <;> rfl

include hf in
/-- **Every datagram in the command loop** is handled alike. -/
theorem handleManagerMsg_rename :
    (w.rename f).handleManagerMsg src (m.rename f) =
      (w.handleManagerMsg src m).map (WorkerEffect.rename f) := by
  have hkind : (m.rename f).msgID = m.msgID := rfl
  unfold handleManagerMsg
  rw [hkind, receive_rename, List.map_append]
  congr 1
  split
  · rfl
  · rfl
  · rfl
  · exact handlePrepareCommit_rename hf w m src
  · exact handleDecideAbort_rename hf w m
  · rfl

include hf in
/-- A datagram ends the wait for a decision under the new name as it did under the old one. -/
theorem waitingForCoordResponse_rename :
    (w.rename f).waitingForCoordResponse src (m.rename f) =
      (w.waitingForCoordResponse src m).map (WorkerEffect.rename f) := by
  have hkind : (m.rename f).msgID = m.msgID := rfl
  unfold waitingForCoordResponse
  rw [hkind, receive_rename, List.map_append, List.map_append]
  congr 1
  congr 1
  split
  · rfl
  · exact handleDecideAbort_rename hf w m
  · rfl

theorem pollDecision_rename (managerAddr : SockAddr) :
    (w.rename f).pollDecision managerAddr = (w.pollDecision managerAddr).map (WorkerEffect.rename f) := by
  simp only [pollDecision, List.map_append, ← sendMsg_rename]
  rfl

include hf in
/-- A restart takes up the same transaction: tid 0, if the log is empty, keeps its name. -/
theorem recoveredTid_rename : (w.rename f).recoveredTid = f w.recoveredTid := by
  have hlast : findStateFromRecord (w.rename f).log = _ := findStateFromRecord_rename hf w.log
  unfold recoveredTid
  rw [hlast]
  cases findStateFromRecord w.log with
  | none => rfl
  | some r => rfl

include hf in
/-- **A restart** aborts or waits for the same transaction. -/
theorem restart_rename : (w.rename f).restart = w.restart.map (WorkerEffect.rename f) := by
  have hlast : (findStateFromRecord (w.rename f).log).map Record.msgID =
      (findStateFromRecord w.log).map Record.msgID := by
    have hlast : findStateFromRecord (w.rename f).log = _ := findStateFromRecord_rename hf w.log
    rw [hlast, Option.map_map]
    rfl
  simp only [restart, hlast, recoveredTid_rename hf, rollback_rename hf, List.map_append]
  congr 1
  split
  · rfl
  · simp only [List.map_append]
    rfl

/-- **The worker does not care about the names of transactions.** -/
def symmetry (f : Tid → Tid) (hf : Renaming f) : process.Symmetry where
  state := rename f
  effect := WorkerEffect.rename f
  input := Input.rename f
  apply := apply_rename hf
  handler w inp := by
    cases inp with
    | cmd c calls => exact handleCmdMsg_rename hf w c calls
    | manager src m =>
        show (w.rename f).handle (.manager src (m.rename f)) = (w.handle (.manager src m)).map _
        cases hcontrol : w.mem.control with
        | waiting a =>
            have hcontrol' : (w.rename f).mem.control = .waiting a := hcontrol
            simp only [handle, hcontrol, hcontrol']
            exact waitingForCoordResponse_rename hf w m src
        | down =>
            have hcontrol' : (w.rename f).mem.control = .down := hcontrol
            simp only [handle, hcontrol, hcontrol']
            exact handleManagerMsg_rename hf w m src
        | cmdLoop =>
            have hcontrol' : (w.rename f).mem.control = .cmdLoop := hcontrol
            simp only [handle, hcontrol, hcontrol']
            exact handleManagerMsg_rename hf w m src
    | pollTimeout =>
        show (w.rename f).handle .pollTimeout = (w.handle .pollTimeout).map _
        have hcontrol : (w.rename f).mem.control = w.mem.control := rfl
        simp only [handle, hcontrol]
        split
        · exact pollDecision_rename w _
        · rfl
    | restart => exact restart_rename hf w
  crash _ := rfl

end Worker

end DistributedSystem.Transaction
