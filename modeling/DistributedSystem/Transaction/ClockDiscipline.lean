import DistributedSystem.Transaction.Trace

/-!
# The handlers are disciplined

Every branch of the event loops of both programs ticks before it logs, logs before it
sends, and saves its clock before it waits or exits. A receive line is the only one that
is not a plain tick: `handle_message` splits it off.
-/

namespace DistributedSystem.Transaction

open DistributedSystem.Library

variable {p : NodeId} {ph : Phase} {vc : VClock} {os : List Obs}

theorem disciplined_of_other (hph : ph ≠ .ticked) (h : ∀ o ∈ os, o = .other) :
    Disciplined p ph vc vc os := by
  rw [← List.append_nil os, disciplined_append_of_other h]
  exact ⟨hph, rfl⟩

/-! ## The manager -/

namespace Manager

variable {s : Manager} {es : List ManagerEffect} {m : TxMessage} {n : NodeId} {k : MsgId}

theorem obs_saveWorkerInfo {T : Table} {port : ℕ} {t : Tid} {a : SockAddr} {index : ℕ} :
    ∀ o ∈ (saveWorkerInfo T port t k n a index).2.map ManagerEffect.obs, o = .other := by
  intro o ho
  obtain ⟨e, he, rfl⟩ := List.mem_map.mp ho
  rcases mem_saveWorkerInfo he with ⟨-, i, -, -, rfl⟩ | ⟨-, i, j, -, rfl | rfl | rfl⟩ <;> rfl

theorem obs_cleanWorkerInfo {T : Table} {t : Tid} :
    ∀ o ∈ (cleanWorkerInfo T t).map ManagerEffect.obs, o = .other := by
  intro o ho
  obtain ⟨e, he, rfl⟩ := List.mem_map.mp ho
  obtain ⟨i, -, rfl | rfl | ⟨j, rfl | rfl | rfl⟩⟩ := mem_cleanWorkerInfo he <;> rfl

theorem obs_crashFlag : ∀ o ∈ (s.crashFlag m).map ManagerEffect.obs, o = .other := by
  intro o ho
  obtain ⟨e, he, rfl⟩ := List.mem_map.mp ho
  obtain ⟨i, b, rfl⟩ := mem_crashFlag he
  rfl

theorem obs_resetCrash {T : Table} : ∀ o ∈ (resetCrash T m).map ManagerEffect.obs, o = .other := by
  intro o ho
  obtain ⟨e, he, rfl⟩ := List.mem_map.mp ho
  obtain ⟨i, b, rfl⟩ := mem_resetCrash he
  rfl

theorem obs_collectVote {c : MsgId} :
    ∀ o ∈ (s.collectVote m c).2.map ManagerEffect.obs, o = .other := by
  intro o ho
  obtain ⟨e, he, rfl⟩ := List.mem_map.mp ho
  obtain ⟨i, j, -, -, rfl⟩ := mem_collectVote he
  rfl

/-- One message on a clock of its own. -/
theorem disciplined_sendTo {port : NodeId} {a : SockAddr} {t : Tid} (hph : ph ≠ .ticked)
    (h : Disciplined port .logged (tick port vc) (tick port vc) os) :
    Disciplined port ph vc vc ((sendTo port vc a k t n).map ManagerEffect.obs ++ os) :=
  ⟨hph, rfl, rfl, rfl, rfl, rfl, h⟩

/-- The broadcast ticks once for every participant. -/
theorem disciplined_sendLoop {port : NodeId} {ws : List (Tid × W)} (hph : ph ≠ .ticked)
    (h : ∀ ph vc, ph ≠ .ticked → Disciplined port ph vc vc os) :
    Disciplined port ph vc vc ((sendLoop port k n vc ws).map ManagerEffect.obs ++ os) := by
  induction ws generalizing ph vc with
  | nil => exact h ph vc hph
  | cons w ws ih =>
      simp only [sendLoop, List.map_append, List.append_assoc]
      exact disciplined_sendTo hph (ih (by simp))

theorem disciplined_sendToAllWorkers {t : Tid} (hport : s.port = p) (hph : ph ≠ .ticked)
    (h : ∀ o ∈ os, o = .other) :
    Disciplined p ph vc vc ((s.sendToAllWorkers vc t n k).map ManagerEffect.obs ++ os) := by
  subst hport
  exact disciplined_sendLoop hph fun ph vc hph => disciplined_of_other hph h

theorem disciplined_voteTimeout (s : Manager) :
    Disciplined s.port .idle s.mem.myVectorClock s.mem.myVectorClock
      (s.voteTimeout.map ManagerEffect.obs) := by
  unfold voteTimeout
  split
  · simp only [List.map_append, List.append_assoc]
    exact disciplined_sendToAllWorkers rfl (by simp) obs_cleanWorkerInfo
  · exact ⟨by simp, rfl⟩

theorem disciplined_reply {a : SockAddr} :
    Disciplined p .ticked vc vc ((reply a m k vc).map ManagerEffect.obs) :=
  ⟨rfl, rfl, rfl, rfl, by simp, rfl⟩

/-- The decision of another state of the manager, announced on the clock of `s`. -/
theorem disciplined_announce {x : Manager} (hport : x.port = s.port)
    (hclock : x.mem.myVectorClock = s.mem.myVectorClock) :
    Disciplined s.port .logged (s.receivedClock m) (s.receivedClock m)
      ((x.announce m k).map ManagerEffect.obs) := by
  have hreceived : x.receivedClock m = s.receivedClock m := by
    rw [receivedClock, receivedClock, hport, hclock]
  unfold announce
  rw [hreceived, hport]
  split
  · -- the requested crash
    simp only [List.map_cons, List.map_append, List.append_assoc, List.map_nil]
    show Disciplined _ _ _ _ ((resetCrash x.workerInfo m).map ManagerEffect.obs ++ _)
    rw [disciplined_append_of_other obs_resetCrash]
    refine ⟨by simp, rfl, rfl, rfl, ?_⟩
    show Disciplined _ _ _ _ ((cleanWorkerInfo x.workerInfo m.tid).map ManagerEffect.obs ++ _)
    rw [disciplined_append_of_other obs_cleanWorkerInfo]
    exact ⟨by simp, rfl, rfl⟩
  · simp only [List.map_cons, List.map_append]
    exact disciplined_sendToAllWorkers hport (by simp) obs_cleanWorkerInfo

theorem port_apply (s : Manager) (e : ManagerEffect) : (s.apply e).port = s.port := by
  cases e <;> rfl

theorem port_exec (s : Manager) (es : List ManagerEffect) : (process.exec s es).port = s.port :=
  Process.exec_unchanged Manager.port fun s e _ => port_apply s e

/-- Effects that are not about the clock leave it alone. -/
theorem clock_exec_of_other (s : Manager) (h : ∀ o ∈ es.map ManagerEffect.obs, o = .other) :
    (process.exec s es).mem.myVectorClock = s.mem.myVectorClock := by
  refine Process.exec_unchanged (fun s : Manager => s.mem.myVectorClock) fun s' e he => ?_
  have hobs : e.obs = .other := h _ (List.mem_map_of_mem he)
  cases e <;> first | rfl | cases hobs

theorem disciplined_vote (s : Manager) (src : SockAddr) (m : TxMessage) (u : Uninit) :
    Disciplined s.port .logged (s.receivedClock m) (s.receivedClock m)
      ((s.handleVote src m u).map ManagerEffect.obs) := by
  have hport : (s.counted m u.commit).port = s.port :=
    (port_exec _ _).trans (port_exec s _)
  have hclock : (s.counted m u.commit).mem.myVectorClock = s.mem.myVectorClock :=
    (clock_exec_of_other _ obs_collectVote).trans (clock_exec_of_other s obs_crashFlag)
  rw [handleVote_eq, List.map_append, List.map_append, List.append_assoc,
    disciplined_append_of_other obs_crashFlag, disciplined_append_of_other obs_collectVote]
  split
  · split
    · exact ⟨by simp, rfl, rfl, rfl, rfl, rfl, by simp, rfl⟩
    · exact disciplined_announce hport hclock
  · exact ⟨by simp, rfl, rfl, rfl, rfl, rfl, by simp, rfl⟩
  · exact ⟨by simp, rfl⟩

/-- What follows the receive line of a message. -/
theorem disciplined_message (s : Manager) (src : SockAddr) (m : TxMessage) (u : Uninit) :
    ∃ os, (s.handleWorkerMsg src m u).map ManagerEffect.obs =
        [.clock (tick s.port s.mem.myVectorClock), .clock (s.receivedClock m), .save,
          .event (.message m.msgID m.tid false m.nodeId)] ++ os ∧
      Disciplined s.port .logged (s.receivedClock m) (s.receivedClock m) os := by
  unfold handleWorkerMsg
  rw [List.map_append]
  refine ⟨_, rfl, ?_⟩
  split
  · simp only [handleBegin, List.map_append, List.append_assoc]
    rw [disciplined_append_of_other obs_saveWorkerInfo]
    exact ⟨by simp, rfl, disciplined_reply⟩
  · simp only [handleJoin, List.map_append, List.append_assoc]
    rw [disciplined_append_of_other obs_saveWorkerInfo]
    refine ⟨by simp, rfl, ?_⟩
    split
    · exact disciplined_reply
    · exact disciplined_reply
  · -- COMMIT: the record is not about clocks
    have hsend : Disciplined s.port .logged (s.receivedClock m) (s.receivedClock m)
        ((s.sendToAllWorkers (s.receivedClock m) m.tid m.nodeId .prepareCommit).map
          ManagerEffect.obs ++ []) := disciplined_sendToAllWorkers rfl (by simp) (by simp)
    rw [List.append_nil] at hsend
    exact hsend
  · exact disciplined_vote s src m u
  · exact disciplined_vote s src m u
  · -- VOTE_ABORT: the crash flag is not about clocks
    simp only [handleVoteAbort, List.map_append]
    rw [disciplined_append_of_other obs_crashFlag]
    exact disciplined_announce (port_exec s _) (clock_exec_of_other s obs_crashFlag)
  · exact ⟨by simp, rfl⟩

/-- The restart goes on from the saved clock. -/
theorem disciplined_restart (s : Manager) :
    ∃ os, s.restart.map ManagerEffect.obs = .clock s.vectorClock :: os ∧
      Disciplined s.port .idle s.vectorClock s.vectorClock os := by
  unfold restart
  simp only [List.map_append, List.append_assoc]
  refine ⟨_, rfl, by simp, rfl, rfl, rfl, ?_⟩
  exact disciplined_sendLoop (by simp) fun ph vc hph =>
    disciplined_of_other hph (by simp [ManagerEffect.obs])

end Manager

/-! ## The worker -/

namespace Worker

variable {w : Worker} {es : List WorkerEffect} {m : TxMessage}

theorem obs_rollback {t : Tid} : ∀ o ∈ (w.rollback t).map WorkerEffect.obs, o = .other := by
  intro o ho
  obtain ⟨e, he, rfl⟩ := List.mem_map.mp ho
  have hrestore := mem_rollback he
  cases e <;> first | rfl | cases hrestore

/-- `sendMsg` on the clock of the line just logged. The crash it may end in ticks the entry
    of the node id in the message, which is the worker's own. -/
theorem disciplined_sendMsg {dst : SockAddr} (hid : m.nodeId = w.nodeId) (hm : m.vectorClock = vc) :
    Disciplined w.nodeId .logged vc vc ((w.sendMsg vc dst m).map WorkerEffect.obs) := by
  simp only [sendMsg, hid]
  split
  · exact ⟨by simp, rfl, rfl, rfl, by simp, rfl, rfl⟩
  · split
    · exact ⟨rfl, hm, by simp, rfl, rfl, rfl, by simp, rfl, rfl⟩
    · exact ⟨rfl, hm, by simp, rfl⟩

/-- A line is logged and its datagram sent. -/
theorem disciplined_send {dst : SockAddr} {e : ShiVizEvent} (he : e.isReceive = false)
    (hid : m.nodeId = w.nodeId) (hm : m.vectorClock = tick w.nodeId vc) (hph : ph ≠ .ticked) :
    Disciplined w.nodeId ph vc vc ([.clock (tick w.nodeId vc), .save, .event e] ++
      (w.sendMsg (tick w.nodeId vc) dst m).map WorkerEffect.obs) :=
  ⟨hph, rfl, rfl, he, disciplined_sendMsg hid hm⟩

theorem disciplined_updateObject (w : Worker) (undo : Record) {write : WorkerEffect}
    (hwrite : write.obs = .other) (stampClock : Bool) (now : Timeval) :
    Disciplined w.nodeId .idle w.mem.myVectorClock w.mem.myVectorClock
      ((w.updateObject undo write stampClock now).map WorkerEffect.obs) := by
  have hundo : ∀ o ∈ ((if w.mem.isTXRun then [WorkerEffect.log undo] else []).map WorkerEffect.obs),
      o = .other := by
    split <;> simp [WorkerEffect.obs]
  simp only [updateObject, List.map_append, List.append_assoc]
  rw [disciplined_append_of_other hundo]
  simp only [List.map_cons, hwrite]
  refine ⟨by simp, rfl, rfl, rfl, disciplined_of_other (by simp) ?_⟩
  split <;> simp [WorkerEffect.obs]

/-- The local abort logs its line before it saves the clock. -/
theorem disciplined_abort (w : Worker) (m : MsgType) :
    Disciplined w.nodeId .idle w.mem.myVectorClock w.mem.myVectorClock
      ((w.handleAbort m).map WorkerEffect.obs) := by
  simp only [handleAbort, List.map_append, List.append_assoc]
  show Disciplined _ _ _ _ ((w.rollback w.mem.curTid).map WorkerEffect.obs ++ _)
  rw [disciplined_append_of_other obs_rollback]
  exact ⟨by simp, rfl, rfl, rfl, by simp, rfl⟩

theorem disciplined_beginJoin (w : Worker) (m : MsgType) (toIP : Option ℕ) :
    Disciplined w.nodeId .idle w.mem.myVectorClock w.mem.myVectorClock
      ((w.handleBeginJoin m toIP).map WorkerEffect.obs) := by
  cases toIP with
  | none => exact ⟨by simp, rfl, rfl⟩
  | some addr => exact disciplined_send rfl rfl rfl (by simp)

theorem disciplined_cmd (w : Worker) (m : MsgType) (calls : CmdCalls) :
    Disciplined w.nodeId .idle w.mem.myVectorClock w.mem.myVectorClock
      ((w.handleCmdMsg m calls).map WorkerEffect.obs) := by
  unfold handleCmdMsg
  split
  · exact disciplined_beginJoin w m _
  · exact disciplined_beginJoin w m _
  · exact disciplined_updateObject w _ rfl _ _
  · exact disciplined_updateObject w _ rfl _ _
  · exact disciplined_updateObject w _ rfl _ _
  · exact ⟨by simp, rfl⟩
  · exact ⟨by simp, rfl, rfl, rfl, by simp, rfl, rfl⟩
  · exact disciplined_send rfl rfl rfl (by simp)
  · exact disciplined_send rfl rfl rfl (by simp)
  · exact disciplined_abort w m
  · exact disciplined_abort w m
  · exact ⟨by simp, rfl⟩
  · exact ⟨by simp, rfl⟩

theorem disciplined_poll (w : Worker) (a : SockAddr) :
    Disciplined w.nodeId .idle w.mem.myVectorClock w.mem.myVectorClock
      ((w.pollDecision a).map WorkerEffect.obs) :=
  disciplined_send (w := w) rfl rfl rfl (by simp)

/-- A vote goes out under the node id of the `PREPARE_COMMIT`. -/
theorem disciplined_prepareCommit (w : Worker) (src : SockAddr) (hid : m.nodeId = w.nodeId) :
    Disciplined w.nodeId .logged (w.receivedClock m) (w.receivedClock m)
      ((w.handlePrepareCommit src m).map WorkerEffect.obs) := by
  have hvote : ∀ o ∈ ((if w.voteFor m = .voteAbort then [WorkerEffect.vote none] else []).map
      WorkerEffect.obs), o = .other := by
    split <;> simp [WorkerEffect.obs]
  simp only [handlePrepareCommit, List.map_append, List.append_assoc]
  refine ⟨by simp, rfl, ?_⟩
  show Disciplined _ _ _ _ (List.map _ (ite _ _ _) ++ _)
  rw [disciplined_append_of_other hvote]
  refine ⟨rfl, rfl, ?_⟩
  by_cases hdelay : w.mem.delay < 0
  · -- the worker does not survive the send
    rw [if_pos hdelay, List.map_nil, List.append_nil]
    exact disciplined_sendMsg hid rfl
  · have hsend : ∀ vc dst m, w.sendMsg vc dst m = [.send dst m] := by
      intro vc dst m
      rw [sendMsg, if_neg (by omega), if_neg hdelay]
    rw [if_neg hdelay, hsend]
    exact ⟨rfl, rfl, by simp, rfl⟩

theorem disciplined_decideAbort (w : Worker) (m : TxMessage) (h : Disciplined p .logged vc vc os) :
    Disciplined p .logged vc vc ((w.handleDecideAbort m).map WorkerEffect.obs ++ os) := by
  simp only [handleDecideAbort, List.map_append, List.append_assoc]
  rw [disciplined_append_of_other obs_rollback]
  exact h

/-- What follows the receive line of a datagram, in the command loop or in a wait. -/
theorem disciplined_manager (w : Worker) (src : SockAddr)
    (hid : m.msgID = .prepareCommit → m.nodeId = w.nodeId) :
    ∃ os, (w.handle (.manager src m)).map WorkerEffect.obs =
        [.clock (mergeVectorClock w.mem.myVectorClock m), .clock (w.receivedClock m), .save,
          .event (.message m.msgID m.tid false src.port)] ++ os ∧
      Disciplined w.nodeId .logged (w.receivedClock m) (w.receivedClock m) os := by
  have hnil : Disciplined w.nodeId .logged (w.receivedClock m) (w.receivedClock m) [] :=
    ⟨by simp, rfl⟩
  simp only [handle]
  split
  · -- the wait returns to the command loop
    unfold waitingForCoordResponse
    rw [List.map_append, List.map_append, List.append_assoc]
    refine ⟨_, rfl, ?_⟩
    split
    · exact hnil
    · exact disciplined_decideAbort w m hnil
    · exact hnil
  · unfold handleManagerMsg
    rw [List.map_append]
    refine ⟨_, rfl, ?_⟩
    split
    · exact hnil
    · exact hnil
    · exact hnil
    · rename_i hk
      exact disciplined_prepareCommit w src (hid hk)
    · have habort := disciplined_decideAbort w m hnil
      rw [List.append_nil] at habort
      exact habort
    · exact hnil

/-- The restart goes on from the saved clock. -/
theorem disciplined_restart (w : Worker) :
    ∃ os, w.restart.map WorkerEffect.obs = .clock w.crashInfo.vectorClock :: os ∧
      Disciplined w.nodeId .idle w.crashInfo.vectorClock w.crashInfo.vectorClock os := by
  unfold restart
  rw [List.map_append]
  refine ⟨_, rfl, by simp, rfl, rfl, rfl, ?_⟩
  show Disciplined _ _ _ _ (List.map _ _)
  split
  · exact ⟨by simp, rfl⟩
  · -- nothing was decided when the worker died: it aborts
    rw [List.map_append, disciplined_append_of_other obs_rollback]
    exact ⟨by simp, rfl, rfl, rfl, by simp, rfl⟩

end Worker

end DistributedSystem.Transaction
