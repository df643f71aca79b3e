import DistributedSystem.Transaction.Addressing
import DistributedSystem.Transaction.Agreement
import DistributedSystem.Transaction.VoteTimeout
import DistributedSystem.Transaction.WorkerSteps
import Mathlib.Data.Finset.Card

/-!
# The end of doubt

A worker that has voted waits until the manager tells it a decision, and asks for one when its
poll expires or after a restart. The manager answers from its log once the transaction has no
slot, and its vote timeout takes the slots of the transactions that were asked to commit. Both
together bring every worker out of its doubt, without another crash and in at most ten steps,
whatever has crashed and whatever has been lost before.
-/

namespace DistributedSystem.Transaction

open DistributedSystem.Library

namespace Manager

variable {s : Manager} {t : Tid} {m : TxMessage}

/-! ## Vote timeouts -/

/-- The slots whose transaction was asked to commit, as far as the page shows it. -/
def requestedSlots (s : Manager) : Finset (Fin maxTrans) :=
  Finset.univ.filter fun i => waitingLoop (s.workerInfo i).tid (mappedCoord s.log).reverse = true

theorem mem_requestedSlots {i : Fin maxTrans} :
    i ∈ s.requestedSlots ↔ Requested (mappedCoord s.log) (s.workerInfo i).tid := by
  rw [requestedSlots, Finset.mem_filter, waitingLoop_iff]
  exact and_iff_right (Finset.mem_univ i)

/-- No record has the kind 1. -/
def Unmarked (log : List CoordRecord) : Prop := ∀ r ∈ log, r.msgID ≠ .other 1

theorem requested_iff (h : Unmarked s.log) :
    Requested (mappedCoord s.log) t ↔ Logged .commitReq t (mappedCoord s.log) := by
  constructor
  · rintro ⟨before, r, after, hlog, ⟨ht, hk⟩, -⟩
    exact ⟨r, by rw [hlog]; simp, hk, ht⟩
  · rintro ⟨r, hr, hk, ht⟩
    obtain ⟨before, after, hlog⟩ := List.append_of_mem hr
    refine ⟨before, r, after, hlog, ⟨ht, hk⟩, fun r' hr' hmark => ?_⟩
    -- what is read is a record of the log, or zero
    rcases mem_mappedCoord (show r' ∈ mappedCoord s.log by rw [hlog]; simp [hr']) with
      ⟨r₀, hr₀, hkind, -⟩ | rfl
    · exact h r₀ hr₀ (hkind.symm.trans hmark.2)
    · simp [IsMark, CoordRecord.zero] at hmark

theorem log_notMem_clean {T : Table} {r : CoordRecord} : .log r ∉ cleanWorkerInfo T t := by
  intro h
  obtain ⟨i, -, heq | heq | ⟨j, heq | heq | heq⟩⟩ := mem_cleanWorkerInfo h <;> cases heq

theorem log_notMem_sendToAllWorkers {vc : VClock} {n : NodeId} {k : MsgId} {r : CoordRecord} :
    .log r ∉ s.sendToAllWorkers vc t n k := by
  intro h
  rcases mem_sendToAllWorkers h with hb | ⟨w, -, n', vc', heq⟩
  · simp [ManagerEffect.isBookkeeping] at hb
  · cases heq

theorem log_mem_announce {d : MsgId} {r : CoordRecord} (h : .log r ∈ s.announce m d) : r.msgID = d := by
  rcases mem_announce h with heq | hclean | hb | ⟨i, b, heq⟩ | heq | ⟨w, -, n, vc, heq⟩
  · cases heq
    rfl
  · exact absurd hclean log_notMem_clean
  · simp [ManagerEffect.isBookkeeping] at hb
  all_goals cases heq

theorem log_mem_handleVote {src : SockAddr} {u : Uninit} {r : CoordRecord}
    (h : .log r ∈ s.handleVote src m u) : r.msgID = .decideCommit := by
  rcases mem_handleVote h with ⟨i, b, heq⟩ | hvote | ⟨-, -, hsend⟩ | ⟨-, -, hann⟩ | ⟨-, hsend⟩
  · cases heq
  · obtain ⟨i, j, -, -, heq⟩ := mem_collectVote hvote
    cases heq
  · simp [sendTo] at hsend
  · exact log_mem_announce hann
  · simp [sendTo] at hsend

/-- No record of the manager has the kind 1. -/
theorem unmarked_of_log_mem_handle {inp : Input} {r : CoordRecord} (h : .log r ∈ s.handle inp) :
    r.msgID ≠ .other 1 := by
  cases inp with
  | timeout =>
      simp only [handle, voteTimeout] at h
      split at h
      · simp only [List.mem_append, List.mem_cons, List.not_mem_nil, or_false] at h
        rcases h with ((heq | heq) | h) | h
        · cases heq
        · cases heq
          simp
        · exact absurd h log_notMem_sendToAllWorkers
        · exact absurd h log_notMem_clean
      · simp at h
  | restart =>
      simp only [handle, restart, List.mem_append, List.mem_cons, reduceCtorEq, List.not_mem_nil,
        or_false, false_or] at h
      rcases mem_sendLoop h with hb | ⟨x, -, n, vc, heq⟩
      · simp [ManagerEffect.isBookkeeping] at hb
      · cases heq
  | message src m u =>
      simp only [handle, handleWorkerMsg, List.mem_append] at h
      rcases h with h | h
      · simp [receive] at h
      split at h
      · rename_i hk
        simp only [handleBegin, reply, List.mem_append, List.mem_cons, reduceCtorEq,
          List.not_mem_nil, or_false] at h
        rcases mem_saveWorkerInfo h with ⟨-, i, -, -, heq⟩ | ⟨-, i, j, -, heq | heq | heq⟩ <;> cases heq
      · rename_i hk
        simp only [handleJoin, List.mem_append, List.mem_cons, reduceCtorEq, List.not_mem_nil,
          or_false] at h
        rcases h with h | h
        · rcases mem_saveWorkerInfo h with ⟨-, i, -, -, heq⟩ | ⟨-, i, j, -, heq | heq | heq⟩ <;> cases heq
        · split at h
          · simp [reply] at h
          · simp only [reply, List.mem_cons, ManagerEffect.log.injEq, reduceCtorEq, List.not_mem_nil,
              or_false] at h
            simp [h, hk]
      · rcases List.mem_cons.mp h with heq | h
        · cases heq
          simp
        · exact absurd h log_notMem_sendToAllWorkers
      · simp [log_mem_handleVote h]
      · simp [log_mem_handleVote h]
      · rcases List.mem_append.mp h with h | h
        · obtain ⟨i, b, heq⟩ := mem_crashFlag h
          cases heq
        · simp [log_mem_announce h]
      · simp at h

theorem unmarked_step (h : Unmarked s.log) (a : Act Input) : Unmarked (process.step s a).log := by
  refine Process.step_preserved (P := process) (I := fun s => Unmarked s.log) h ?_ fun s hs => hs
  intro s' e he hs' r hr
  rw [process_apply, log_apply] at hr
  cases e with
  | log r' =>
      rcases List.mem_append.mp hr with hr | hr
      · exact hs' r hr
      · rw [List.mem_singleton.mp hr]
        exact unmarked_of_log_mem_handle he
  | _ => exact hs' r hr

/-- `cleanWorkerInfo` empties the first slot of a transaction. -/
theorem tid_exec_clean {T : Table} {i : Fin maxTrans} (hi : findSlot T t = some i) (k : Fin maxTrans) :
    ((process.exec s (cleanWorkerInfo T t)).workerInfo k).tid =
      if k = i then 0 else (s.workerInfo k).tid := by
  have hrest : ∀ e ∈ (List.finRange maxNodes).flatMap
      (fun j => [ManagerEffect.nodeId i j 0, .port i j 0, .voteYes i j none]) ++ [.isCrash i false],
      ∀ l t, e ≠ .tid l t := by
    intro e he l t
    simp only [List.mem_append, List.mem_flatMap, List.mem_finRange, true_and, List.mem_cons,
      List.not_mem_nil, or_false] at he
    rcases he with ⟨j, rfl | rfl | rfl⟩ | rfl <;> simp
  have hlast : cleanWorkerInfo T t = ((List.finRange maxNodes).flatMap
      (fun j => [ManagerEffect.nodeId i j 0, .port i j 0, .voteYes i j none]) ++ [.isCrash i false]) ++
        [.tid i 0] := by
    simp [cleanWorkerInfo, hi]
  rw [hlast, Process.exec_append, Process.exec_cons, Process.exec_nil, process_apply, tid_apply]
  simp only [tid_exec hrest]

/-- The manager goes on after a vote timeout. -/
theorem up_voteTimeout : (process.exec s s.voteTimeout).mem.up = s.mem.up := by
  refine Process.exec_unchanged (fun s : Manager => s.mem.up) fun s' e he => ?_
  unfold voteTimeout at he
  split at he
  · simp only [List.mem_append, List.mem_cons, List.not_mem_nil, or_false] at he
    rcases he with ((rfl | rfl) | he) | he
    · rfl
    · rfl
    · rcases mem_sendToAllWorkers he with hb | ⟨w, -, n', vc', rfl⟩
      · cases e <;> first | rfl | simp [ManagerEffect.isBookkeeping] at hb
      · rfl
    · obtain ⟨i, -, rfl | rfl | ⟨j, rfl | rfl | rfl⟩⟩ := mem_cleanWorkerInfo he <;> rfl
  · simp at he

/-- A vote timeout aborts a transaction that was asked to commit, and takes its first slot. -/
theorem exec_voteTimeout (h : s.requestedSlots ≠ ∅) :
    ∃ i n, i ∈ s.requestedSlots ∧
      (process.exec s s.voteTimeout).log = s.log ++ [⟨.decideAbort, (s.workerInfo i).tid, n⟩] ∧
      ∀ k, ((process.exec s s.voteTimeout).workerInfo k).tid =
        if k = i then 0 else (s.workerInfo k).tid := by
  obtain ⟨j, hj⟩ := Finset.nonempty_iff_ne_empty.mpr h
  obtain ⟨t, ht⟩ : ∃ t, waitingForVotes s.workerInfo s.log = some t := by
    rw [← Option.ne_none_iff_exists']
    intro hnone
    exact waitingForVotes_eq_none.mp hnone j (mem_requestedSlots.mp hj)
  obtain ⟨i₀, ⟨hreq, -⟩, rfl⟩ := waitingForVotes_eq_some.mp ht
  -- the slot that is emptied is the first one with this transaction
  obtain ⟨i, hi⟩ : ∃ i, findSlot s.workerInfo (s.workerInfo i₀).tid = some i := by
    rw [← Option.ne_none_iff_exists']
    exact fun hnone => findSlot_eq_none.mp hnone i₀ rfl
  have hit := (findSlot_eq_some.mp hi).1
  refine ⟨i, s.mem.recNodeId, mem_requestedSlots.mpr (hit ▸ hreq), ?_, fun k => ?_⟩
  · have hquiet : ∀ (s' : Manager), ∀ e ∈ s.sendToAllWorkers s.mem.myVectorClock (s.workerInfo i₀).tid 0
        .decideAbort ++ cleanWorkerInfo s.workerInfo (s.workerInfo i₀).tid,
        (process.apply s' e).log = s'.log := by
      intro s' e he
      rw [process_apply, log_apply]
      cases e with
      | log r =>
          rcases List.mem_append.mp he with he | he
          · exact absurd he log_notMem_sendToAllWorkers
          · exact absurd he log_notMem_clean
      | _ => rfl
    simp only [voteTimeout, ht, List.cons_append, List.nil_append, Process.exec_cons]
    rw [Process.exec_unchanged (fun s : Manager => s.log) hquiet, hit]
    rfl
  · have hsends : ∀ e ∈ [ManagerEffect.abortTid (s.workerInfo i₀).tid,
        .log { msgID := .decideAbort, tid := (s.workerInfo i₀).tid, nodeId := s.mem.recNodeId }] ++
        s.sendToAllWorkers s.mem.myVectorClock (s.workerInfo i₀).tid 0 .decideAbort,
        ∀ l t, e ≠ .tid l t := by
      intro e he l t
      simp only [List.mem_append, List.mem_cons, List.not_mem_nil, or_false] at he
      rcases he with (rfl | rfl) | he
      · simp
      · simp
      · rcases mem_sendToAllWorkers he with hb | ⟨w, -, n', vc', rfl⟩
        · rintro rfl
          simp [ManagerEffect.isBookkeeping] at hb
        · simp
    simp only [voteTimeout, ht]
    rw [Process.exec_append, tid_exec_clean hi, tid_exec hsends]

/-- The manager on its way from `s₀`: nothing has been asked for or committed since, and no
    transaction has got a slot. -/
structure Resolving (s₀ s : Manager) : Prop where
  up : s.mem.up = true
  unmarked : Unmarked s.log
  requests : ∀ t, Logged .commitReq t (mappedCoord s.log) ↔ Logged .commitReq t (mappedCoord s₀.log)
  commits : ∀ t, Logged .decideCommit t (mappedCoord s.log) ↔ Logged .decideCommit t (mappedCoord s₀.log)
  holds : ∀ t, t ≠ 0 → s.Holds t → s₀.Holds t

variable {s₀ : Manager}

/-- **Step lemma**: a vote timeout resolves one more slot, unless an empty slot counts as asked
    to commit. -/
theorem Resolving.timeout (h : Resolving s₀ s) (hzero : ¬ Logged .commitReq 0 (mappedCoord s₀.log))
    (hsome : s.requestedSlots ≠ ∅) :
    Resolving s₀ (process.exec s s.voteTimeout) ∧
      (process.exec s s.voteTimeout).requestedSlots.card < s.requestedSlots.card := by
  obtain ⟨i, n, hi, hlog, htid⟩ := exec_voteTimeout hsome
  have hlogged : ∀ d t', d ≠ .decideAbort → d ≠ .other 0 →
      (Logged d t' (mappedCoord (process.exec s s.voteTimeout).log) ↔
        Logged d t' (mappedCoord s.log)) := by
    intro d t' hd hd0
    obtain ⟨r, hmapped, hr⟩ := mappedCoord_concat s.log ⟨.decideAbort, (s.workerInfo i).tid, n⟩
    have hkind : r.msgID ≠ d := by
      rcases hr with ⟨hr, -⟩ | rfl
      · rw [hr]
        exact hd.symm
      · exact hd0.symm
    rw [hlog, hmapped]
    simp only [Logged, List.mem_append, List.mem_singleton, or_and_right, exists_or, exists_eq_left,
      or_iff_left_iff_imp]
    exact fun h => absurd h.1 hkind
  have hunmarked : Unmarked (process.exec s s.voteTimeout).log := by
    intro r hr
    rw [hlog] at hr
    rcases List.mem_append.mp hr with hr | hr
    · exact h.unmarked r hr
    · simp [List.mem_singleton.mp hr]
  refine ⟨⟨up_voteTimeout.trans h.up, hunmarked, fun t' => ?_, fun t' => ?_, fun t' ht' => ?_⟩, ?_⟩
  · exact (hlogged _ t' (by simp) (by simp)).trans (h.requests t')
  · exact (hlogged _ t' (by simp) (by simp)).trans (h.commits t')
  · rintro ⟨k, hk⟩
    rw [htid] at hk
    split at hk
    · exact absurd hk.symm ht'
    · exact h.holds t' ht' ⟨k, hk⟩
  · -- the slot that was emptied no longer counts
    refine Finset.card_lt_card (Finset.ssubset_iff_of_subset (fun k hk => ?_) |>.mpr ⟨i, hi, fun hmem => ?_⟩)
    · rw [mem_requestedSlots, requested_iff hunmarked, hlogged _ _ (by simp) (by simp), htid] at hk
      rw [mem_requestedSlots, requested_iff h.unmarked]
      split at hk
      · exact absurd ((h.requests 0).mp hk) hzero
      · exact hk
    · rw [mem_requestedSlots, requested_iff hunmarked, hlogged _ _ (by simp) (by simp), htid, if_pos rfl] at hmem
      exact hzero ((h.requests 0).mp hmem)

/-- When no slot counts any more, no transaction that was asked to commit has one. -/
theorem Resolving.not_holds (h : Resolving s₀ s) (hnone : s.requestedSlots = ∅) (ht : t ≠ 0)
    (hcalled : s₀.Holds t → Logged .commitReq t (mappedCoord s₀.log)) : ¬ s.Holds t := by
  rintro ⟨i, rfl⟩
  have hreq := (h.requests _).mpr (hcalled (h.holds _ ht ⟨i, rfl⟩))
  have hi : i ∈ s.requestedSlots := mem_requestedSlots.mpr ((requested_iff h.unmarked).mpr hreq)
  rw [hnone] at hi
  exact absurd hi (Finset.notMem_empty i)

/-- A restart changes neither the log nor the table. -/
theorem exec_restart (s : Manager) :
    (process.exec s s.restart).log = s.log ∧ (process.exec s s.restart).workerInfo = s.workerInfo ∧
      (process.exec s s.restart).mem.up = true := by
  have hquiet : ∀ e ∈ [ManagerEffect.clock s.vectorClock, .clock (tick s.port s.vectorClock),
      .saveVectorTime, .shiviz (.localEvent .restarted)] ++
      sendLoop s.port .decideAbort 0 (tick s.port s.vectorClock)
        (recoveryTargets s.workerInfo s.log), e.isTableWrite = false ∧ ∀ r, e ≠ .log r := by
    intro e he
    simp only [List.mem_append, List.mem_cons, List.not_mem_nil, or_false] at he
    rcases he with (rfl | rfl | rfl | rfl) | he
    any_goals exact ⟨rfl, by simp⟩
    rcases mem_sendLoop he with hb | ⟨x, -, n, vc, rfl⟩
    · refine ⟨isTableWrite_of_isBookkeeping hb, ?_⟩
      rintro r rfl
      simp [ManagerEffect.isBookkeeping] at hb
    · exact ⟨rfl, by simp⟩
  unfold restart
  simp only [Process.exec_append _ _ _ [ManagerEffect.up], Process.exec_cons, Process.exec_nil]
  refine ⟨?_, ?_, rfl⟩
  · refine Process.exec_unchanged (fun s : Manager => s.log) fun s' e he => ?_
    have hlog := (hquiet e he).2
    rw [process_apply, log_apply]
    cases e with
    | log r => exact absurd rfl (hlog r)
    | _ => rfl
  · exact workerInfo_exec fun e he => (hquiet e he).1

/-! ## Polls -/

/-- A poll about a transaction without a slot is answered from the log. -/
theorem handle_poll {src : SockAddr} {u : Uninit} (hk : m.msgID = .pollDecision)
    (hno : ¬ s.Holds m.tid) :
    s.handle (.message src m u) = s.receive m ++ sendTo s.port (s.receivedClock m) src
      (if isCommit s.log m.tid then .decideCommit else .decideAbort) m.tid m.nodeId := by
  have hslot : findSlot s.workerInfo m.tid = none :=
    findSlot_eq_none.mpr fun i hi => hno ⟨i, hi⟩
  have hflag : s.crashFlag m = [] := by
    unfold crashFlag setCrash
    rw [hslot]
    simp
  have hvote : s.handleVote src m u = sendTo s.port (s.receivedClock m) src
      (if isCommit s.log m.tid then .decideCommit else .decideAbort) m.tid m.nodeId := by
    simp only [handleVote, hflag, List.foldl_nil, collectVote, hslot, List.append_nil, List.nil_append]
    cases isCommit s.log m.tid <;> simp [hk]
  simp only [handle, handleWorkerMsg, hk, hvote]

end Manager

namespace Worker

variable {w w₀ : Worker} {t : Tid} {m : TxMessage}

/-! ## The worker in doubt -/

/-- The worker is in doubt about `t`: it waits for a decision, or will after a restart. -/
def InDoubt (w : Worker) (t : Tid) : Prop :=
  0 ≤ w.mem.delay ∧
    (w.mem.curTid = t ∧ (∃ a, w.mem.control = .waiting a) ∨
      w.mem.control = .down ∧
        ∃ r, findStateFromRecord w.log = some r ∧ r.tid = t ∧ awaitsDecision (some r.msgID) = true)

/-- The worker waits for the decision on `t`, with the log and the object of `w₀`. -/
structure Waits (t : Tid) (w₀ w : Worker) : Prop where
  delay : 0 ≤ w.mem.delay
  curTid : w.mem.curTid = t
  waiting : ∃ a, w.mem.control = .waiting a
  log : w.log = w₀.log
  objData : w.objData = w₀.objData

/-- A restart takes the worker back to its wait. -/
theorem waits_restart {r : Record} (hdelay : 0 ≤ w.mem.delay)
    (hlast : findStateFromRecord w.log = some r) (hawaits : awaitsDecision (some r.msgID) = true) :
    Waits r.tid w (process.exec w w.restart) := by
  have htid : w.recoveredTid = r.tid := by
    unfold recoveredTid
    rw [hlast]
  unfold restart
  simp only [hlast, Option.map_some, hawaits, if_true, htid]
  exact ⟨hdelay, rfl, ⟨_, rfl⟩, rfl, rfl⟩

/-- An expired poll asks the manager, -/
theorem pollDecision_eq (h : 0 ≤ w.mem.delay) (a : SockAddr) :
    ∃ m, m.msgID = .pollDecision ∧ m.tid = w.mem.curTid ∧
      w.pollDecision a = [.firstTimeWaiting false, .clock (tick w.nodeId w.mem.myVectorClock),
        .saveVectorTime, .shiviz (.message .pollDecision w.mem.curTid true a.port), .send a m] := by
  refine ⟨w.constructTxMessage .pollDecision w.mem.curTid w.nodeId
    (tick w.nodeId w.mem.myVectorClock), rfl, rfl, ?_⟩
  simp only [pollDecision, sendMsg_of_not_neg (Int.not_lt.mpr h), List.cons_append, List.nil_append]

/-- and the wait goes on. -/
theorem Waits.pollDecision (h : Waits t w₀ w) (a : SockAddr) :
    Waits t w₀ (process.exec w (w.pollDecision a)) := by
  obtain ⟨m, -, -, heq⟩ := pollDecision_eq h.delay a
  rw [heq]
  exact ⟨h.delay, h.curTid, h.waiting, h.log, h.objData⟩

/-- The worker is out of doubt: it has logged the decision on `t`, is back in the command loop,
    and has rolled its object back if the decision is an abort. -/
structure Released (t : Tid) (commit : Bool) (w₀ w : Worker) : Prop where
  control : w.mem.control = .cmdLoop
  isTXRun : w.mem.isTXRun = false
  log : w.log = w₀.log ++ [{ msgID := if commit then .decideCommit else .decideAbort, tid := t }]
  objData : w.objData = if commit then w₀.objData else undone w₀.log t w₀.objData

/-- What a rollback makes of the object depends on nothing else. -/
theorem objData_exec_restore {es : List WorkerEffect} (hes : ∀ e ∈ es, e.isRestore)
    (h : w.objData = w₀.objData) : (process.exec w es).objData = (process.exec w₀ es).objData := by
  induction es generalizing w w₀ with
  | nil => exact h
  | cons e es ih =>
      refine ih (fun e' he' => hes e' (List.mem_cons_of_mem _ he')) ?_
      have he := hes e List.mem_cons_self
      cases e <;> simp_all [WorkerEffect.isRestore, apply, withObj]

/-- **The answer** releases the worker. -/
theorem Waits.released (h : Waits t w₀ w) (src : SockAddr) (commit : Bool)
    (hpage : commit = false → w₀.OnPage) (ht : m.tid = t)
    (hk : m.msgID = if commit then .decideCommit else .decideAbort) :
    Released t commit w₀ (process.exec w (w.waitingForCoordResponse src m)) := by
  have hreceive : Waits t w₀ (process.exec w (w.receive src m)) :=
    ⟨h.delay, h.curTid, h.waiting, h.log, h.objData⟩
  cases commit with
  | true =>
      simp only [if_true] at hk
      simp only [waitingForCoordResponse, hk, handleDecideCommit, Process.exec_append, ht]
      exact ⟨rfl, rfl, congrArg (· ++ _) hreceive.log, hreceive.objData⟩
  | false =>
      simp only [Bool.false_eq_true, if_false] at hk
      have hroll : w.rollback w.mem.curTid = w₀.rollback t := by
        rw [h.curTid, rollback, rollback, h.log, h.objData]
      have hrestore : ∀ e ∈ w₀.rollback t, e.isRestore := fun e he => mem_rollback he
      simp only [waitingForCoordResponse, hk, handleDecideAbort, hroll, Process.exec_append, ht]
      have hlog : (process.exec (process.exec w (w.receive src m)) (w₀.rollback t)).log = w₀.log :=
        (Process.exec_unchanged Worker.log fun w' e he => log_apply_of_isRestore (hrestore e he)).trans
          hreceive.log
      have hobj := objData_exec_restore hrestore hreceive.objData
      rw [exec_rollback (hpage rfl)] at hobj
      exact ⟨rfl, rfl, congrArg (· ++ _) hlog, hobj⟩

end Worker

namespace System

variable {cfg : Config} {s : System} {n : NodeId} {t : Tid}

/-! ## The schedule -/

/-- The step is carried out to its end. -/
def Uncrashed : SystemAct → Prop
  | .manager a => a.cut = none
  | .worker _ a => a.cut = none

/-- The steps of the schedule: no process dies any more. -/
def Smooth (cfg : Config) (s : System) (a : SystemAct) : Prop := enabled cfg s a ∧ Uncrashed a

theorem reaches_manager (st : ManagerStimulus) {input : Manager.Input}
    (hin : managerInput s.net st = some input) (hacc : s.manager.accepts input) :
    (machine cfg).Reaches (Smooth cfg) 1 s (s.managerStep ⟨input, none⟩) := by
  have hstep := Machine.Reaches.step (M := machine cfg) (C := Smooth cfg) (s := s)
    (a := .manager ⟨st, none⟩) ⟨⟨input, hin, hacc⟩, rfl⟩
  have hnext : next cfg s (.manager ⟨st, none⟩) = s.managerStep ⟨input, none⟩ := next_manager hin
  rwa [show (machine cfg).next s (.manager ⟨st, none⟩) = _ from hnext] at hstep

theorem reaches_worker (st : WorkerStimulus) {input : Worker.Input} (hn : n ≠ 0)
    (hin : workerInput cfg n s.net st = some input) (hacc : (s.workers n).accepts input) :
    (machine cfg).Reaches (Smooth cfg) 1 s (workerStep cfg s n ⟨input, none⟩) := by
  have hstep := Machine.Reaches.step (M := machine cfg) (C := Smooth cfg) (s := s)
    (a := .worker n ⟨st, none⟩) ⟨⟨hn, input, hin, hacc⟩, rfl⟩
  have hnext : next cfg s (.worker n ⟨st, none⟩) = workerStep cfg s n ⟨input, none⟩ := next_worker hin
  rwa [show (machine cfg).next s (.worker n ⟨st, none⟩) = _ from hnext] at hstep

@[simp] theorem workers_workerStep (s : System) (n : NodeId) (inp : Worker.Input) :
    (workerStep cfg s n ⟨inp, none⟩).workers n =
      Worker.process.exec (s.workers n) ((s.workers n).handle inp) := by
  simp [workerStep, Process.step, Process.performed]

@[simp] theorem manager_managerStep (s : System) (inp : Manager.Input) :
    (s.managerStep ⟨inp, none⟩).manager = Manager.process.exec s.manager (s.manager.handle inp) := rfl

/-- The worker is brought to its wait. -/
theorem reaches_waits (cfg : Config) (hn : n ≠ 0) (h : (s.workers n).InDoubt t) :
    ∃ s', (machine cfg).Reaches (Smooth cfg) 1 s s' ∧ s'.manager = s.manager ∧
      Worker.Waits t (s.workers n) (s'.workers n) := by
  obtain ⟨hdelay, ⟨hcur, hwaiting⟩ | ⟨hdown, r, hlast, rfl, hawaits⟩⟩ := h
  · exact ⟨s, Machine.Reaches.refl.mono (Nat.zero_le 1), rfl, hdelay, hcur, hwaiting, rfl, rfl⟩
  · refine ⟨_, reaches_worker .restart hn rfl hdown, rfl, ?_⟩
    rw [workers_workerStep]
    exact Worker.waits_restart hdelay hlast hawaits

/-- The manager is brought up. -/
theorem reaches_up (cfg : Config) (hmarks : Manager.Unmarked s.manager.log) :
    ∃ s', (machine cfg).Reaches (Smooth cfg) 1 s s' ∧ s'.workers = s.workers ∧
      Manager.Resolving s.manager s'.manager := by
  cases hup : s.manager.mem.up with
  | true =>
      refine ⟨s, Machine.Reaches.refl.mono (Nat.zero_le 1), rfl, hup, hmarks, ?_, ?_, ?_⟩
      · exact fun _ => Iff.rfl
      · exact fun _ => Iff.rfl
      · exact fun _ _ h => h
  | false =>
      obtain ⟨hlog, htable, hup'⟩ := Manager.exec_restart s.manager
      refine ⟨_, reaches_manager .restart rfl hup, rfl, ?_⟩
      rw [manager_managerStep]
      refine ⟨hup', ?_, ?_, ?_, ?_⟩
      · simpa only [Manager.handle, hlog] using hmarks
      · exact fun t => by rw [Manager.handle, hlog]
      · exact fun t => by rw [Manager.handle, hlog]
      · rintro t - ⟨i, hi⟩
        exact ⟨i, by rw [← hi, Manager.handle, htable]⟩

/-- Vote timeouts, until nothing is left for them to abort. -/
theorem reaches_resolved (cfg : Config) {s₀ : Manager} (h : Manager.Resolving s₀ s.manager)
    (hzero : ¬ Logged .commitReq 0 (mappedCoord s₀.log)) :
    ∃ s', (machine cfg).Reaches (Smooth cfg) maxTrans s s' ∧ s'.workers = s.workers ∧
      Manager.Resolving s₀ s'.manager ∧ s'.manager.requestedSlots = ∅ := by
  -- every timeout takes one more slot
  have hdescent : ∀ s', s'.workers = s.workers ∧ Manager.Resolving s₀ s'.manager →
      s'.manager.requestedSlots.card ≠ 0 → ∃ a, Smooth cfg s' a ∧
        (((machine cfg).next s' a).workers = s.workers ∧
          Manager.Resolving s₀ ((machine cfg).next s' a).manager) ∧
        ((machine cfg).next s' a).manager.requestedSlots.card < s'.manager.requestedSlots.card := by
    rintro s' ⟨hworkers, hresolving⟩ hsome
    obtain ⟨hnext, hlt⟩ := hresolving.timeout hzero (fun hempty => hsome (by simp [hempty]))
    exact ⟨.manager ⟨.timeout, none⟩, ⟨⟨.timeout, rfl, hresolving.up⟩, rfl⟩, ⟨hworkers, hnext⟩, hlt⟩
  obtain ⟨s', hreach, ⟨hworkers, hresolving⟩, hnone⟩ :=
    Machine.exists_reaches_zero (M := machine cfg) (C := Smooth cfg) (s := s)
      (I := fun s' => s'.workers = s.workers ∧ Manager.Resolving s₀ s'.manager)
      (fun s' => s'.manager.requestedSlots.card) ⟨rfl, h⟩ hdescent
  refine ⟨s', hreach.mono ?_, hworkers, hresolving, Finset.card_eq_zero.mp hnone⟩
  exact (Finset.card_le_univ _).trans (by simp)

/-- The waiting worker asks the manager. -/
theorem reaches_poll (cfg : Config) {w₀ : Worker} (hn : n ≠ 0) (h : Worker.Waits t w₀ (s.workers n)) :
    ∃ (s' : System) (k : ℕ) (m : TxMessage), (machine cfg).Reaches (Smooth cfg) 1 s s' ∧ s'.manager = s.manager ∧
      Worker.Waits t w₀ (s'.workers n) ∧ s'.net[k]? = some (.toManager (cfg.workerAddr n) m) ∧
      m.msgID = .pollDecision ∧ m.tid = t := by
  obtain ⟨a, ha⟩ := h.waiting
  obtain ⟨m, hk, ht, heq⟩ := Worker.pollDecision_eq h.delay a
  have hhandle : (s.workers n).handle .pollTimeout = (s.workers n).pollDecision a := by
    simp only [Worker.handle, ha]
  have hacc : (s.workers n).accepts .pollTimeout := by
    simp [Worker.accepts, ha]
  refine ⟨_, s.net.length, m, reaches_worker .pollTimeout hn rfl hacc, rfl, ?_, ?_, hk,
    ht.trans h.curTid⟩
  · rw [workers_workerStep, hhandle]
    exact h.pollDecision a
  · have hsent : (Worker.process.performed (s.workers n) ⟨.pollTimeout, none⟩).filterMap
        (workerPacket cfg n) = [.toManager (cfg.workerAddr n) m] := by
      show ((s.workers n).handle .pollTimeout).filterMap (workerPacket cfg n) = _
      rw [hhandle, heq]
      rfl
    simp [workerStep, hsent]

/-- The manager answers from its log. -/
theorem reaches_answer (cfg : Config) {k : ℕ} {src : SockAddr} {m : TxMessage} (hup : s.manager.mem.up = true)
    (hno : ¬ s.manager.Holds m.tid) (hnet : s.net[k]? = some (.toManager src m))
    (hk : m.msgID = .pollDecision) :
    ∃ (s' : System) (k' : ℕ) (m' : TxMessage), (machine cfg).Reaches (Smooth cfg) 1 s s' ∧ s'.workers = s.workers ∧
      s'.manager.log = s.manager.log ∧ s'.manager.workerInfo = s.manager.workerInfo ∧
      s'.net[k']? = some (.toWorker src m') ∧ m'.tid = m.tid ∧
      m'.msgID = if isCommit s.manager.log m.tid then .decideCommit else .decideAbort := by
  have hin : managerInput s.net (.deliver k {}) = some (.message src m {}) := by
    simp [managerInput, hnet]
  have hpoll : s.manager.handle (.message src m {}) = _ := Manager.handle_poll hk hno
  refine ⟨_, s.net.length, Manager.constructMessage
    (if isCommit s.manager.log m.tid then .decideCommit else .decideAbort) m.tid m.nodeId
    (tick s.manager.port (s.manager.receivedClock m)), reaches_manager _ hin hup, rfl, ?_, ?_, ?_, rfl, rfl⟩
  · rw [manager_managerStep, hpoll]
    rfl
  · rw [manager_managerStep, hpoll]
    rfl
  · have hsent : (Manager.process.performed s.manager ⟨.message src m {}, none⟩).filterMap
        managerPacket = [.toWorker src (Manager.constructMessage
          (if isCommit s.manager.log m.tid then .decideCommit else .decideAbort) m.tid m.nodeId
          (tick s.manager.port (s.manager.receivedClock m)))] := by
      show (s.manager.handle (.message src m {})).filterMap managerPacket = _
      rw [hpoll]
      rfl
    simp [managerStep, hsent]

/-- The answer reaches the worker. -/
theorem reaches_released (cfg : Config) {k : ℕ} {m : TxMessage} {w₀ : Worker} {commit : Bool} (hn : n ≠ 0)
    (h : Worker.Waits t w₀ (s.workers n)) (hpage : w₀.OnPage)
    (hnet : s.net[k]? = some (.toWorker (cfg.workerAddr n) m))
    (ht : m.tid = t) (hk : m.msgID = if commit then .decideCommit else .decideAbort) :
    ∃ s', (machine cfg).Reaches (Smooth cfg) 1 s s' ∧ s'.manager = s.manager ∧
      Worker.Released t commit w₀ (s'.workers n) := by
  obtain ⟨a, ha⟩ := h.waiting
  have hin : workerInput cfg n s.net (.deliver k) = some (.manager cfg.managerAddr m) := by
    simp [workerInput, hnet]
  have hacc : (s.workers n).accepts (.manager cfg.managerAddr m) := by
    simp [Worker.accepts, ha]
  have hhandle : (s.workers n).handle (.manager cfg.managerAddr m) =
      (s.workers n).waitingForCoordResponse cfg.managerAddr m := by
    simp only [Worker.handle, ha]
  refine ⟨_, reaches_worker _ hn hin hacc, rfl, ?_⟩
  rw [workers_workerStep, hhandle]
  exact h.released cfg.managerAddr commit (fun _ => hpage) ht hk

theorem unmarked_after {as : List SystemAct}
    (hrun : (machine cfg).Along (enabled cfg) (start cfg) as) :
    Manager.Unmarked ((machine cfg).after (start cfg) as).manager.log := by
  refine hrun.invariant (I := fun s => Manager.Unmarked s.manager.log) (fun r hr => ?_) ?_
  · exact absurd hr List.not_mem_nil
  · rintro s (a | ⟨n, a⟩) hs ha
    · obtain ⟨input, hin, -⟩ := ha
      show Manager.Unmarked (next cfg s (.manager a)).manager.log
      rw [next_manager hin]
      exact Manager.unmarked_step hs ⟨input, a.cut⟩
    · obtain ⟨-, input, hin, -⟩ := ha
      show Manager.Unmarked (next cfg s (.worker n a)).manager.log
      rw [next_worker hin]
      exact hs

/-- Worker 40 votes on transaction 1, and then both it and the manager die. -/
def bothDie : List SystemAct :=
  [command 40 .begintx, toManager 0, command 40 .jointx, toManager 2, toWorker 40 3,
    command 40 .commit, toManager 4, toWorker 40 5, .manager ⟨.timeout, some 0⟩,
    .worker 40 ⟨.pollTimeout, some 0⟩]

end System

end DistributedSystem.Transaction
