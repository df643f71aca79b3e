import DistributedSystem.Transaction.ManagerEffects

/-!
# The vote timeout

`waitingForVotes` is to find a transaction of the table whose commit request is not followed
by a decision. Its test for a decision compares with `DECIDE_ABORT || DECIDE_COMMIT`, a number
that no record has, and it reads one page of the log, so the scan stops at the first slot whose
transaction was ever asked to commit there. It is right exactly when that slot holds an
undecided transaction.
-/

namespace DistributedSystem.Transaction

open DistributedSystem.Library

/-! ## What the records say -/

/-- A record of a commit request of `t`. -/
def IsRequest (t : Tid) (r : CoordRecord) : Prop := r.tid = t ∧ r.msgID = .commitReq

/-- A record of a decision on `t`. -/
def IsDecision (t : Tid) (r : CoordRecord) : Prop :=
  r.tid = t ∧ (r.msgID = .decideCommit ∨ r.msgID = .decideAbort)

/-- A record of `t` whose kind is the number 1. -/
def IsMark (t : Tid) (r : CoordRecord) : Prop := r.tid = t ∧ r.msgID = .other 1

/-- `t` has a commit request and no later decision. -/
def Undecided (log : List CoordRecord) (t : Tid) : Prop :=
  Unanswered (IsRequest t) (IsDecision t) log

/-- `t` has a commit request, and no later record of the kind 1. -/
def Requested (log : List CoordRecord) (t : Tid) : Prop :=
  Unanswered (IsRequest t) (IsMark t) log

/-- A transaction of the table that a vote timeout may abort. -/
def Abortable (T : Table) (log : List CoordRecord) (t : Tid) : Prop :=
  t ≠ 0 ∧ (∃ i, (T i).tid = t) ∧ Undecided log t

/-- The scan of the log finds a request that no mark follows. -/
theorem waitingLoop_iff (t : Tid) (log : List CoordRecord) :
    waitingLoop t log.reverse = true ↔ Requested log t := by
  induction log using List.reverseRecOn with
  | nil => simp [waitingLoop, Requested, not_unanswered_nil]
  | append_singleton log r ih =>
    rw [List.reverse_append, Requested, unanswered_concat]
    show (if r.tid = t then
        if r.msgID = .other 1 then false
        else if r.msgID = .commitReq then true
        else waitingLoop t log.reverse
      else waitingLoop t log.reverse) = true ↔ _
    by_cases ht : r.tid = t
    · by_cases hmark : r.msgID = .other 1
      · simp [ht, hmark, IsRequest, IsMark]
      by_cases hreq : r.msgID = .commitReq
      · simp [ht, hreq, IsRequest]
      · simp [ht, hmark, hreq, IsRequest, IsMark, ih, Requested]
    · simp [ht, IsRequest, IsMark, ih, Requested]

/-- The first slot whose transaction was asked to commit. -/
def FirstRequested (T : Table) (log : List CoordRecord) (i : Fin maxTrans) : Prop :=
  Requested log (T i).tid ∧ ∀ j < i, ¬ Requested log (T j).tid

/-- `waitingForVotes` stops there, with what the page shows of the log. -/
theorem waitingForVotes_eq_some {T : Table} {log : List CoordRecord} {t : Tid} :
    waitingForVotes T log = some t ↔ ∃ i, FirstRequested T (mappedCoord log) i ∧ (T i).tid = t := by
  unfold waitingForVotes
  rw [Option.map_eq_some_iff]
  refine exists_congr fun i => and_congr_left fun _ => ?_
  rw [firstFin_eq_some, waitingLoop_iff]
  refine and_congr_right fun _ => forall₂_congr fun j _ => ?_
  rw [← waitingLoop_iff, Bool.not_eq_true]

theorem waitingForVotes_eq_none {T : Table} {log : List CoordRecord} :
    waitingForVotes T log = none ↔ ∀ i, ¬ Requested (mappedCoord log) (T i).tid := by
  unfold waitingForVotes
  rw [Option.map_eq_none_iff, firstFin_eq_none]
  refine forall_congr' fun i => ?_
  rw [← waitingLoop_iff, Bool.not_eq_true]

/-! ## The law of the vote timeout -/

/-- `waitingForVotes` returns a transaction exactly when one may be aborted, and then it is
    such a one; and what the timeout aborts is not decided yet. -/
structure TimeoutExact (s : Manager) : Prop where
  finds : (waitingForVotes s.workerInfo s.log).isSome = true ↔
    ∃ t, Abortable s.workerInfo s.log t
  abortTid : ∀ t, waitingForVotes s.workerInfo s.log = some t → Abortable s.workerInfo s.log t
  aborts : ∀ r, .log r ∈ s.voteTimeout → Undecided s.log r.tid

/-- The timeout logs one decision, on the transaction that was found. -/
theorem log_mem_voteTimeout {s : Manager} {r : CoordRecord} (h : .log r ∈ s.voteTimeout) :
    waitingForVotes s.workerInfo s.log = some r.tid := by
  unfold Manager.voteTimeout at h
  cases hw : waitingForVotes s.workerInfo s.log with
  | none => simp [hw] at h
  | some t =>
    -- of the clock, the record, the broadcast and the clearing only the record is logged
    simp only [hw, List.mem_append, List.mem_cons, List.not_mem_nil, or_false] at h
    rcases h with ((h | h) | h) | h
    · cases h
    · cases h
      rfl
    · rcases Manager.mem_sendToAllWorkers h with hb | ⟨w, -, n, vc, heq⟩
      · cases hb
      · cases heq
    · obtain ⟨i, -, heq | heq | ⟨j, heq | heq | heq⟩⟩ := Manager.mem_cleanWorkerInfo h <;> cases heq

/-- The condition on the table and the log: the first slot whose transaction was asked to
    commit on the page holds one that may be aborted, and if there is no such slot, no request
    of the table is hidden by a mark or stands behind the page. -/
def ScanMeets (T : Table) (log : List CoordRecord) : Prop :=
  (∀ i, FirstRequested T (mappedCoord log) i → (T i).tid ≠ 0 ∧ Undecided log (T i).tid) ∧
    ((∀ i, ¬ Requested (mappedCoord log) (T i).tid) →
      ∀ i, (T i).tid ≠ 0 → ¬ Undecided log (T i).tid)

/-! ### A slot left by a crash -/

/-- Worker 1 begins transaction 5, joins it and asks to commit; the manager dies between the
    record of the decision and the broadcast, and is started again. -/
def leftRun : List (Act Manager.Input) :=
  let m (msgID : MsgId) : TxMessage :=
    { msgID, tid := 5, nodeId := 1, isCrash := false, vectorClock := emptyClock }
  [⟨.message ⟨0, 100⟩ (m .begintx) {}, none⟩, ⟨.message ⟨0, 100⟩ (m .jointx) {}, none⟩,
    ⟨.message ⟨0, 100⟩ (m .commit) {}, none⟩, ⟨.message ⟨0, 100⟩ (m .voteCommit) {}, some 6⟩,
    ⟨.restart, none⟩]

end DistributedSystem.Transaction
