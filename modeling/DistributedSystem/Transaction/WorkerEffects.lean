import DistributedSystem.Transaction.Worker

/-!
# What the worker's functions can do

The counterpart of `ManagerEffects` for the worker: which effects occur in the list of
each function, and which effects change which part of the state.
-/

namespace DistributedSystem.Transaction

open DistributedSystem.Library

/-- The effects on memory and bookkeeping: neither the log, nor the object, nor a datagram,
    nor the current transaction. -/
def WorkerEffect.isInternal : WorkerEffect → Bool
  | .log _ | .updateA _ | .updateB _ | .updateID _ | .lastUpdateTime _ | .objClock _ | .restoreA _
  | .restoreB _ | .restoreID _ | .restoreClock _ _ | .restoreTime _ | .send _ _ | .joined _
  | .curTid _ => false
  | _ => true

/-- The record that is written. -/
def WorkerEffect.record : WorkerEffect → Option Record
  | .log r => some r
  | _ => none

/-- The writes of `readValFromRecord`. -/
def WorkerEffect.isRestore : WorkerEffect → Bool
  | .restoreA _ | .restoreB _ | .restoreID _ | .restoreClock _ _ | .restoreTime _ => true
  | _ => false

namespace Worker

variable {w : Worker} {e : WorkerEffect} {m : TxMessage} {inp : Input}

@[simp] theorem process_apply (w : Worker) (e : WorkerEffect) : process.apply w e = w.apply e := rfl

@[simp] theorem process_handler (w : Worker) (inp : Input) : process.handler w inp = w.handle inp :=
  rfl

@[simp] theorem process_crash (inp : Input) : process.crash inp = .exit := rfl

theorem log_apply (w : Worker) (e : WorkerEffect) :
    (w.apply e).log = match e with
      | .log r => w.log ++ [r]
      | _ => w.log := by
  cases e with
  | objClock i => simp only [apply]; split <;> rfl
  | _ => rfl

theorem curTid_apply (w : Worker) (e : WorkerEffect) :
    (w.apply e).mem.curTid = match e with
      | .joined tid | .curTid tid => tid
      | .exit => 0
      | _ => w.mem.curTid := by
  cases e with
  | objClock i => simp only [apply]; split <;> rfl
  | _ => rfl

theorem control_apply (w : Worker) (e : WorkerEffect) :
    (w.apply e).mem.control = match e with
      | .control c => c
      | .exit => .down
      | _ => w.mem.control := by
  cases e with
  | objClock i => simp only [apply]; split <;> rfl
  | _ => rfl

theorem vote_apply (w : Worker) (e : WorkerEffect) :
    (w.apply e).mem.vote = match e with
      | .vote v => v
      | .exit => none
      | _ => w.mem.vote := by
  cases e with
  | objClock i => simp only [apply]; split <;> rfl
  | _ => rfl

theorem nodeId_apply (w : Worker) (e : WorkerEffect) : (w.apply e).nodeId = w.nodeId := by
  cases e with
  | objClock i => simp only [apply]; split <;> rfl
  | _ => rfl

/-- The records that effects add. -/
theorem mem_log_exec {es : List WorkerEffect} {r : Record} (h : r ∈ (process.exec w es).log) :
    r ∈ w.log ∨ .log r ∈ es := by
  induction es generalizing w with
  | nil => exact Or.inl h
  | cons e es ih =>
      rcases ih h with h | h
      · rw [process_apply, log_apply] at h
        cases e with
        | log r' =>
            rcases List.mem_append.mp h with h | h
            · exact Or.inl h
            · exact Or.inr (by simp [List.mem_singleton.mp h])
        | _ => exact Or.inl h
      · exact Or.inr (List.mem_cons_of_mem _ h)

theorem log_exec (w : Worker) (es : List WorkerEffect) :
    (process.exec w es).log = w.log ++ es.filterMap WorkerEffect.record := by
  induction es generalizing w with
  | nil => simp
  | cons e es ih =>
      rw [Process.exec_cons, ih, process_apply, log_apply]
      cases e with
      | log r => exact List.append_assoc _ _ _
      | _ => rfl

theorem nodeId_exec (w : Worker) (es : List WorkerEffect) : (process.exec w es).nodeId = w.nodeId :=
  Process.exec_unchanged Worker.nodeId fun w e _ => nodeId_apply w e

/-! ## The effects of each function -/

theorem mem_sendMsg {vc : VClock} {dst : SockAddr} (h : e ∈ w.sendMsg vc dst m) :
    e = .send dst m ∨ e.isInternal := by
  simp only [sendMsg] at h
  split at h
  · simp only [List.mem_cons, List.not_mem_nil, or_false] at h
    rcases h with rfl | rfl | rfl | rfl <;> exact Or.inr rfl
  · split at h
    · simp only [List.mem_cons, List.not_mem_nil, or_false] at h
      rcases h with rfl | rfl | rfl | rfl | rfl
      · exact Or.inl rfl
      all_goals exact Or.inr rfl
    · exact Or.inl (List.mem_singleton.mp h)

theorem mem_restore {x : OldValues × Record} (h : e ∈ restore x) : e.isRestore := by
  simp only [restore, List.mem_append, List.mem_cons, List.not_mem_nil, or_false, List.mem_map,
    List.mem_finRange, true_and] at h
  rcases h with ((rfl | rfl | rfl) | ⟨k, rfl⟩) | rfl <;> rfl

theorem mem_rollback {curTid : Tid} (h : e ∈ w.rollback curTid) : e.isRestore := by
  obtain ⟨x, -, hx⟩ := List.mem_flatMap.mp h
  exact mem_restore hx

theorem mem_receive {src : SockAddr} (h : e ∈ w.receive src m) : e.isInternal := by
  simp only [receive, List.mem_cons, List.not_mem_nil, or_false] at h
  rcases h with rfl | rfl | rfl | rfl <;> rfl

/-- The worker votes on the input. -/
def Votes (w : Worker) : Input → Prop
  | .manager _ m => m.msgID = .prepareCommit ∧ w.mem.control = .cmdLoop
  | _ => False

instance (w : Worker) : ∀ inp, Decidable (w.Votes inp)
  | .manager _ _ => inferInstanceAs (Decidable (_ ∧ _))
  | .cmd _ _ | .pollTimeout | .restart => isFalse id

/-- The transaction under which an input is recorded. -/
def recordTid (w : Worker) : Input → Tid
  | .manager _ m => m.tid
  | .restart => w.recoveredTid
  | _ => w.mem.curTid

/-- The input makes the worker abort without the manager: an `ABORT` command, or a restart with
    a last record after which it does not ask. -/
def AbortsAlone (w : Worker) : Input → Prop
  | .cmd m _ => m.msgID = .abort ∨ m.msgID = .abortCrash
  | .restart => awaitsDecision ((findStateFromRecord w.log).map Record.msgID) = false
  | .manager _ _ | .pollTimeout => False

instance (w : Worker) : ∀ inp, Decidable (w.AbortsAlone inp)
  | .cmd _ _ => inferInstanceAs (Decidable (_ ∨ _))
  | .restart => inferInstanceAs (Decidable (_ = _))
  | .manager _ _ | .pollTimeout => isFalse id

/-- A record of a decision is written for a message with that decision, and an `ABORT` record
    when the worker aborts by itself. -/
def LogsFor (w : Worker) (inp : Input) (r : Record) : Prop :=
  r.tid = w.recordTid inp ∧ ((r.msgID ≠ .decideCommit ∧ r.msgID ≠ .decideAbort) ∨
    ∃ src m, inp = .manager src m ∧ m.msgID = r.msgID) ∧
  (r.msgID = .abort → w.AbortsAlone inp)

/-- What a worker sends: a request or a poll under its own node id, or in the command loop the
    answer to a `PREPARE_COMMIT` with the ids of that message. -/
def SendsFor (w : Worker) (inp : Input) (m : TxMessage) : Prop :=
  (m.nodeId = w.nodeId ∧ m.msgID ≠ .voteCommit ∧ m.msgID ≠ .voteAbort) ∨
    ∃ src p, inp = .manager src p ∧ p.msgID = .prepareCommit ∧ m.tid = p.tid ∧
      m.nodeId = p.nodeId ∧ m.msgID = w.voteFor p ∧ ∀ a, w.mem.control ≠ .waiting a

/-- Only a `JOIN_SUCCESS` in the command loop starts a transaction. -/
def JoinsFor (w : Worker) (inp : Input) (tid : Tid) : Prop :=
  (∀ a, w.mem.control ≠ .waiting a) ∧
    ∃ src m, inp = .manager src m ∧ m.msgID = .joinSuccess ∧ m.tid = tid

/-- The law of one effect of a handler: what is logged and sent, and which transaction
    becomes the current one. -/
def Accounted (w : Worker) (inp : Input) : WorkerEffect → Prop
  | .log r => w.LogsFor inp r
  | .send _ m => w.SendsFor inp m
  | .joined tid => w.JoinsFor inp tid
  | .curTid tid => inp = .restart ∧ tid = w.recoveredTid
  | _ => True

theorem accounted_of_isInternal (h : e.isInternal) : w.Accounted inp e := by
  cases e <;> simp_all [WorkerEffect.isInternal, Accounted]

theorem accounted_of_isRestore (h : e.isRestore) : w.Accounted inp e := by
  cases e <;> simp_all [WorkerEffect.isRestore, Accounted]

theorem accounted_sendMsg {vc : VClock} {dst : SockAddr} (h : e ∈ w.sendMsg vc dst m)
    (hm : w.SendsFor inp m) : w.Accounted inp e := by
  rcases mem_sendMsg h with rfl | h
  · exact hm
  · exact accounted_of_isInternal h

theorem accounted_updateObject {undo : Record} {write : WorkerEffect} {stampClock : Bool}
    {now : Timeval} (h : e ∈ w.updateObject undo write stampClock now) (hundo : w.LogsFor inp undo)
    (hwrite : w.Accounted inp write) : w.Accounted inp e := by
  simp only [updateObject, List.mem_append, List.mem_cons, List.not_mem_nil, or_false] at h
  rcases h with (h | rfl | rfl | rfl | rfl | rfl) | h
  · split at h
    · rw [List.mem_singleton.mp h]
      exact hundo
    · simp at h
  · exact hwrite
  · trivial
  · trivial
  · trivial
  · trivial
  · split at h
    · rw [List.mem_singleton.mp h]
      trivial
    · simp at h

theorem accounted_handleBeginJoin {c : MsgType} {toIP : Option ℕ}
    (hk : c.msgID = .begintx ∨ c.msgID = .jointx) (h : e ∈ w.handleBeginJoin c toIP) :
    w.Accounted inp e := by
  cases toIP with
  | none =>
      rw [List.mem_singleton.mp h]
      trivial
  | some addr =>
      simp only [handleBeginJoin, List.mem_append, List.mem_cons, List.not_mem_nil, or_false] at h
      rcases h with (rfl | rfl | rfl | rfl) | h
      · trivial
      · trivial
      · trivial
      · trivial
      · refine accounted_sendMsg h (Or.inl ⟨rfl, ?_⟩)
        rcases hk with hk | hk <;> simp [constructMessage, hk]

theorem accounted_handleCommit {c : MsgType} {calls : CmdCalls}
    (hk : c.msgID = .commit ∨ c.msgID = .commitCrash) (h : e ∈ w.handleCommit c) :
    w.Accounted (.cmd c calls) e := by
  have hkind : c.msgID ≠ .decideCommit ∧ c.msgID ≠ .decideAbort ∧ c.msgID ≠ .abort := by
    rcases hk with hk | hk <;> simp [hk]
  simp only [handleCommit, List.mem_append, List.mem_cons, List.not_mem_nil, or_false] at h
  rcases h with (rfl | rfl | rfl | rfl | rfl) | h
  · trivial
  · exact ⟨rfl, Or.inl ⟨hkind.1, hkind.2.1⟩, fun h => absurd h hkind.2.2⟩
  · trivial
  · trivial
  · trivial
  · exact accounted_sendMsg h (Or.inl ⟨rfl, by simp [constructMessage]⟩)

theorem accounted_handleAbort {c : MsgType} {calls : CmdCalls}
    (hk : c.msgID = .abort ∨ c.msgID = .abortCrash) (h : e ∈ w.handleAbort c) :
    w.Accounted (.cmd c calls) e := by
  simp only [handleAbort, List.mem_append, List.mem_cons, List.not_mem_nil, or_false] at h
  rcases h with (rfl | h) | rfl | rfl | rfl | rfl
  · trivial
  · exact accounted_of_isRestore (mem_rollback h)
  · trivial
  · trivial
  · trivial
  · exact ⟨rfl, Or.inl (by simp), fun _ => hk⟩

theorem accounted_handleCmdMsg {c : MsgType} {calls : CmdCalls} (h : e ∈ w.handleCmdMsg c calls) :
    w.Accounted (.cmd c calls) e := by
  unfold handleCmdMsg at h
  split at h
  · exact accounted_handleBeginJoin (Or.inl ‹_›) h
  · exact accounted_handleBeginJoin (Or.inr ‹_›) h
  · exact accounted_updateObject h ⟨rfl, Or.inl (by simp), by simp⟩ trivial
  · exact accounted_updateObject h ⟨rfl, Or.inl (by simp), by simp⟩ trivial
  · exact accounted_updateObject h ⟨rfl, Or.inl (by simp), by simp⟩ trivial
  · rw [List.mem_singleton.mp h]
    trivial
  · simp only [handleCrash, List.mem_cons, List.not_mem_nil, or_false] at h
    rcases h with rfl | rfl | rfl | rfl <;> trivial
  · exact accounted_handleCommit (Or.inr ‹_›) h
  · exact accounted_handleCommit (Or.inl ‹_›) h
  · exact accounted_handleAbort (Or.inr ‹_›) h
  · exact accounted_handleAbort (Or.inl ‹_›) h
  · rw [List.mem_singleton.mp h]
    trivial
  · simp at h

theorem accounted_handleDecideAbort {src : SockAddr} (hk : m.msgID = .decideAbort)
    (h : e ∈ w.handleDecideAbort m) : w.Accounted (.manager src m) e := by
  simp only [handleDecideAbort, List.mem_append, List.mem_cons, List.not_mem_nil, or_false] at h
  rcases h with h | rfl | rfl
  · exact accounted_of_isRestore (mem_rollback h)
  · exact ⟨rfl, Or.inr ⟨src, m, rfl, hk⟩, by simp⟩
  · trivial

theorem accounted_handleDecideCommit {src : SockAddr} (hk : m.msgID = .decideCommit)
    (h : e ∈ handleDecideCommit m) : w.Accounted (.manager src m) e := by
  simp only [handleDecideCommit, List.mem_cons, List.not_mem_nil, or_false] at h
  rcases h with rfl | rfl
  · exact ⟨rfl, Or.inr ⟨src, m, rfl, hk⟩, by simp⟩
  · trivial

theorem accounted_handlePrepareCommit {src : SockAddr} (hk : m.msgID = .prepareCommit)
    (hcontrol : ∀ a, w.mem.control ≠ .waiting a) (h : e ∈ w.handlePrepareCommit src m) :
    w.Accounted (.manager src m) e := by
  simp only [handlePrepareCommit, List.mem_append, List.mem_cons, List.not_mem_nil, or_false] at h
  rcases h with ((((rfl | rfl | rfl) | h) | rfl) | h) | h
  · exact ⟨rfl, Or.inl (by simp), by simp⟩
  · trivial
  · trivial
  · split at h
    · rw [List.mem_singleton.mp h]
      trivial
    · simp at h
  · trivial
  · -- the vote, which may be the last thing the worker does
    exact accounted_sendMsg h (Or.inr ⟨src, m, rfl, hk, rfl, rfl, rfl, hcontrol⟩)
  · split at h
    · simp at h
    · simp only [List.mem_cons, List.not_mem_nil, or_false] at h
      rcases h with rfl | rfl | rfl
      · exact ⟨rfl, Or.inl (by simp), by simp⟩
      · trivial
      · trivial

/-- **The effect law of a worker**: every effect of every handler is accounted. -/
theorem accounted_handle (h : e ∈ w.handle inp) : w.Accounted inp e := by
  cases inp with
  | cmd m calls => exact accounted_handleCmdMsg h
  | pollTimeout =>
      simp only [handle] at h
      split at h
      · simp only [pollDecision, List.mem_append, List.mem_cons, List.not_mem_nil, or_false] at h
        rcases h with (rfl | rfl | rfl | rfl) | h
        any_goals trivial
        exact accounted_sendMsg h (Or.inl ⟨rfl, by simp [constructTxMessage]⟩)
      · simp at h
  | restart =>
      simp only [handle, restart, List.mem_append, List.mem_cons, List.not_mem_nil, or_false] at h
      rcases h with (rfl | rfl | rfl | rfl | rfl) | h
      · trivial
      · trivial
      · trivial
      · trivial
      · exact ⟨rfl, rfl⟩
      split at h
      · rw [List.mem_singleton.mp h]
        trivial
      · rename_i hwait
        simp only [List.mem_append, List.mem_cons, List.not_mem_nil, or_false] at h
        rcases h with h | rfl | rfl | rfl | rfl | rfl | rfl
        · exact accounted_of_isRestore (mem_rollback h)
        any_goals trivial
        exact ⟨rfl, Or.inl (by simp), fun _ => Bool.eq_false_iff.mpr hwait⟩
  | manager src m =>
      simp only [handle] at h
      split at h
      · simp only [waitingForCoordResponse, List.mem_append, List.mem_singleton] at h
        rcases h with (h | h) | rfl
        · exact accounted_of_isInternal (mem_receive h)
        · split at h
          · exact accounted_handleDecideCommit ‹_› h
          · exact accounted_handleDecideAbort ‹_› h
          · simp at h
        · trivial
      · rename_i hcontrol
        simp only [handleManagerMsg, List.mem_append] at h
        rcases h with h | h
        · exact accounted_of_isInternal (mem_receive h)
        · split at h
          · rw [List.mem_singleton.mp h]
            exact ⟨rfl, Or.inl (by simp [joinRecord]), by simp [joinRecord]⟩
          · simp only [List.mem_cons, List.not_mem_nil, or_false] at h
            rcases h with rfl | rfl | rfl
            · exact ⟨hcontrol, src, m, rfl, ‹_›, rfl⟩
            · trivial
            · exact ⟨rfl, Or.inl (by simp [joinRecord]), by simp [joinRecord]⟩
          · exact accounted_handleDecideCommit ‹_› h
          · exact accounted_handlePrepareCommit ‹_› hcontrol h
          · exact accounted_handleDecideAbort ‹_› h
          · simp at h

/-- The same for an action, which may be cut off. -/
theorem accounted_performed {a : Act Input} (h : e ∈ process.performed w a) :
    w.Accounted a.input e := by
  rcases Process.mem_performed h with h | rfl
  · exact accounted_handle h
  · trivial

end Worker

end DistributedSystem.Transaction
