import DistributedSystem.Transaction.Restore

/-!
# The shapes of a worker's handlers

Seen from the object and the log, a handler of the worker is one of three things: it
leaves the object alone, or it rolls it back once, or it is an update command, which
writes an undo record and then the field.
-/

namespace DistributedSystem.Transaction

open DistributedSystem.Library

/-- The kinds of undo records. -/
def MsgId.isUpdate : MsgId → Bool
  | .newA | .newB | .newIdStr => true
  | _ => false

/-- The effects that leave the object alone and log no undo record. -/
def WorkerEffect.isPlain : WorkerEffect → Bool
  | .log r => !r.msgID.isUpdate
  | .send _ _ | .joined _ | .curTid _ => true
  | e => e.isInternal

namespace Worker

variable {w : Worker} {e : WorkerEffect} {es : List WorkerEffect} {m : TxMessage} {inp : Input}

/-! ## Plain effects -/

theorem isPlain_of_isInternal (h : e.isInternal) : e.isPlain := by
  cases e <;> simp_all [WorkerEffect.isInternal, WorkerEffect.isPlain]

theorem objData_apply (h : e.isPlain) : (w.apply e).objData = w.objData := by
  cases e <;> simp_all [WorkerEffect.isPlain, WorkerEffect.isInternal, apply, withMem]

theorem objData_exec (h : ∀ e ∈ es, e.isPlain) : (process.exec w es).objData = w.objData :=
  Process.exec_unchanged Worker.objData fun _ e he => objData_apply (h e he)

theorem log_apply_of_isRestore (h : e.isRestore) : (w.apply e).log = w.log := by
  cases e <;> simp_all [WorkerEffect.isRestore, apply, withObj]

theorem isPlain_sendMsg {vc : VClock} {dst : SockAddr} (h : e ∈ w.sendMsg vc dst m) : e.isPlain := by
  rcases mem_sendMsg h with rfl | h
  · rfl
  · exact isPlain_of_isInternal h

theorem isPlain_receive {src : SockAddr} (h : e ∈ w.receive src m) : e.isPlain :=
  isPlain_of_isInternal (mem_receive h)

/-! ## Shapes -/

/-- An update command for a running transaction writes `undo` and then does `write`. -/
inductive UpdatePair (w : Worker) : Record → WorkerEffect → Prop
  | newA (v : ℤ) :
      UpdatePair w { msgID := .newA, tid := w.mem.curTid, oldValue := w.objData.A } (.updateA v)
  | newB (v : ℤ) :
      UpdatePair w { msgID := .newB, tid := w.mem.curTid, oldValue := w.objData.B } (.updateB v)
  | newIdStr (v : String) :
      UpdatePair w { msgID := .newIdStr, tid := w.mem.curTid, oldID := w.objData.IDstring }
        (.updateID v)

/-- The transaction that a rollback of this input undoes. -/
def rollbackTid (w : Worker) : Input → Tid
  | .restart => w.recoveredTid
  | _ => w.mem.curTid

/-- The input rolls the object back: the worker aborts by itself or is told to. -/
def RollsBack (w : Worker) : Input → Prop
  | .manager _ m => m.msgID = .decideAbort ∧ w.mem.control ≠ .down
  | inp => w.AbortsAlone inp

instance (w : Worker) : ∀ inp, Decidable (w.RollsBack inp)
  | .manager _ _ => inferInstanceAs (Decidable (_ ∧ _))
  | .cmd m calls => inferInstanceAs (Decidable (w.AbortsAlone (.cmd m calls)))
  | .pollTimeout => inferInstanceAs (Decidable (w.AbortsAlone .pollTimeout))
  | .restart => inferInstanceAs (Decidable (w.AbortsAlone .restart))

/-- Where the handler rolls back, or takes the transaction from the last record, the log ends
    on the page that it reads. -/
def ReadsOnPage (w : Worker) (inp : Input) : Prop := w.RollsBack inp ∨ inp = .restart → w.OnPage

instance (w : Worker) (inp : Input) : Decidable (w.ReadsOnPage inp) :=
  inferInstanceAs (Decidable (_ → _))

/-- The three shapes. -/
inductive Shape (w : Worker) (inp : Input) (es : List WorkerEffect) : Prop
  | plain (hno : ¬ w.RollsBack inp) (h : ∀ e ∈ es, e.isPlain)
  | rollback (pre post : List WorkerEffect) (hroll : w.RollsBack inp)
      (heq : es = pre ++ w.rollback (w.rollbackTid inp) ++ post) (hpre : ∀ e ∈ pre, e.isPlain ∧ ∀ r, e ≠ .log r)
      (hpost : ∀ e ∈ post, e.isPlain)
  | update (m : MsgType) (calls : CmdCalls) (undo : Record) (write : WorkerEffect) (stamp : Bool)
      (hinp : inp = .cmd m calls) (hkind : m.msgID = undo.msgID) (hpair : w.UpdatePair undo write)
      (heq : es = w.updateObject undo write stamp calls.gettimeofday)

theorem isPlain_handleBeginJoin {c : MsgType} {toIP : Option ℕ} (h : e ∈ w.handleBeginJoin c toIP) :
    e.isPlain := by
  cases toIP with
  | none =>
      rw [List.mem_singleton.mp h]
      rfl
  | some addr =>
      simp only [handleBeginJoin, List.mem_append, List.mem_cons, List.not_mem_nil, or_false] at h
      rcases h with (rfl | rfl | rfl | rfl) | h
      · rfl
      · rfl
      · rfl
      · rfl
      · exact isPlain_sendMsg h

theorem isPlain_handleCommit {c : MsgType} (hk : c.msgID = .commit ∨ c.msgID = .commitCrash)
    (h : e ∈ w.handleCommit c) : e.isPlain := by
  simp only [handleCommit, List.mem_append, List.mem_cons, List.not_mem_nil, or_false] at h
  rcases h with (rfl | rfl | rfl | rfl | rfl) | h
  · rfl
  · rcases hk with hk | hk <;> simp [WorkerEffect.isPlain, MsgId.isUpdate, hk]
  · rfl
  · rfl
  · rfl
  · exact isPlain_sendMsg h

theorem isPlain_handlePrepareCommit {src : SockAddr} (h : e ∈ w.handlePrepareCommit src m) :
    e.isPlain := by
  simp only [handlePrepareCommit, List.mem_append, List.mem_cons, List.not_mem_nil, or_false] at h
  rcases h with ((((rfl | rfl | rfl) | h) | rfl) | h) | h
  · rfl
  · rfl
  · rfl
  · split at h
    · rw [List.mem_singleton.mp h]
      rfl
    · simp at h
  · rfl
  · exact isPlain_sendMsg h
  · split at h
    · simp at h
    · simp only [List.mem_cons, List.not_mem_nil, or_false] at h
      rcases h with rfl | rfl | rfl <;> rfl

theorem isPlain_pollDecision {a : SockAddr} (h : e ∈ w.pollDecision a) : e.isPlain := by
  simp only [pollDecision, List.mem_append, List.mem_cons, List.not_mem_nil, or_false] at h
  rcases h with (rfl | rfl | rfl | rfl) | h
  · rfl
  · rfl
  · rfl
  · rfl
  · exact isPlain_sendMsg h

theorem shape_handleCmdMsg (w : Worker) (c : MsgType) (calls : CmdCalls) :
    Shape w (.cmd c calls) (w.handleCmdMsg c calls) := by
  -- no other command rolls back
  have hno : ∀ {k : MsgId}, c.msgID = k → k ≠ .abort ∧ k ≠ .abortCrash → ¬ w.RollsBack (.cmd c calls) := by
    intro k hk hne hroll
    exact hroll.elim (fun h => hne.1 (hk.symm.trans h)) fun h => hne.2 (hk.symm.trans h)
  -- the flag stands before the rollback, the record behind it
  have habort : c.msgID = .abort ∨ c.msgID = .abortCrash →
      Shape w (.cmd c calls) (w.handleAbort c) := by
    intro hk
    refine .rollback [.isCrash (c.msgID = .abortCrash)] _ hk rfl ?_ ?_
    · simp [WorkerEffect.isPlain, WorkerEffect.isInternal]
    · simp [WorkerEffect.isPlain, WorkerEffect.isInternal, MsgId.isUpdate]
  unfold handleCmdMsg
  split
  · exact .plain (hno ‹_› (by simp)) fun e he => isPlain_handleBeginJoin he
  · exact .plain (hno ‹_› (by simp)) fun e he => isPlain_handleBeginJoin he
  · exact .update c calls _ _ true rfl ‹_› (.newA c.newValue) rfl
  · exact .update c calls _ _ true rfl ‹_› (.newB c.newValue) rfl
  · exact .update c calls _ _ false rfl ‹_› (.newIdStr c.strData) rfl
  · exact .plain (hno ‹_› (by simp)) (by simp [WorkerEffect.isPlain, WorkerEffect.isInternal])
  · exact .plain (hno ‹_› (by simp))
      (by simp [handleCrash, WorkerEffect.isPlain, WorkerEffect.isInternal])
  · exact .plain (hno ‹_› (by simp)) fun e he => isPlain_handleCommit (Or.inr ‹_›) he
  · exact .plain (hno ‹_› (by simp)) fun e he => isPlain_handleCommit (Or.inl ‹_›) he
  · exact habort (Or.inr ‹_›)
  · exact habort (Or.inl ‹_›)
  · exact .plain (hno ‹_› (by simp)) (by simp [WorkerEffect.isPlain, WorkerEffect.isInternal])
  · refine .plain ?_ (by simp)
    intro hroll
    rcases hroll with hk | hk <;> simp_all

theorem shape_decideAbort {src : SockAddr} (hup : w.mem.control ≠ .down)
    (hk : m.msgID = .decideAbort) {post : List WorkerEffect} (hpost : ∀ e ∈ post, e.isPlain) :
    Shape w (.manager src m) (w.receive src m ++ w.handleDecideAbort m ++ post) := by
  refine .rollback (w.receive src m)
    ([.log { msgID := .decideAbort, tid := m.tid }, .isTXRun false] ++ post) ⟨hk, hup⟩ ?_
    (fun e he => ⟨isPlain_receive he, ?_⟩) ?_
  · simp [handleDecideAbort, rollbackTid]
  · rintro r rfl
    exact absurd (mem_receive he) (by simp [WorkerEffect.isInternal])
  · intro e he
    simp only [List.mem_append, List.mem_cons, List.not_mem_nil, or_false] at he
    rcases he with (rfl | rfl) | he
    · rfl
    · rfl
    · exact hpost e he

/-- **Every handler has one of the three shapes.** -/
theorem shape_handle (hacc : w.accepts inp) : Shape w inp (w.handle inp) := by
  cases inp with
  | cmd c calls => exact shape_handleCmdMsg w c calls
  | pollTimeout =>
      simp only [handle]
      split
      · exact .plain id fun e he => isPlain_pollDecision he
      · exact .plain id (by simp)
  | restart =>
      simp only [handle, restart]
      split
      · refine .plain (by simp [RollsBack, AbortsAlone, *]) fun e he => ?_
        simp only [List.mem_append, List.mem_cons, List.not_mem_nil, or_false] at he
        rcases he with (rfl | rfl | rfl | rfl | rfl) | rfl <;> rfl
      · refine .rollback [.clock w.crashInfo.vectorClock,
          .clock (tick w.nodeId w.crashInfo.vectorClock), .saveVectorTime,
          .shiviz (.localEvent .restarted), .curTid w.recoveredTid] _ (by simp [RollsBack, AbortsAlone, *])
          (List.append_assoc _ _ _).symm ?_ ?_
        · simp [WorkerEffect.isPlain, WorkerEffect.isInternal]
        · simp [WorkerEffect.isPlain, WorkerEffect.isInternal, MsgId.isUpdate]
  | manager src m =>
      simp only [handle]
      have hno : ∀ {k : MsgId}, m.msgID = k → k ≠ .decideAbort → ¬ w.RollsBack (.manager src m) :=
        fun hk hne hroll => hne (hk.symm.trans hroll.1)
      split
      · -- while waiting for the decision
        simp only [waitingForCoordResponse]
        split
        · refine .plain (hno ‹_› (by simp)) fun e he => ?_
          simp only [handleDecideCommit, List.mem_append, List.mem_cons, List.not_mem_nil,
            or_false] at he
          rcases he with (he | rfl | rfl) | rfl
          · exact isPlain_receive he
          all_goals rfl
        · exact shape_decideAbort hacc ‹_› (by simp [WorkerEffect.isPlain, WorkerEffect.isInternal])
        · refine .plain (fun hroll => by simp_all [RollsBack]) fun e he => ?_
          simp only [List.append_nil, List.mem_append, List.mem_singleton] at he
          rcases he with he | rfl
          · exact isPlain_receive he
          · rfl
      · -- in the command loop
        simp only [handleManagerMsg]
        split
        · refine .plain (hno ‹_› (by simp)) fun e he => ?_
          rcases List.mem_append.mp he with he | he
          · exact isPlain_receive he
          · rw [List.mem_singleton.mp he]
            rfl
        · refine .plain (hno ‹_› (by simp)) fun e he => ?_
          simp only [List.mem_append, List.mem_cons, List.not_mem_nil, or_false] at he
          rcases he with he | rfl | rfl | rfl
          · exact isPlain_receive he
          all_goals rfl
        · refine .plain (hno ‹_› (by simp)) fun e he => ?_
          simp only [handleDecideCommit, List.mem_append, List.mem_cons, List.not_mem_nil,
            or_false] at he
          rcases he with he | rfl | rfl
          · exact isPlain_receive he
          all_goals rfl
        · refine .plain (hno ‹_› (by simp)) fun e he => ?_
          rcases List.mem_append.mp he with he | he
          · exact isPlain_receive he
          · exact isPlain_handlePrepareCommit he
        · have hshape : Shape w (.manager src m) (w.receive src m ++ w.handleDecideAbort m ++ []) :=
            shape_decideAbort hacc ‹_› (by simp)
          simpa using hshape
        · refine .plain (fun hroll => by simp_all [RollsBack]) fun e he => ?_
          rw [List.append_nil] at he
          exact isPlain_receive he

/-! ## Invariants between the effects -/

/-- A plain effect writes a record that is no undo record, or leaves log and object alone. -/
theorem plain_cases (w : Worker) (h : e.isPlain) :
    (∃ r, e = .log r ∧ r.msgID.isUpdate = false) ∨
      (w.apply e).log = w.log ∧ (w.apply e).objData = w.objData := by
  by_cases hlog : ∃ r, e = .log r
  · obtain ⟨r, rfl⟩ := hlog
    exact Or.inl ⟨r, rfl, by simpa [WorkerEffect.isPlain] using h⟩
  · refine Or.inr ⟨?_, objData_apply h⟩
    rw [log_apply]
    split
    · exact absurd ⟨_, rfl⟩ hlog
    · rfl

/-- The rule for an update command of a running transaction: `I` holds once the undo record
    is written, the write of the field keeps it, and nothing else touches log or fields. -/
theorem throughout_updateObject {I K : Worker → Prop} {undo : Record} {wr : WorkerEffect}
    {stamp : Bool} {now : Timeval} (hrun : w.mem.isTXRun = true) (h : K w)
    (hlogged : I (w.apply (.log undo))) (hwrite : ∀ w', I w' → I (w'.apply wr))
    (hquiet : ∀ w' w'', I w' → w''.log = w'.log → w''.objData.current = w'.objData.current → I w'')
    (hIK : ∀ w', I w' → K w') :
    process.Throughout K w (w.updateObject undo wr stamp now) := by
  simp only [updateObject, hrun, if_true, List.cons_append, List.nil_append]
  refine ⟨h, (Process.throughout_of_preserved hlogged fun w' e he h' => ?_).mono hIK⟩
  simp only [List.mem_cons] at he
  rcases he with rfl | rfl | rfl | rfl | rfl | he
  · exact hwrite w' h'
  · exact hquiet w' _ h' rfl rfl
  · exact hquiet w' _ h' rfl rfl
  · exact hquiet w' _ h' rfl rfl
  · exact hquiet w' _ h' rfl rfl
  · split at he
    · rw [List.mem_singleton.mp he]
      refine hquiet w' _ h' (log_apply _ _) ?_
      simp only [process_apply, apply]
      split <;> rfl
    · simp at he

/-- The rule for a rollback: `I` is kept up to its end, and `K` by what follows. -/
theorem throughout_rollback {I K : Worker → Prop} {tid : Tid} {pre post : List WorkerEffect}
    (h : I w) (hpre : ∀ w', ∀ e ∈ pre, I w' → I (w'.apply e))
    (hrestore : ∀ w', ∀ e ∈ w.rollback tid, I w' → I (w'.apply e)) (hIK : ∀ w', I w' → K w')
    (hpost : ∀ w', ∀ e ∈ post, K w' → K (w'.apply e)) :
    process.Throughout K w (pre ++ w.rollback tid ++ post) := by
  have hbefore : process.Throughout I w pre := Process.throughout_of_preserved h hpre
  have hduring : process.Throughout I (process.exec w pre) (w.rollback tid) :=
    Process.throughout_of_preserved hbefore.last hrestore
  have hafter : process.Throughout K (process.exec w (pre ++ w.rollback tid)) post := by
    rw [Process.exec_append]
    exact Process.throughout_of_preserved (hIK _ hduring.last) hpost
  exact Process.throughout_append.mpr
    ⟨Process.throughout_append.mpr ⟨hbefore.mono hIK, hduring.mono hIK⟩, hafter⟩

/-! ## The end of the process -/

/-- The process ends with the last effect, if it ends at all. -/
def ExitLast (es : List WorkerEffect) : Prop :=
  ∃ init, .exit ∉ init ∧ (es = init ∨ es = init ++ [.exit])

theorem exitLast_of_notMem (h : .exit ∉ es) : ExitLast es := ⟨es, h, Or.inl rfl⟩

theorem ExitLast.append {fs : List WorkerEffect} (h : .exit ∉ es) (hfs : ExitLast fs) :
    ExitLast (es ++ fs) := by
  obtain ⟨init, hinit, heq⟩ := hfs
  refine ⟨es ++ init, by simp [h, hinit], ?_⟩
  rcases heq with rfl | rfl
  · exact Or.inl rfl
  · exact Or.inr (List.append_assoc _ _ _).symm

theorem exitLast_sendMsg (w : Worker) (vc : VClock) (dst : SockAddr) (m : TxMessage) :
    ExitLast (w.sendMsg vc dst m) := by
  simp only [sendMsg]
  split
  · exact ⟨_, by simp, Or.inr (List.dropLast_append_getLast (by simp)).symm⟩
  · split
    · exact ⟨_, by simp, Or.inr (List.dropLast_append_getLast (by simp)).symm⟩
    · exact exitLast_of_notMem (by simp)

/-- `sendMsg` returns unless the delay is negative. -/
theorem sendMsg_of_not_neg (h : ¬ w.mem.delay < 0) (vc : VClock) (dst : SockAddr) (m : TxMessage) :
    w.sendMsg vc dst m = [.send dst m] := by
  have hne : w.mem.delay ≠ -1000 := by omega
  simp only [sendMsg, hne, h, if_false]

theorem exit_mem_sendMsg (h : w.mem.delay < 0) (vc : VClock) (dst : SockAddr) (m : TxMessage) :
    .exit ∈ w.sendMsg vc dst m := by
  simp only [sendMsg, h, if_true]
  split <;> simp

/-- A handler that the worker survives and that sends has found no negative delay. -/
theorem not_delay_neg {es : List WorkerEffect} {vc : VClock} {dst : SockAddr} {m : TxMessage}
    (hexit : .exit ∉ es) (hsub : w.sendMsg vc dst m ⊆ es) : ¬ w.mem.delay < 0 :=
  fun hdelay => hexit (hsub (exit_mem_sendMsg hdelay vc dst m))

theorem exit_notMem_rollback {tid : Tid} : .exit ∉ w.rollback tid :=
  fun h => absurd (mem_rollback h) (by simp [WorkerEffect.isRestore])

theorem exitLast_handleBeginJoin (w : Worker) (c : MsgType) (toIP : Option ℕ) :
    ExitLast (w.handleBeginJoin c toIP) := by
  cases toIP with
  | none => exact ⟨[], by simp, Or.inr rfl⟩
  | some addr => exact ExitLast.append (by simp) (exitLast_sendMsg _ _ _ _)

theorem exitLast_handleCmdMsg (w : Worker) (c : MsgType) (calls : CmdCalls) :
    ExitLast (w.handleCmdMsg c calls) := by
  unfold handleCmdMsg
  split
  · exact exitLast_handleBeginJoin w c _
  · exact exitLast_handleBeginJoin w c _
  · exact exitLast_of_notMem (by simp [handleNewA, updateObject])
  · exact exitLast_of_notMem (by simp [handleNewB, updateObject])
  · exact exitLast_of_notMem (by simp [handleNewIdStr, updateObject])
  · exact exitLast_of_notMem (by simp)
  · exact ⟨w.handleCrash.dropLast, by simp [handleCrash], Or.inr rfl⟩
  · exact ExitLast.append (by simp) (exitLast_sendMsg _ _ _ _)
  · exact ExitLast.append (by simp) (exitLast_sendMsg _ _ _ _)
  · exact exitLast_of_notMem (by simp [handleAbort, exit_notMem_rollback])
  · exact exitLast_of_notMem (by simp [handleAbort, exit_notMem_rollback])
  · exact exitLast_of_notMem (by simp)
  · exact exitLast_of_notMem (by simp)

theorem exitLast_handlePrepareCommit (w : Worker) (src : SockAddr) (m : TxMessage) :
    ExitLast (w.handlePrepareCommit src m) := by
  simp only [handlePrepareCommit]
  -- either `sendMsg` ends the process, or it returns and the vote is logged
  by_cases hdelay : w.mem.delay < 0
  · rw [if_pos hdelay, List.append_nil]
    refine ExitLast.append ?_ (exitLast_sendMsg _ _ _ _)
    split <;> simp
  · rw [if_neg hdelay]
    refine exitLast_of_notMem ?_
    rw [sendMsg_of_not_neg hdelay]
    split <;> simp

/-- **A handler ends the process only with its last effect.** -/
theorem exitLast_handle (w : Worker) (inp : Input) : ExitLast (w.handle inp) := by
  cases inp with
  | cmd c calls => exact exitLast_handleCmdMsg w c calls
  | pollTimeout =>
      simp only [handle]
      split
      · exact ExitLast.append (by simp) (exitLast_sendMsg _ _ _ _)
      · exact exitLast_of_notMem (by simp)
  | restart =>
      simp only [handle, restart]
      split
      · exact exitLast_of_notMem (by simp)
      · exact exitLast_of_notMem (by simp [exit_notMem_rollback])
  | manager src m =>
      have hreceive : .exit ∉ w.receive src m := by simp [receive]
      simp only [handle]
      split
      · refine exitLast_of_notMem ?_
        unfold waitingForCoordResponse
        split <;> simp [hreceive, handleDecideCommit, handleDecideAbort, exit_notMem_rollback]
      · unfold handleManagerMsg
        refine ExitLast.append hreceive ?_
        split
        · exact exitLast_of_notMem (by simp)
        · exact exitLast_of_notMem (by simp)
        · exact exitLast_of_notMem (by simp [handleDecideCommit])
        · exact exitLast_handlePrepareCommit w src m
        · exact exitLast_of_notMem (by simp [handleDecideAbort, exit_notMem_rollback])
        · exact exitLast_of_notMem (by simp)

theorem ExitLast.mem_exec (h : ExitLast es) (hexit : .exit ∈ es) : (process.exec w es).mem = {} := by
  obtain ⟨init, hinit, rfl | rfl⟩ := h
  · exact absurd hexit hinit
  · simp [apply]

/-- After a step the process has ended, or the whole handler has run without ending it. -/
theorem step_cases (w : Worker) (a : Act Input) :
    (process.step w a).mem = {} ∨ (a.cut = none ∧ .exit ∉ w.handle a.input) := by
  unfold Process.step Process.performed
  cases a.cut with
  | some k =>
      refine Or.inl ?_
      simp [apply]
  | none =>
      by_cases hexit : .exit ∈ w.handle a.input
      · exact Or.inl ((exitLast_handle w a.input).mem_exec hexit)
      · exact Or.inr ⟨rfl, hexit⟩

/-! ## Actions of short runs -/

/-- A freshly started worker, with port 40. -/
def worker40 : Worker := start 40 0 1 2 "id" 0

/-- A command of the cmd program. -/
def command (msgID : MsgId) : Act Input := ⟨.cmd { msgID } ⟨0, none⟩, none⟩

/-- `NEW_A v` -/
def newA (v : ℤ) : Act Input := ⟨.cmd { msgID := .newA, newValue := v } ⟨0, none⟩, none⟩

/-- A datagram of the manager. -/
def managerMsg (msgID : MsgId) (tid : Tid) : TxMessage :=
  { msgID, tid, nodeId := 40, isCrash := false, vectorClock := emptyClock }

/-- Its delivery. -/
def deliver (msgID : MsgId) (tid : Tid) : Act Input := ⟨.manager ⟨1, 7⟩ (managerMsg msgID tid), none⟩

end Worker

end DistributedSystem.Transaction
