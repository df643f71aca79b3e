import DistributedSystem.Transaction.WorkerEffects
import DistributedSystem.Transaction.WorkerSteps

/-!
# Where a worker's messages go

A worker sends to three addresses: `toAddr`, which the last `BEGIN` or `JOIN` command has
set, the sender of the `PREPARE_COMMIT` it answers, and the address it waits on, which is
that sender or, after a restart, the saved `managerAddr`. None of them is looked up by
transaction, and `toAddr` never gets the address of the host that was named.
-/

namespace DistributedSystem.Transaction

open DistributedSystem.Library

/-- The effects on the three addresses. -/
def WorkerEffect.isAddress : WorkerEffect → Bool
  | .toAddr _ | .managerAddr _ | .control _ | .exit => true
  | _ => false

/-- Datagrams. -/
def WorkerEffect.isSend : WorkerEffect → Bool
  | .send _ _ => true
  | _ => false

namespace Worker

variable {w : Worker} {e : WorkerEffect} {inp : Input} {a : Act Input} {as : List (Act Input)}
  {m p : TxMessage} {dst src : SockAddr} {c : MsgType} {calls : CmdCalls} {t : Tid}

/-! ## The sends and the addresses of each handler -/

/-- The commands that name a manager. -/
def namesManager (c : MsgType) : Prop := c.msgID = .begintx ∨ c.msgID = .jointx

instance (c : MsgType) : Decidable (namesManager c) := inferInstanceAs (Decidable (_ ∨ _))

/-- What an input sends, and where. -/
def SendsTo (w : Worker) : Input → SockAddr → TxMessage → Prop
  | .cmd c _, dst, m =>
      namesManager c ∧ m.msgID = c.msgID ∧ dst = ⟨0, c.port % 65536⟩ ∨
        ¬ namesManager c ∧ m.msgID = .commit ∧ m.tid = w.mem.curTid ∧ dst = w.mem.toAddr
  | .manager src p, dst, m =>
      m.msgID ≠ .begintx ∧ m.msgID ≠ .jointx ∧ m.tid = p.tid ∧ dst = src
  | .pollTimeout, dst, m =>
      w.mem.control = .waiting dst ∧ m.msgID = .pollDecision ∧ m.tid = w.mem.curTid
  | .restart, _, _ => False

theorem send_mem_sendMsg {vc : VClock} {dst' : SockAddr} {m' : TxMessage}
    (h : .send dst m ∈ w.sendMsg vc dst' m') : dst = dst' ∧ m = m' := by
  rcases mem_sendMsg h with heq | hint
  · exact ⟨(WorkerEffect.send.inj heq).1, (WorkerEffect.send.inj heq).2⟩
  · cases hint

theorem send_notMem_rollback : .send dst m ∉ w.rollback t := fun h =>
  absurd (mem_rollback h) (by simp [WorkerEffect.isRestore])

theorem send_mem_handleBeginJoin (hc : namesManager c) {toIP : Option ℕ}
    (h : .send dst m ∈ w.handleBeginJoin c toIP) : w.SendsTo (.cmd c calls) dst m := by
  cases toIP with
  | none => cases List.mem_singleton.mp h
  | some addr =>
      simp only [handleBeginJoin, List.mem_append, List.mem_cons, reduceCtorEq, List.not_mem_nil,
        or_false, false_or] at h
      obtain ⟨rfl, rfl⟩ := send_mem_sendMsg h
      exact Or.inl ⟨hc, rfl, rfl⟩

theorem send_mem_handleCommit (hc : ¬ namesManager c)
    (h : .send dst m ∈ w.handleCommit c) : w.SendsTo (.cmd c calls) dst m := by
  simp only [handleCommit, List.mem_append, List.mem_cons, reduceCtorEq, List.not_mem_nil,
    or_false, false_or] at h
  obtain ⟨rfl, rfl⟩ := send_mem_sendMsg h
  exact Or.inr ⟨hc, rfl, rfl, rfl⟩

theorem send_mem_handlePrepareCommit (h : .send dst m ∈ w.handlePrepareCommit src p) :
    w.SendsTo (.manager src p) dst m := by
  simp only [handlePrepareCommit, List.mem_append, List.mem_cons, reduceCtorEq, List.not_mem_nil,
    or_false, false_or] at h
  rcases h with (h | h) | h
  · split at h <;> simp at h
  · obtain ⟨rfl, rfl⟩ := send_mem_sendMsg h
    have hballot : w.voteFor p ≠ .begintx ∧ w.voteFor p ≠ .jointx := by
      unfold voteFor
      split <;> simp
    exact ⟨hballot.1, hballot.2, rfl, rfl⟩
  · split at h <;> simp at h

/-- **The law of the sends.** -/
theorem send_mem_handle (h : .send dst m ∈ w.handle inp) : w.SendsTo inp dst m := by
  have hreceive : ∀ src' p', .send dst m ∉ w.receive src' p' := by simp [receive]
  cases inp with
  | cmd c calls =>
      simp only [handle] at h
      unfold handleCmdMsg at h
      split at h
      · exact send_mem_handleBeginJoin (Or.inl ‹_›) h
      · exact send_mem_handleBeginJoin (Or.inr ‹_›) h
      · simp [handleNewA, updateObject] at h
      · simp [handleNewB, updateObject] at h
      · simp [handleNewIdStr, updateObject] at h
      · simp at h
      · simp [handleCrash] at h
      · exact send_mem_handleCommit (by simp [namesManager, *]) h
      · exact send_mem_handleCommit (by simp [namesManager, *]) h
      · simp [handleAbort, send_notMem_rollback] at h
      · simp [handleAbort, send_notMem_rollback] at h
      · simp at h
      · simp at h
  | manager src p =>
      simp only [handle] at h
      split at h
      · -- no message is answered in a wait
        unfold waitingForCoordResponse at h
        split at h <;>
          simp [hreceive, handleDecideCommit, handleDecideAbort, send_notMem_rollback] at h
      · unfold handleManagerMsg at h
        split at h
        · simp [hreceive] at h
        · simp [hreceive] at h
        · simp [hreceive, handleDecideCommit] at h
        · exact send_mem_handlePrepareCommit ((List.mem_append.mp h).resolve_left (hreceive _ _))
        · simp [hreceive, handleDecideAbort, send_notMem_rollback] at h
        · simp [hreceive] at h
  | pollTimeout =>
      simp only [handle] at h
      split at h
      · rename_i addr hcontrol
        simp only [pollDecision, List.mem_append, List.mem_cons, reduceCtorEq, List.not_mem_nil,
          or_false, false_or] at h
        obtain ⟨rfl, rfl⟩ := send_mem_sendMsg h
        exact ⟨hcontrol, rfl, rfl⟩
      · simp at h
  | restart =>
      simp only [handle, restart] at h
      split at h <;> simp [send_notMem_rollback] at h

/-! ## The addresses after a handler -/

/-- The three addresses: `toAddr`, the saved one, and where the worker waits. -/
def addresses (w : Worker) : SockAddr × SockAddr × Control :=
  (w.mem.toAddr, w.crashInfo.managerAddr, w.mem.control)

theorem addresses_apply (h : e.isAddress = false) : (w.apply e).addresses = w.addresses := by
  cases e with
  | objClock i => simp only [apply]; split <;> rfl
  | toAddr _ | managerAddr _ | control _ | exit => cases h
  | _ => rfl

theorem addresses_exec {es : List WorkerEffect} (h : ∀ e ∈ es, e.isAddress = false) :
    (process.exec w es).addresses = w.addresses :=
  Process.exec_unchanged addresses fun _ e he => addresses_apply (h e he)

theorem isAddress_of_mem_rollback (h : e ∈ w.rollback t) : e.isAddress = false := by
  have hrestore := mem_rollback h
  cases e <;> first | rfl | cases hrestore

theorem isAddress_of_mem_updateObject {undo : Record} {write : WorkerEffect} {stampClock : Bool}
    {now : Timeval} (hwrite : write.isAddress = false)
    (h : e ∈ w.updateObject undo write stampClock now) : e.isAddress = false := by
  simp only [updateObject, List.mem_append, List.mem_cons, List.not_mem_nil, or_false] at h
  rcases h with (h | rfl | rfl | rfl | rfl | rfl) | h
  · split at h
    · rw [List.mem_singleton.mp h]
      rfl
    · simp at h
  · exact hwrite
  · rfl
  · rfl
  · rfl
  · rfl
  · split at h
    · rw [List.mem_singleton.mp h]
      rfl
    · simp at h

theorem isAddress_of_mem_handleAbort (h : e ∈ w.handleAbort c) : e.isAddress = false := by
  simp only [handleAbort, List.mem_append, List.mem_cons, List.not_mem_nil, or_false] at h
  rcases h with (rfl | h) | rfl | rfl | rfl | rfl
  · rfl
  · exact isAddress_of_mem_rollback h
  all_goals rfl

theorem isAddress_of_mem_handleCommit (hexit : .exit ∉ w.handleCommit c)
    (h : e ∈ w.handleCommit c) : e.isAddress = false := by
  have hdelay := not_delay_neg hexit (List.subset_append_right _ _)
  rw [handleCommit, sendMsg_of_not_neg hdelay] at h
  simp only [List.mem_append, List.mem_cons, List.not_mem_nil, or_false] at h
  rcases h with (rfl | rfl | rfl | rfl | rfl) | rfl <;> rfl

theorem handleCmdMsg_of_namesManager (hc : namesManager c) (calls : CmdCalls) :
    w.handleCmdMsg c calls = w.handleBeginJoin c calls.gethostbyname := by
  unfold handleCmdMsg
  rcases hc with hc | hc <;> rw [hc]

/-- A `BEGIN` or `JOIN` that the worker survives names a host that is found, and is sent. -/
theorem handleBeginJoin_of_survived {toIP : Option ℕ} (hexit : .exit ∉ w.handleBeginJoin c toIP) :
    w.handleBeginJoin c toIP =
      [.toAddr ⟨0, c.port % 65536⟩, .clock (tick w.nodeId w.mem.myVectorClock), .saveVectorTime,
        .shiviz (.message c.msgID c.tid true (c.port % 65536)),
        .send ⟨0, c.port % 65536⟩
          (w.constructMessage c.msgID c.tid (tick w.nodeId w.mem.myVectorClock))] := by
  cases toIP with
  | none => exact absurd (List.mem_singleton.mpr rfl) hexit
  | some addr =>
      have hdelay := not_delay_neg hexit (List.subset_append_right _ _)
      rw [handleBeginJoin, sendMsg_of_not_neg hdelay]
      rfl

/-- A command that the worker survives sets `toAddr` when it names a manager, and nothing
    else. -/
theorem addresses_cmd (hexit : .exit ∉ w.handleCmdMsg c calls) :
    (process.exec w (w.handleCmdMsg c calls)).addresses =
      (if namesManager c then ⟨0, c.port % 65536⟩ else w.mem.toAddr, w.crashInfo.managerAddr,
        w.mem.control) := by
  by_cases hc : namesManager c
  · rw [handleCmdMsg_of_namesManager hc] at hexit ⊢
    rw [if_pos hc, handleBeginJoin_of_survived hexit]
    rfl
  · rw [if_neg hc]
    refine addresses_exec fun e he => ?_
    unfold handleCmdMsg at he
    split at he
    · exact absurd (Or.inl ‹_›) hc
    · exact absurd (Or.inr ‹_›) hc
    · exact isAddress_of_mem_updateObject rfl he
    · exact isAddress_of_mem_updateObject rfl he
    · exact isAddress_of_mem_updateObject rfl he
    · rw [List.mem_singleton.mp he]
      rfl
    · -- `CRASH` is not survived
      rename_i hk
      exact absurd (by simp [handleCmdMsg, hk, handleCrash]) hexit
    · rename_i hk
      exact isAddress_of_mem_handleCommit (by simpa [handleCmdMsg, hk] using hexit) he
    · rename_i hk
      exact isAddress_of_mem_handleCommit (by simpa [handleCmdMsg, hk] using hexit) he
    · exact isAddress_of_mem_handleAbort he
    · exact isAddress_of_mem_handleAbort he
    · rw [List.mem_singleton.mp he]
      rfl
    · simp at he

theorem toAddr_exec {es : List WorkerEffect} (h : ∀ a, .toAddr a ∉ es) (hexit : .exit ∉ es) :
    (process.exec w es).mem.toAddr = w.mem.toAddr := by
  refine Process.exec_unchanged (fun w : Worker => w.mem.toAddr) fun w e he => ?_
  cases e with
  | objClock i => simp only [process_apply, apply]; split <;> rfl
  | toAddr a => exact absurd he (h a)
  | exit => exact absurd he hexit
  | _ => rfl

theorem control_exec {es : List WorkerEffect} (h : ∀ c, .control c ∉ es) (hexit : .exit ∉ es) :
    (process.exec w es).mem.control = w.mem.control := by
  refine Process.exec_unchanged (fun w : Worker => w.mem.control) fun w e he => ?_
  rw [process_apply, control_apply]
  cases e with
  | control c => exact absurd he (h c)
  | exit => exact absurd he hexit
  | _ => rfl

theorem toAddr_notMem_manager (a : SockAddr) : .toAddr a ∉ w.handle (.manager src m) := by
  have hreceive : .toAddr a ∉ w.receive src m := by simp [receive]
  have hrollback : ∀ t, .toAddr a ∉ w.rollback t := fun t h =>
    absurd (mem_rollback h) (by simp [WorkerEffect.isRestore])
  have hsend : ∀ vc dst m, .toAddr a ∉ w.sendMsg vc dst m := by
    intro vc dst m
    unfold sendMsg
    split
    · simp
    · split <;> simp
  simp only [handle]
  split
  · unfold waitingForCoordResponse
    split <;> simp [hreceive, handleDecideCommit, handleDecideAbort, hrollback]
  · unfold handleManagerMsg
    split
    · simp [hreceive]
    · simp [hreceive]
    · simp [hreceive, handleDecideCommit]
    · simp only [handlePrepareCommit]
      split <;> split <;> simp [hreceive, hsend]
    · simp [hreceive, handleDecideAbort, hrollback]
    · simp [hreceive]

/-- After a datagram the worker is in its command loop, or waits on the address of the
    `PREPARE_COMMIT` it has just voted on. -/
theorem control_manager (hup : w.mem.control ≠ .down) (hexit : .exit ∉ w.handle (.manager src m)) :
    (process.exec w (w.handle (.manager src m))).mem.control = .cmdLoop ∨
      (process.exec w (w.handle (.manager src m))).mem.control = .waiting src ∧
        m.msgID = .prepareCommit ∧
        ∃ vote, .send src vote ∈ w.handle (.manager src m) ∧ w.SendsTo (.manager src m) src vote := by
  have hreceive : ∀ c, .control c ∉ w.receive src m := by simp [receive]
  have hrollback : ∀ t c, .control c ∉ w.rollback t := fun t c h =>
    absurd (mem_rollback h) (by simp [WorkerEffect.isRestore])
  simp only [handle] at hexit ⊢
  split
  · exact Or.inl (by simp [waitingForCoordResponse, apply, withMem])
  · rename_i hcontrol
    simp only at hexit
    by_cases hk : m.msgID = .prepareCommit
    · have hlist : w.handleManagerMsg src m = w.receive src m ++ w.handlePrepareCommit src m := by
        simp only [handleManagerMsg, hk]
      rw [hlist] at hexit ⊢
      have hdelay : ¬ w.mem.delay < 0 := by
        intro hdelay
        refine hexit (List.mem_append_right _ ?_)
        simp only [handlePrepareCommit, List.mem_append]
        exact Or.inl (Or.inr (exit_mem_sendMsg hdelay _ _ _))
      have hvote : .send src (w.constructTxMessage (w.voteFor m) m.tid m.nodeId
          (tick w.nodeId (w.receivedClock m))) ∈ w.handlePrepareCommit src m := by
        rw [handlePrepareCommit, sendMsg_of_not_neg hdelay]
        exact List.mem_append_left _ (List.mem_append_right _ List.mem_cons_self)
      refine Or.inr ⟨?_, hk, _, List.mem_append_right _ hvote, send_mem_handlePrepareCommit hvote⟩
      rw [handlePrepareCommit, if_neg hdelay, Process.exec_append, Process.exec_append]
      rfl
    · -- no other datagram changes where the worker waits
      have hkept : (process.exec w (w.handleManagerMsg src m)).mem.control = w.mem.control := by
        refine control_exec (fun c => ?_) hexit
        unfold handleManagerMsg
        split
        · simp [hreceive]
        · simp [hreceive]
        · simp [hreceive, handleDecideCommit]
        · exact absurd ‹_› hk
        · simp [hreceive, handleDecideAbort, hrollback]
        · simp [hreceive]
      rw [hkept]
      cases hw : w.mem.control with
      | down => exact absurd hw hup
      | cmdLoop => exact Or.inl rfl
      | waiting addr => exact absurd hw (hcontrol addr)

theorem addresses_poll (hexit : .exit ∉ w.handle .pollTimeout) :
    (process.exec w (w.handle .pollTimeout)).addresses = w.addresses := by
  refine addresses_exec fun e he => ?_
  simp only [handle] at he hexit
  split at he
  · rename_i addr hcontrol
    rw [hcontrol] at hexit
    have hdelay := not_delay_neg hexit (List.subset_append_right _ _)
    rw [pollDecision, sendMsg_of_not_neg hdelay] at he
    simp only [List.mem_append, List.mem_cons, List.not_mem_nil, or_false] at he
    rcases he with (rfl | rfl | rfl | rfl) | rfl <;> rfl
  · simp at he

theorem addresses_restart :
    (process.exec w w.restart).mem.toAddr = w.mem.toAddr ∧
      (process.exec w w.restart).crashInfo.managerAddr = w.crashInfo.managerAddr ∧
      ((process.exec w w.restart).mem.control = .cmdLoop ∨
        (process.exec w w.restart).mem.control = .waiting w.crashInfo.managerAddr) := by
  unfold restart
  split
  · exact ⟨rfl, rfl, Or.inr rfl⟩
  · -- the worker aborts and goes to its command loop
    have hrollback : ∀ w' : Worker, (process.exec w' (w.rollback w.recoveredTid)).addresses =
        w'.addresses := fun w' => addresses_exec fun e he => isAddress_of_mem_rollback he
    simp only [Process.exec_append]
    exact ⟨congrArg Prod.fst (hrollback _), congrArg (fun x => x.2.1) (hrollback _), Or.inl rfl⟩

/-! ## What has happened to a worker -/

/-- The address of the manager that a command names, if name resolution finds it. -/
def named (c : MsgType) (calls : CmdCalls) : Option SockAddr :=
  calls.gethostbyname.map (⟨·, c.port⟩)

/-- What a worker has been told: which manager's `JOIN_SUCCESS` made a transaction current, the
    manager that the last `BEGIN` or `JOIN` since the last start named, and the transaction whose
    `PREPARE_COMMIT` began the last wait, if it was not begun by a restart. -/
structure RouteHistory where
  joined : Tid → Option SockAddr := fun _ => none
  target : Option SockAddr := none
  voted : Option Tid := none

/-- One action; what a crash prevents has not happened. -/
def RouteHistory.record (w : Worker) (a : Act Input) (h : RouteHistory) : RouteHistory where
  joined t := match a.input with
    | .manager src _ => if .joined t ∈ process.performed w a then some src else h.joined t
    | _ => h.joined t
  target :=
    if (process.step w a).mem.control = .down then none
    else match a.input with
      | .cmd c calls => if namesManager c then named c calls else h.target
      | _ => h.target
  voted := match a.input with
    | .manager _ m => some m.tid
    | .restart => none
    | _ => h.voted

/-- The worker with its history. -/
def watched : Machine (Worker × RouteHistory) (Act Input) := process.machine.watch RouteHistory.record

/-- The place a message belongs: the manager that the `BEGIN` or `JOIN` command names, for
    everything else the manager whose `JOIN_SUCCESS` made the transaction current. -/
def Right (x : Worker × RouteHistory) (inp : Input) (dst : SockAddr) (m : TxMessage) : Prop :=
  if m.msgID = .begintx ∨ m.msgID = .jointx then
    ∃ c calls, inp = .cmd c calls ∧ named c calls = some dst
  else x.2.joined m.tid = some dst

/-- Every message of an action goes where it belongs. -/
def Routed (x : Worker × RouteHistory) (a : Act Input) : Prop :=
  ∀ dst m, .send dst m ∈ process.performed x.1 a → Right x a.input dst m

/-- An input with which that happens: a `BEGIN` or `JOIN` that names a host with the address 0
    and a 16-bit port; a `COMMIT` of a transaction whose manager is the one that was last named
    since the last start (0 before any was); a `PREPARE_COMMIT` from the transaction's manager;
    a poll for a transaction with the manager of the one that was voted on or, when the wait
    goes back to a restart, with the manager saved last. -/
def Leads (x : Worker × RouteHistory) : Input → Prop
  | .cmd c calls =>
      if namesManager c then calls.gethostbyname = some 0 ∧ c.port < 65536
      else x.2.joined x.1.mem.curTid = some (x.2.target.getD ⟨0, 0⟩)
  | .manager src m => x.2.joined m.tid = some src
  | .pollTimeout => x.2.joined x.1.mem.curTid =
      match x.2.voted with
      | some t => x.2.joined t
      | none => some x.1.crashInfo.managerAddr
  | .restart => True

/-- An action that sends something has such an input. -/
def Guided (x : Worker × RouteHistory) (a : Act Input) : Prop :=
  (∃ dst m, .send dst m ∈ process.performed x.1 a) → Leads x a.input

instance (es : List WorkerEffect) : Decidable (∃ dst m, .send dst m ∈ es) :=
  decidable_of_iff (es.any WorkerEffect.isSend = true) <| by
    rw [List.any_eq_true]
    constructor
    · rintro ⟨e, he, hsend⟩
      cases e with
      | send dst m => exact ⟨dst, m, he⟩
      | _ => cases hsend
    · rintro ⟨dst, m, hsend⟩
      exact ⟨_, hsend, rfl⟩

instance (x : Worker × RouteHistory) : ∀ inp, Decidable (Leads x inp)
  | .cmd _ _ => inferInstanceAs (Decidable (ite _ _ _))
  | .manager _ _ | .pollTimeout => inferInstanceAs (Decidable (_ = _))
  | .restart => isTrue trivial

instance (x : Worker × RouteHistory) (a : Act Input) : Decidable (Guided x a) :=
  inferInstanceAs (Decidable (_ → _))

/-- Where the worker would send now, from its history. -/
structure Placed (x : Worker × RouteHistory) : Prop where
  target : x.1.mem.toAddr = x.2.target.getD ⟨0, 0⟩
  waiting : ∀ addr, x.1.mem.control = .waiting addr →
    match x.2.voted with
    | some t => x.2.joined t = some addr
    | none => addr = x.1.crashInfo.managerAddr

variable {x : Worker × RouteHistory}

theorem send_mem_performed (h : .send dst m ∈ process.performed w a) : w.SendsTo a.input dst m := by
  rcases Process.mem_performed h with h | h
  · exact send_mem_handle h
  · cases h

theorem named_eq_iff : named c calls = some ⟨0, c.port % 65536⟩ ↔
    calls.gethostbyname = some 0 ∧ c.port < 65536 := by
  have hport : c.port = c.port % 65536 ↔ c.port < 65536 := by omega
  simp only [named, Option.map_eq_some_iff, SockAddr.mk.injEq, hport]
  constructor
  · rintro ⟨addr, haddr, rfl, hlt⟩
    exact ⟨haddr, hlt⟩
  · rintro ⟨haddr, hlt⟩
    exact ⟨0, haddr, rfl, hlt⟩

theorem right_iff_leads (h : Placed x) (hto : x.1.SendsTo inp dst m) :
    Right x inp dst m ↔ Leads x inp := by
  cases inp with
  | cmd c calls =>
      rcases hto with ⟨hc, hid, rfl⟩ | ⟨hc, hid, htid, rfl⟩
      · have hbegin : m.msgID = .begintx ∨ m.msgID = .jointx := hid ▸ hc
        simp only [Right, Leads, if_pos hc, if_pos hbegin, ← named_eq_iff]
        constructor
        · rintro ⟨c', calls', heq, hdst⟩
          cases heq
          exact hdst
        · intro hdst
          exact ⟨c, calls, rfl, hdst⟩
      · simp only [Right, Leads, if_neg hc, hid, htid, ← h.target, reduceCtorEq, or_self, if_false]
  | manager src p =>
      obtain ⟨hbegin, hjoin, htid, rfl⟩ := hto
      simp only [Right, Leads, hbegin, hjoin, or_self, if_false, htid]
  | pollTimeout =>
      obtain ⟨hcontrol, hid, htid⟩ := hto
      have hwaiting := h.waiting dst hcontrol
      simp only [Right, Leads, hid, htid, reduceCtorEq, or_self, if_false]
      cases hvoted : x.2.voted with
      | some t =>
          rw [hvoted] at hwaiting
          simp only [hwaiting]
      | none =>
          rw [hvoted] at hwaiting
          simp only [hwaiting]
  | restart => exact hto.elim

theorem routed_iff_guided (h : Placed x) : Routed x a ↔ Guided x a := by
  constructor
  · rintro hrouted ⟨dst, m, hsend⟩
    exact (right_iff_leads h (send_mem_performed hsend)).mp (hrouted dst m hsend)
  · intro hguided dst m hsend
    exact (right_iff_leads h (send_mem_performed hsend)).mpr (hguided ⟨dst, m, hsend⟩)

section Survived

variable {hist : RouteHistory} {now : Timeval}

theorem Placed.cmd (h : Placed (w, hist)) (hacc : w.mem.control = .cmdLoop)
    (hexit : .exit ∉ w.handleCmdMsg c calls) (hrouted : Routed (w, hist) ⟨.cmd c calls, none⟩) :
    Placed (process.step w ⟨.cmd c calls, none⟩, RouteHistory.record w ⟨.cmd c calls, none⟩ hist) := by
  have haddr := addresses_cmd hexit
  have htoAddr := congrArg Prod.fst haddr
  have hcontrol := (congrArg (fun x => x.2.2) haddr).trans hacc
  change (process.step w ⟨.cmd c calls, none⟩).mem.toAddr = _ at htoAddr
  change (process.step w ⟨.cmd c calls, none⟩).mem.control = _ at hcontrol
  refine ⟨?_, fun addr hwait => absurd (hcontrol.symm.trans hwait) (by simp)⟩
  have hup : ¬ (process.step w ⟨.cmd c calls, none⟩).mem.control = .down := by
    rw [hcontrol]
    simp
  simp only [htoAddr, RouteHistory.record, if_neg hup]
  by_cases hc : namesManager c
  · -- the command has been sent to `toAddr`
    have hsend : .send ⟨0, c.port % 65536⟩ (w.constructMessage c.msgID c.tid
        (tick w.nodeId w.mem.myVectorClock)) ∈ process.performed w ⟨.cmd c calls, none⟩ := by
      rw [handleCmdMsg_of_namesManager hc] at hexit
      show _ ∈ w.handleCmdMsg c calls
      rw [handleCmdMsg_of_namesManager hc, handleBeginJoin_of_survived hexit]
      simp
    have hleads := (right_iff_leads h (send_mem_performed hsend)).mp (hrouted _ _ hsend)
    simp only [Leads, if_pos hc] at hleads
    rw [if_pos hc, if_pos hc]
    rw [named_eq_iff.mpr hleads]
    rfl
  · rw [if_neg hc, if_neg hc]
    exact h.target

theorem Placed.manager (h : Placed (w, hist)) (hacc : w.mem.control ≠ .down)
    (hexit : .exit ∉ w.handle (.manager src m))
    (hrouted : Routed (w, hist) ⟨.manager src m, none⟩) :
    Placed (process.step w ⟨.manager src m, none⟩,
      RouteHistory.record w ⟨.manager src m, none⟩ hist) := by
  have htoAddr : (process.step w ⟨.manager src m, none⟩).mem.toAddr = w.mem.toAddr :=
    toAddr_exec toAddr_notMem_manager hexit
  have hcontrol := control_manager hacc hexit
  change (process.step w ⟨.manager src m, none⟩).mem.control = _ ∨
    (process.step w ⟨.manager src m, none⟩).mem.control = _ ∧ _ at hcontrol
  have hup : ¬ (process.step w ⟨.manager src m, none⟩).mem.control = .down := by
    rcases hcontrol with hcontrol | ⟨hcontrol, -⟩ <;> simp [hcontrol]
  refine ⟨?_, fun addr hwait => ?_⟩
  · simp only [htoAddr, RouteHistory.record, if_neg hup]
    exact h.target
  · rcases hcontrol with hcontrol | ⟨hcontrol, hk, vote, hsend, hto⟩
    · exact absurd (hcontrol.symm.trans hwait) (by simp)
    · -- the vote has gone to the manager of its transaction
      obtain rfl := Control.waiting.inj (hcontrol.symm.trans hwait)
      have hmanager := (right_iff_leads h hto).mp (hrouted _ _ hsend)
      simp only [RouteHistory.record]
      split
      · rfl
      · exact hmanager

theorem Placed.poll (h : Placed (w, hist)) (hacc : w.accepts .pollTimeout)
    (hexit : .exit ∉ w.handle .pollTimeout) :
    Placed (process.step w ⟨.pollTimeout, none⟩,
      RouteHistory.record w ⟨.pollTimeout, none⟩ hist) := by
  have haddr := addresses_poll hexit
  have htoAddr := congrArg Prod.fst haddr
  have hsaved := congrArg (fun x => x.2.1) haddr
  have hcontrol := congrArg (fun x => x.2.2) haddr
  change (process.step w ⟨.pollTimeout, none⟩).mem.toAddr = w.mem.toAddr at htoAddr
  change (process.step w ⟨.pollTimeout, none⟩).crashInfo.managerAddr = w.crashInfo.managerAddr
    at hsaved
  change (process.step w ⟨.pollTimeout, none⟩).mem.control = w.mem.control at hcontrol
  refine ⟨?_, fun addr hwait => ?_⟩
  · simp only [htoAddr, RouteHistory.record, hcontrol, if_neg hacc.1]
    exact h.target
  · have hwaiting := h.waiting addr (hcontrol ▸ hwait)
    simp only [RouteHistory.record, hsaved]
    exact hwaiting

theorem Placed.restart (h : Placed (w, hist)) :
    Placed (process.step w ⟨.restart, none⟩, RouteHistory.record w ⟨.restart, none⟩ hist) := by
  obtain ⟨htoAddr, hsaved, hcontrol⟩ := addresses_restart (w := w)
  change (process.step w ⟨.restart, none⟩).mem.toAddr = _ at htoAddr
  change (process.step w ⟨.restart, none⟩).crashInfo.managerAddr = _ at hsaved
  change (process.step w ⟨.restart, none⟩).mem.control = _ ∨
    (process.step w ⟨.restart, none⟩).mem.control = _ at hcontrol
  have hup : ¬ (process.step w ⟨.restart, none⟩).mem.control = .down := by
    rcases hcontrol with hcontrol | hcontrol <;> simp [hcontrol]
  refine ⟨?_, fun addr hwait => ?_⟩
  · simp only [htoAddr, RouteHistory.record, if_neg hup]
    exact h.target
  · rcases hcontrol with hcontrol | hcontrol
    · exact absurd (hcontrol.symm.trans hwait) (by simp)
    · show addr = (process.step w ⟨.restart, none⟩).crashInfo.managerAddr
      rw [hsaved]
      exact (Control.waiting.inj (hcontrol.symm.trans hwait)).symm

end Survived

/-- A step with all messages at the right place keeps track of the next ones. -/
theorem Placed.step (h : Placed x) (hacc : x.1.accepts a.input)
    (hrouted : Routed x a) : Placed (watched.next x a) := by
  obtain ⟨w, hist⟩ := x
  obtain ⟨inp, cut⟩ := a
  show Placed (process.step w ⟨inp, cut⟩, RouteHistory.record w ⟨inp, cut⟩ hist)
  rcases step_cases w ⟨inp, cut⟩ with hdead | ⟨rfl, hexit⟩
  · -- a process that has ended sends nowhere
    refine ⟨?_, fun addr hcontrol => ?_⟩
    · simp [RouteHistory.record, hdead]
    · simp [hdead] at hcontrol
  · change .exit ∉ w.handle inp at hexit
    change w.accepts inp at hacc
    cases inp with
    | cmd c calls => exact h.cmd hacc hexit hrouted
    | manager src m => exact h.manager hacc hexit hrouted
    | pollTimeout => exact h.poll hacc hexit
    | restart => exact h.restart

theorem placed_start (nodeId : NodeId) (sys_port : ℕ) (A B : ℤ)
    (IDstring : String) (now : Timeval) :
    Placed (start nodeId sys_port A B IDstring now, {}) :=
  ⟨rfl, fun addr hwait => by simp [start] at hwait⟩

/-- **Messages go to the right manager** in exactly the runs in which every action that sends
    something is guided: while each `BEGIN` or `JOIN` has named a host with the address 0. -/
theorem routed_iff (nodeId : NodeId) (sys_port : ℕ) (A B : ℤ)
    (IDstring : String) (now : Timeval) (as : List (Act Input))
    (hrun : process.machine.Along process.machine.enabled
      (start nodeId sys_port A B IDstring now) as) :
    watched.Along Routed (start nodeId sys_port A B IDstring now, {}) as ↔
      watched.Along Guided (start nodeId sys_port A B IDstring now, {}) as := by
  refine Machine.along_congr_of_invariant (Machine.along_watch.mpr hrun)
    (placed_start nodeId sys_port A B IDstring now)
    (fun x a h _ => routed_iff_guided h) fun x a h hacc hrouted => h.step hacc hrouted

/-! ### Short runs -/

/-- Name resolution for a local setup. -/
def localNames (host : String) : Option ℕ :=
  if host = "0.0.0.0" then some 0 else if host = "localhost" then some 2130706433 else none

/-- A `BEGIN` or `JOIN` of transaction 1 with a manager on port 7. -/
def toManager (msgID : MsgId) (host : String) : Act Input :=
  ⟨.cmd { msgID, tid := 1, port := 7, strData := host } ⟨0, localNames host⟩, none⟩

/-- A datagram from the address 0. -/
def fromManager (msgID : MsgId) : Act Input := ⟨.manager ⟨0, 7⟩ (managerMsg msgID 1), none⟩

/-- A transaction with a vote, a poll, a crash and another poll. -/
def guidedRun : List (Act Input) :=
  [toManager .begintx "0.0.0.0", fromManager .beginSuccess, toManager .jointx "0.0.0.0",
    fromManager .joinSuccess, newA 5, command .commit, fromManager .prepareCommit,
    ⟨.pollTimeout, none⟩, ⟨.pollTimeout, some 2⟩, ⟨.restart, none⟩, ⟨.pollTimeout, none⟩]

theorem routed_iff_local : watched.Along Routed (worker40, {}) guidedRun :=
  (routed_iff 40 0 1 2 "id" 0 guidedRun (by decide +kernel)).mpr (by decide +kernel)

/-- A `JOIN` that names a host goes to the address 0. -/
theorem not_routed :
    ¬ ∀ as : List (Act Input), process.machine.Along process.machine.enabled worker40 as →
      watched.Along Routed (worker40, {}) as := by
  intro h
  have hrouted := (h [toManager .jointx "localhost"] (by decide +kernel)).1
  have hsend : .send ⟨0, 7⟩ (worker40.constructMessage .jointx 1 (tick 40 (startClock 40))) ∈
      process.performed worker40 (toManager .jointx "localhost") := by decide +kernel
  have hleads := (right_iff_leads (placed_start 40 0 1 2 "id" 0)
    (send_mem_performed hsend)).mp (hrouted _ _ hsend)
  exact absurd hleads (by decide +kernel)

end Worker

end DistributedSystem.Transaction
