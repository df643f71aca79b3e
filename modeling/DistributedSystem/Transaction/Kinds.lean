import DistributedSystem.Transaction.Causality

/-!
# The kinds on the net and in the logs

The workers send six kinds of messages and the manager seven, and neither answers a message
of any other kind by sending it on. So the lines of the ShiViz logs are about these kinds,
whatever the cmd program asks for and wherever a node crashes.
-/

namespace DistributedSystem.Transaction

open DistributedSystem.Library

/-- What the workers send. -/
def workerKinds : List MsgId :=
  [.begintx, .jointx, .commit, .voteAbort, .voteCommit, .pollDecision]

/-- What the manager sends. -/
def managerKinds : List MsgId :=
  [.joinFail, .joinSuccess, .beginFail, .beginSuccess, .prepareCommit, .decideAbort, .decideCommit]

/-- The local events of a worker. -/
def workerLocals : List MsgId := [.newA, .newB, .newIdStr, .abort, .abortCrash, .crash, .restarted]

/-- The local events of the manager. -/
def managerLocals : List MsgId := [.crash, .restarted]

/-- An observation of a node that sends `kinds` and has the local events `locals`, while it
    handles something received as one of `received`. -/
def Obs.OfKinds (kinds locals received : List MsgId) : Obs → Prop
  | .event .start => False
  | .event (.localEvent k) => k ∈ locals
  | .event (.message k _ isSend _) => k ∈ if isSend then kinds else received
  | .send m => m.msgID ∈ kinds
  | _ => True

/-- All observations are of these kinds. -/
def OfKinds (kinds locals received : List MsgId) (os : List Obs) : Prop :=
  ∀ o ∈ os, o.OfKinds kinds locals received

variable {kinds locals received received' : List MsgId} {os os' : List Obs} {o : Obs}

@[simp] theorem ofKinds_nil : OfKinds kinds locals received [] := by simp [OfKinds]

@[simp] theorem ofKinds_cons : OfKinds kinds locals received (o :: os) ↔
    o.OfKinds kinds locals received ∧ OfKinds kinds locals received os := List.forall_mem_cons

@[simp] theorem ofKinds_append : OfKinds kinds locals received (os ++ os') ↔
    OfKinds kinds locals received os ∧ OfKinds kinds locals received os' := List.forall_mem_append

theorem ofKinds_of_other (h : ∀ o ∈ os, o = .other) : OfKinds kinds locals received os := by
  intro o ho
  rw [h o ho]
  trivial

/-! ## The manager -/

namespace Manager

variable {s : Manager} {m : TxMessage} {k : MsgId}

theorem kinds_sendLoop {port : NodeId} {n : NodeId} {vc : VClock} {ws : List (Tid × W)}
    (hk : k ∈ kinds) :
    OfKinds kinds locals received ((sendLoop port k n vc ws).map ManagerEffect.obs) := by
  induction ws generalizing vc with
  | nil => exact ofKinds_nil
  | cons w ws ih =>
      rw [sendLoop, List.map_append, ofKinds_append]
      refine ⟨?_, ih⟩
      simp [sendTo, ManagerEffect.obs, Obs.OfKinds, constructMessage, hk]

theorem kinds_announce (hk : k ∈ kinds) (hcrash : .crash ∈ locals) :
    OfKinds kinds locals received ((s.announce m k).map ManagerEffect.obs) := by
  have hclean : OfKinds kinds locals received
      ((cleanWorkerInfo s.workerInfo m.tid).map ManagerEffect.obs) := ofKinds_of_other obs_cleanWorkerInfo
  unfold announce
  split
  · have hreset : OfKinds kinds locals received
        ((resetCrash s.workerInfo m).map ManagerEffect.obs) := ofKinds_of_other obs_resetCrash
    simp only [List.map_cons, List.map_append, ofKinds_cons, ofKinds_append, hclean, hreset]
    simp [ManagerEffect.obs, Obs.OfKinds, hcrash]
  · simp only [List.map_cons, List.map_append, ofKinds_cons, ofKinds_append, hclean]
    exact ⟨trivial, kinds_sendLoop hk, trivial⟩

theorem kinds_vote {src : SockAddr} {u : Uninit} :
    OfKinds managerKinds managerLocals received ((s.handleVote src m u).map ManagerEffect.obs) := by
  rw [handleVote_eq, List.map_append, List.map_append, ofKinds_append, ofKinds_append]
  refine ⟨⟨ofKinds_of_other obs_crashFlag, ofKinds_of_other obs_collectVote⟩, ?_⟩
  split
  · split
    · simp [sendTo, ManagerEffect.obs, Obs.OfKinds, constructMessage, managerKinds]
    · exact kinds_announce (by decide) (by decide)
  · simp [sendTo, ManagerEffect.obs, Obs.OfKinds, constructMessage, managerKinds]
  · exact ofKinds_nil

/-- The kind a message is received as. -/
def Input.receivedAs : Input → List MsgId
  | .message _ m _ => [m.msgID]
  | _ => []

/-- What the manager does with an input is of its own kinds. -/
theorem kinds_handle (s : Manager) (input : Input) :
    OfKinds managerKinds managerLocals input.receivedAs ((s.handle input).map ManagerEffect.obs) := by
  cases input with
  | message src m u =>
      have hreply : ∀ k ∈ managerKinds, ∀ vc, OfKinds managerKinds managerLocals [m.msgID]
          ((reply src m k vc).map ManagerEffect.obs) := by
        intro k hk vc
        simp [reply, ManagerEffect.obs, Obs.OfKinds, constructMessage, hk]
      have hsaved : OfKinds managerKinds managerLocals [m.msgID] ((saveWorkerInfo s.workerInfo
          src.port m.tid m.msgID m.nodeId src u.index).2.map ManagerEffect.obs) :=
        ofKinds_of_other obs_saveWorkerInfo
      show OfKinds _ _ _ ((s.handleWorkerMsg src m u).map ManagerEffect.obs)
      rw [handleWorkerMsg, List.map_append, ofKinds_append]
      refine ⟨by simp [receive, ManagerEffect.obs, Obs.OfKinds, Input.receivedAs], ?_⟩
      split
      · simp only [handleBegin, List.map_append, ofKinds_append]
        refine ⟨⟨hsaved, by simp [ManagerEffect.obs, Obs.OfKinds]⟩, hreply _ ?_ _⟩
        split <;> decide
      · simp only [handleJoin, List.map_append, ofKinds_append]
        refine ⟨⟨hsaved, by simp [ManagerEffect.obs, Obs.OfKinds]⟩, ?_⟩
        split
        · exact hreply .joinFail (by decide) _
        · exact ofKinds_cons.mpr ⟨trivial, hreply .joinSuccess (by decide) _⟩
      · exact ofKinds_cons.mpr ⟨trivial, kinds_sendLoop (by decide)⟩
      · exact kinds_vote
      · exact kinds_vote
      · rw [handleVoteAbort, List.map_append, ofKinds_append]
        exact ⟨ofKinds_of_other obs_crashFlag, kinds_announce (by decide) (by decide)⟩
      · exact ofKinds_nil
  | timeout =>
      show OfKinds _ _ _ (s.voteTimeout.map ManagerEffect.obs)
      unfold voteTimeout
      split
      · simp only [List.map_append, ofKinds_append]
        refine ⟨⟨by simp [ManagerEffect.obs, Obs.OfKinds], kinds_sendLoop (by decide)⟩,
          ofKinds_of_other obs_cleanWorkerInfo⟩
      · exact ofKinds_nil
  | restart =>
      show OfKinds _ _ _ (s.restart.map ManagerEffect.obs)
      simp only [restart, List.map_append, ofKinds_append]
      refine ⟨⟨?_, kinds_sendLoop (by decide)⟩, by simp [ManagerEffect.obs, Obs.OfKinds]⟩
      simp [ManagerEffect.obs, Obs.OfKinds, managerLocals]

end Manager

/-! ## The workers -/

namespace Worker

variable {w : Worker} {m : TxMessage} {k : MsgId}

theorem kinds_rollback {curTid : Tid} :
    OfKinds kinds locals received ((w.rollback curTid).map WorkerEffect.obs) := by
  refine ofKinds_of_other fun o ho => ?_
  obtain ⟨e, he, rfl⟩ := List.mem_map.mp ho
  have hrestore := mem_rollback he
  cases e <;> first | rfl | cases hrestore

theorem kinds_sendMsg {vc : VClock} {dst : SockAddr} (hm : m.msgID ∈ workerKinds) :
    OfKinds workerKinds workerLocals received ((w.sendMsg vc dst m).map WorkerEffect.obs) := by
  unfold sendMsg
  dsimp only
  split_ifs <;> simp [WorkerEffect.obs, Obs.OfKinds, workerLocals, hm]

theorem kinds_updateObject {undo : Record} {write : WorkerEffect} {stampClock : Bool} {now : Timeval}
    (hwrite : write.obs = .other) (hk : undo.msgID ∈ workerLocals) :
    OfKinds workerKinds workerLocals received
      ((w.updateObject undo write stampClock now).map WorkerEffect.obs) := by
  have hother : write.obs.OfKinds workerKinds workerLocals received := by
    rw [hwrite]
    trivial
  simp only [updateObject, List.map_append, List.map_cons, ofKinds_append, ofKinds_cons, hother]
  refine ⟨⟨?_, trivial, trivial, trivial, hk, trivial, ofKinds_nil⟩, ?_⟩
  · split <;> simp [WorkerEffect.obs, Obs.OfKinds]
  · split <;> simp [WorkerEffect.obs, Obs.OfKinds]

theorem kinds_handleBeginJoin {c : MsgType} {toIP : Option ℕ} (hk : c.msgID ∈ workerKinds) :
    OfKinds workerKinds workerLocals received ((w.handleBeginJoin c toIP).map WorkerEffect.obs) := by
  cases toIP with
  | none => simp [handleBeginJoin, WorkerEffect.obs, Obs.OfKinds]
  | some addr =>
      simp only [handleBeginJoin, List.map_append, ofKinds_append]
      exact ⟨by simp [WorkerEffect.obs, Obs.OfKinds, hk], kinds_sendMsg hk⟩

theorem kinds_handleCommit {c : MsgType} :
    OfKinds workerKinds workerLocals received ((w.handleCommit c).map WorkerEffect.obs) := by
  simp only [handleCommit, List.map_append, ofKinds_append]
  exact ⟨by simp [WorkerEffect.obs, Obs.OfKinds, workerKinds], kinds_sendMsg (by simp [constructMessage, workerKinds])⟩

theorem kinds_handleAbort {c : MsgType} (hk : c.msgID ∈ workerLocals) :
    OfKinds workerKinds workerLocals received ((w.handleAbort c).map WorkerEffect.obs) := by
  simp only [handleAbort, List.map_append, ofKinds_append]
  refine ⟨⟨by simp [WorkerEffect.obs, Obs.OfKinds], kinds_rollback⟩, ?_⟩
  simp [WorkerEffect.obs, Obs.OfKinds, hk]

theorem kinds_handleCmdMsg {c : MsgType} {calls : CmdCalls} :
    OfKinds workerKinds workerLocals received ((w.handleCmdMsg c calls).map WorkerEffect.obs) := by
  unfold handleCmdMsg
  split
  case h_1 hk => exact kinds_handleBeginJoin (by simp [hk, workerKinds])
  case h_2 hk => exact kinds_handleBeginJoin (by simp [hk, workerKinds])
  case h_3 => exact kinds_updateObject rfl (by simp [workerLocals])
  case h_4 => exact kinds_updateObject rfl (by simp [workerLocals])
  case h_5 => exact kinds_updateObject rfl (by simp [workerLocals])
  case h_6 => simp [WorkerEffect.obs, Obs.OfKinds]
  case h_7 => simp [handleCrash, WorkerEffect.obs, Obs.OfKinds, workerLocals]
  case h_8 => exact kinds_handleCommit
  case h_9 => exact kinds_handleCommit
  case h_10 hk => exact kinds_handleAbort (by simp [hk, workerLocals])
  case h_11 hk => exact kinds_handleAbort (by simp [hk, workerLocals])
  case h_12 => simp [WorkerEffect.obs, Obs.OfKinds]
  case h_13 => exact ofKinds_nil

theorem kinds_receive {src : SockAddr} :
    OfKinds workerKinds workerLocals [m.msgID] ((w.receive src m).map WorkerEffect.obs) := by
  simp [receive, WorkerEffect.obs, Obs.OfKinds]

theorem kinds_handleDecideCommit :
    OfKinds kinds locals received ((handleDecideCommit m).map WorkerEffect.obs) := by
  simp [handleDecideCommit, WorkerEffect.obs, Obs.OfKinds]

theorem kinds_handleDecideAbort :
    OfKinds kinds locals received ((w.handleDecideAbort m).map WorkerEffect.obs) := by
  simp only [handleDecideAbort, List.map_append, ofKinds_append]
  exact ⟨kinds_rollback, by simp [WorkerEffect.obs, Obs.OfKinds]⟩

theorem kinds_handlePrepareCommit {src : SockAddr} :
    OfKinds workerKinds workerLocals received ((w.handlePrepareCommit src m).map WorkerEffect.obs) := by
  have hballot : w.voteFor m ∈ workerKinds := by
    unfold voteFor
    split <;> decide
  simp only [handlePrepareCommit, List.map_append, ofKinds_append]
  refine ⟨⟨⟨⟨by simp [WorkerEffect.obs, Obs.OfKinds], ?_⟩, ?_⟩, kinds_sendMsg hballot⟩, ?_⟩
  · split <;> simp [WorkerEffect.obs, Obs.OfKinds]
  · simp [WorkerEffect.obs, Obs.OfKinds, hballot]
  · split <;> simp [WorkerEffect.obs, Obs.OfKinds]

/-- The kind a datagram is received as. -/
def Input.receivedAs : Input → List MsgId
  | .manager _ m => [m.msgID]
  | _ => []

/-- What a worker does with an input is of its own kinds. -/
theorem kinds_handle (w : Worker) (input : Input) :
    OfKinds workerKinds workerLocals input.receivedAs ((w.handle input).map WorkerEffect.obs) := by
  cases input with
  | cmd c calls => exact kinds_handleCmdMsg
  | manager src m =>
      simp only [handle]
      split
      · simp only [waitingForCoordResponse, List.map_append, ofKinds_append]
        refine ⟨⟨kinds_receive, ?_⟩, by simp [WorkerEffect.obs, Obs.OfKinds]⟩
        split
        · exact kinds_handleDecideCommit
        · exact kinds_handleDecideAbort
        · exact ofKinds_nil
      · simp only [handleManagerMsg, List.map_append, ofKinds_append]
        refine ⟨kinds_receive, ?_⟩
        split
        · simp [WorkerEffect.obs, Obs.OfKinds]
        · simp [WorkerEffect.obs, Obs.OfKinds]
        · exact kinds_handleDecideCommit
        · exact kinds_handlePrepareCommit
        · exact kinds_handleDecideAbort
        · exact ofKinds_nil
  | pollTimeout =>
      simp only [handle]
      split
      · simp only [pollDecision, List.map_append, ofKinds_append]
        exact ⟨by simp [WorkerEffect.obs, Obs.OfKinds, workerKinds],
          kinds_sendMsg (by simp [constructTxMessage, workerKinds])⟩
      · exact ofKinds_nil
  | restart =>
      show OfKinds _ _ _ (w.restart.map WorkerEffect.obs)
      simp only [restart, List.map_append, ofKinds_append]
      refine ⟨by simp [WorkerEffect.obs, Obs.OfKinds, workerLocals], ?_⟩
      split
      · simp [WorkerEffect.obs, Obs.OfKinds]
      · simp only [List.map_append, ofKinds_append]
        refine ⟨kinds_rollback, ?_⟩
        simp [WorkerEffect.obs, Obs.OfKinds, workerLocals]

end Worker

/-! ## The system -/

/-- A line of the log of a node on `port`. -/
def LineOf (kinds locals received : List MsgId) (port : NodeId) : ShiVizEvent × VClock → Prop
  | (.start, vc) => vc = startClock port
  | (.localEvent k, _) => k ∈ locals
  | (.message k _ isSend _, _) => k ∈ if isSend then kinds else received

/-- The lines that observations of these kinds add. -/
theorem lineOf_logged {port : NodeId} {vc : VClock} (h : OfKinds kinds locals received os)
    (hreceived : ∀ k ∈ received, k ∈ received') :
    ∀ x ∈ logged vc os, LineOf kinds locals received' port x := by
  induction os generalizing vc with
  | nil => simp [logged]
  | cons o os ih =>
      obtain ⟨ho, hos⟩ := ofKinds_cons.mp h
      cases o with
      | event e =>
          rw [logged, List.forall_mem_cons]
          refine ⟨?_, ih hos⟩
          cases e with
          | start => exact ho.elim
          | localEvent k => exact ho
          | message k tid isSend toFrom =>
              cases isSend with
              | true => exact ho
              | false => exact hreceived k ho
      | _ => exact ih hos

namespace System

/-- Datagrams and log lines are of the kinds of their nodes. -/
structure Kinded (cfg : Config) (s : System) : Prop where
  requests : ∀ src m, .toManager src m ∈ s.net → m.msgID ∈ workerKinds
  replies : ∀ dst m, .toWorker dst m ∈ s.net → m.msgID ∈ managerKinds
  managerLines : ∀ x ∈ s.manager.shiviz,
    LineOf managerKinds managerLocals workerKinds cfg.managerAddr.port x
  workerLines : ∀ n, ∀ x ∈ (s.workers n).shiviz, LineOf workerKinds workerLocals managerKinds n x

variable {cfg : Config} {s : System}

theorem kinded_start (cfg : Config) : Kinded cfg (start cfg) where
  requests _ _ h := absurd h List.not_mem_nil
  replies _ _ h := absurd h List.not_mem_nil
  managerLines x hx := by
    rw [List.mem_singleton.mp hx]
    rfl
  workerLines n x hx := by
    rw [List.mem_singleton.mp hx]
    rfl

theorem Kinded.managerStep (h : Kinded cfg s) {st : ManagerStimulus} {input : Manager.Input}
    {cut : Option ℕ} (hin : managerInput s.net st = some input) :
    Kinded cfg (s.managerStep ⟨input, cut⟩) := by
  have hreceived : ∀ k ∈ input.receivedAs, k ∈ workerKinds := by
    cases input with
    | message src m u =>
        intro k hk
        rw [List.mem_singleton.mp hk]
        exact h.requests src m (mem_net_of_managerInput hin)
    | timeout => simp [Manager.Input.receivedAs]
    | restart => simp [Manager.Input.receivedAs]
  have hkinds : OfKinds managerKinds managerLocals input.receivedAs
      ((Manager.process.performed s.manager ⟨input, cut⟩).map ManagerEffect.obs) := by
    intro o ho
    obtain ⟨e, he, rfl⟩ := List.mem_map.mp ho
    rcases Process.mem_performed he with he | rfl
    · exact Manager.kinds_handle s.manager input _ (List.mem_map_of_mem he)
    · trivial
  refine
    { requests := fun src m hm => h.requests src m
        ((List.mem_append.mp hm).resolve_right toManager_notMem_managerPacket)
      replies := fun dst m hm => ?_
      managerLines := fun x hx => ?_
      workerLines := h.workerLines }
  · rcases List.mem_append.mp hm with hm | hm
    · exact h.replies dst m hm
    · exact hkinds (.send m) (List.mem_map_of_mem (toWorker_mem_managerPacket hm))
  · have hlog := Manager.shiviz_exec s.manager (Manager.process.performed s.manager ⟨input, cut⟩)
    rw [show (s.managerStep ⟨input, cut⟩).manager.shiviz = _ from hlog] at hx
    rcases List.mem_append.mp hx with hx | hx
    · exact h.managerLines x hx
    · exact lineOf_logged hkinds hreceived x hx

theorem Kinded.workerStep (h : Kinded cfg s) {n : NodeId} {st : WorkerStimulus} {input : Worker.Input}
    {cut : Option ℕ} (hin : workerInput cfg n s.net st = some input) :
    Kinded cfg (System.workerStep cfg s n ⟨input, cut⟩) := by
  have hreceived : ∀ k ∈ input.receivedAs, k ∈ managerKinds := by
    cases input with
    | manager src m =>
        intro k hk
        rw [List.mem_singleton.mp hk]
        exact h.replies _ m (mem_net_of_workerInput hin)
    | cmd c calls => simp [Worker.Input.receivedAs]
    | pollTimeout => simp [Worker.Input.receivedAs]
    | restart => simp [Worker.Input.receivedAs]
  have hkinds : OfKinds workerKinds workerLocals input.receivedAs
      ((Worker.process.performed (s.workers n) ⟨input, cut⟩).map WorkerEffect.obs) := by
    intro o ho
    obtain ⟨e, he, rfl⟩ := List.mem_map.mp ho
    rcases Process.mem_performed he with he | rfl
    · exact Worker.kinds_handle (s.workers n) input _ (List.mem_map_of_mem he)
    · trivial
  refine
    { requests := fun src m hm => ?_
      replies := fun dst m hm => h.replies dst m
        ((List.mem_append.mp hm).resolve_right toWorker_notMem_workerPacket)
      managerLines := h.managerLines
      workerLines := fun n' x hx => ?_ }
  · rcases List.mem_append.mp hm with hm | hm
    · exact h.requests src m hm
    · obtain ⟨-, dst, hsend⟩ := toManager_mem_workerPacket hm
      exact hkinds (.send m) (List.mem_map_of_mem hsend)
  · by_cases hne : n' = n
    · subst hne
      have hlog := Worker.shiviz_exec (s.workers n')
        (Worker.process.performed (s.workers n') ⟨input, cut⟩)
      have hself : (System.workerStep cfg s n' ⟨input, cut⟩).workers n' =
          Worker.process.exec (s.workers n') (Worker.process.performed (s.workers n') ⟨input, cut⟩) :=
        Function.update_self _ _ _
      rw [hself, hlog] at hx
      rcases List.mem_append.mp hx with hx | hx
      · exact h.workerLines n' x hx
      · exact lineOf_logged hkinds hreceived x hx
    · have hother : (System.workerStep cfg s n ⟨input, cut⟩).workers n' = s.workers n' :=
        Function.update_of_ne hne _ _
      exact h.workerLines n' x (hother ▸ hx)

/-- One step keeps the kinds, wherever it is cut off. -/
theorem kinded_next {a : SystemAct} (h : Kinded cfg s) : Kinded cfg (next cfg s a) := by
  cases a with
  | manager a =>
      unfold next
      dsimp only
      split
      · exact h.managerStep ‹_›
      · exact h
  | worker n a =>
      unfold next
      dsimp only
      split
      · exact h.workerStep ‹_›
      · exact h

/-- **Every run keeps the kinds.** -/
theorem kinded_after (cfg : Config) (as : List SystemAct) :
    Kinded cfg ((machine cfg).after (start cfg) as) :=
  (Machine.along_of_forall_mem (D := fun _ => True) fun _ _ => trivial).invariant (kinded_start cfg)
    fun _ _ h _ => kinded_next h

end System

end DistributedSystem.Transaction
