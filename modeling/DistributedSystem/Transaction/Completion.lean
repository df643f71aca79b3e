import DistributedSystem.Transaction.Termination
import DistributedSystem.Transaction.VoteLaw
import DistributedSystem.Transaction.VoteOrder

/-!
# A commit completes

What follows a COMMIT request when the participants are willing and nobody crashes: the
datagrams sent since then commit the transaction everywhere, in whatever order they arrive.
A participant is asked, votes, is counted, is told and is done. Only the count joins the
participants: nobody is told before everybody has been counted, so a DECIDE_COMMIT never
overtakes a PREPARE_COMMIT.
-/

namespace DistributedSystem.Transaction

open DistributedSystem.Library

namespace Worker

variable {w w₀ : Worker} {m : TxMessage} {src : SockAddr} {t : Tid} {n : NodeId} {cfg : Config}

/-! ## A participant -/

/-- The worker is idle in `t` and has no reason to vote against it or to die of a send. -/
structure Willing (t : Tid) (w : Worker) : Prop where
  control : w.mem.control = .cmdLoop
  curTid : w.mem.curTid = t
  delay : 0 ≤ w.mem.delay
  isCrash : w.mem.isCrash = false
  vote : w.mem.vote ≠ some .voteAbort
  localAbort : isLocalAbort w.log t = false

/-- The worker with the records of its vote. -/
def withVote (t : Tid) (w : Worker) : Worker :=
  { w with log := w.log ++ [{ msgID := .prepareCommit, tid := t }, { msgID := .voteCommit, tid := t }] }

/-- A willing worker answers a `PREPARE_COMMIT` with its vote, -/
theorem Willing.handle_prepare (h : Willing t w) (src : SockAddr) (hk : m.msgID = .prepareCommit)
    (ht : m.tid = t) :
    ∃ vc ballot, ballot.msgID = .voteCommit ∧ ballot.tid = t ∧ ballot.nodeId = m.nodeId ∧
      ballot.isCrash = false ∧
      w.handle (.manager src m) = w.receive src m ++ [.log { msgID := .prepareCommit, tid := t },
        .clock vc, .saveVectorTime, .shiviz (.message .voteCommit t true src.port), .send src ballot,
        .log { msgID := .voteCommit, tid := t }, .firstTimeWaiting true, .control (.waiting src)] := by
  have hvote : w.voteFor m = .voteCommit := by
    have hnot : w.voteFor m ≠ .voteAbort := by
      rw [Ne, voteFor_eq_voteAbort, h.curTid, h.localAbort]
      exact not_or.mpr ⟨Bool.false_ne_true, h.vote⟩
    unfold voteFor at hnot ⊢
    split at hnot
    · exact absurd rfl hnot
    · exact if_neg ‹_›
  have hsend : ¬ w.mem.delay < 0 := Int.not_lt.mpr h.delay
  refine ⟨tick w.nodeId (w.receivedClock m), w.constructTxMessage .voteCommit m.tid m.nodeId
    (tick w.nodeId (w.receivedClock m)), rfl, ht, rfl, h.isCrash, ?_⟩
  simp only [handle, h.control, handleManagerMsg, hk, handlePrepareCommit, hvote, reduceCtorEq, if_false,
    sendMsg_of_not_neg hsend, if_neg hsend, ht]
  simp

/-- and waits for the decision. -/
theorem Willing.waits (h : Willing t w) (src : SockAddr) (hk : m.msgID = .prepareCommit)
    (ht : m.tid = t) :
    Waits t (withVote t w) (process.exec w (w.handle (.manager src m))) := by
  obtain ⟨vc, ballot, -, -, -, -, heffects⟩ := h.handle_prepare src hk ht
  obtain ⟨w', hw'⟩ : ∃ w', w' = process.exec w (w.handle (.manager src m)) := ⟨_, rfl⟩
  have hmem : w'.mem.delay = w.mem.delay ∧ w'.mem.curTid = w.mem.curTid ∧
      w'.mem.control = .waiting src := by
    rw [hw', heffects]
    simp [receive, apply, withMem]
  have hfiles : w'.log = (withVote t w).log ∧ w'.objData = w.objData := by
    rw [hw', heffects]
    simp [receive, apply, withMem, withVote]
  rw [← hw']
  exact ⟨hmem.1 ▸ h.delay, hmem.2.1.trans h.curTid, ⟨src, hmem.2.2⟩, hfiles.1, hfiles.2⟩

/-- The datagram of the vote. -/
theorem Willing.packets (h : Willing t w) (cfg : Config) (n : NodeId) (src : SockAddr)
    (hk : m.msgID = .prepareCommit) (ht : m.tid = t) :
    ∃ ballot, ballot.msgID = .voteCommit ∧ ballot.tid = t ∧ ballot.nodeId = m.nodeId ∧
      ballot.isCrash = false ∧ (w.handle (.manager src m)).filterMap (System.workerPacket cfg n) =
        [.toManager (cfg.workerAddr n) ballot] := by
  obtain ⟨vc, ballot, hkind, htid, hid, hcrash, heffects⟩ := h.handle_prepare src hk ht
  exact ⟨ballot, hkind, htid, hid, hcrash, by rw [heffects]; rfl⟩

theorem Waits.handle_eq (h : Waits t w₀ w) :
    w.handle (.manager src m) = w.waitingForCoordResponse src m := by
  obtain ⟨a, ha⟩ := h.waiting
  simp only [handle, ha]

/-- A waiting worker that is told to commit sends nothing. -/
theorem Waits.packets (h : Waits t w₀ w) (hk : m.msgID = .decideCommit) :
    (w.handle (.manager src m)).filterMap (System.workerPacket cfg n) = [] := by
  rw [h.handle_eq]
  simp only [waitingForCoordResponse, hk]
  rfl

end Worker

namespace Manager

variable {s x : Manager} {e : ManagerEffect} {es : List ManagerEffect} {T T₀ : Table} {t : Tid}
  {i k : Fin maxTrans} {v : CommitVote} {ns : List NodeId} {m : TxMessage} {cfg : Config}

/-! ## The manager's messages -/

/-- One message of this kind about `t` to each of the nodes, in their order. -/
def Broadcast (cfg : Config) (msgKind : MsgId) (t : Tid) : List NodeId → List Packet → Prop :=
  List.Forall₂ fun n p => ∃ vc, p = .toWorker (cfg.workerAddr n) (constructMessage msgKind t n vc)

/-- The message to a node is at its place in the list. -/
theorem Broadcast.at {msgKind : MsgId} {ps : List Packet} {n : NodeId} (h : Broadcast cfg msgKind t ns ps)
    (hn : n ∈ ns) :
    ∃ vc, ps[ns.idxOf n]? = some (.toWorker (cfg.workerAddr n) (constructMessage msgKind t n vc)) := by
  have hlt := List.idxOf_lt_length_of_mem hn
  have hlt' : ns.idxOf n < ps.length := (List.Forall₂.length_eq h) ▸ hlt
  obtain ⟨vc, hvc⟩ := List.Forall₂.get h hlt hlt'
  refine ⟨vc, ?_⟩
  rw [List.getElem?_eq_getElem hlt']
  simpa using hvc

/-- The entry is free, or its node has the address of a worker. -/
def Seated (cfg : Config) (w : W) : Prop :=
  (w.port = 0 ↔ w.nodeId = 0) ∧ (w.nodeId ≠ 0 → w.workerAddr = cfg.workerAddr w.nodeId)

instance (cfg : Config) (w : W) : Decidable (Seated cfg w) := inferInstanceAs (Decidable (_ ∧ _))

theorem broadcast_sendLoop (cfg : Config) (port r : NodeId) (vc : VClock) (msgKind : MsgId) (t : Tid)
    {ws : List W} (hws : ∀ w ∈ ws, w.nodeId ≠ 0 ∧ w.workerAddr = cfg.workerAddr w.nodeId) :
    Broadcast cfg msgKind t (ws.map (·.nodeId))
      ((sendLoop port msgKind r vc (ws.map fun w => (t, w))).filterMap System.managerPacket) := by
  induction ws generalizing vc with
  | nil => exact .nil
  | cons w ws ih =>
    obtain ⟨⟨hid, haddr⟩, hrest⟩ := List.forall_mem_cons.mp hws
    -- the entry has an id, so the default id of the loop is not used
    rw [List.map_cons, List.map_cons, sendLoop, List.filterMap_append, if_neg hid, haddr]
    exact .cons ⟨tick port vc, rfl⟩ (ih _ hrest)

/-- With one slot for `t`, every participant of that slot gets one message. -/
theorem broadcast_sendToAllWorkers (hslot : ∀ k, (s.workerInfo k).tid = t ↔ k = i)
    (hseated : ∀ j, Seated cfg ((s.workerInfo i).workers j)) (vc : VClock) (r : NodeId) (msgKind : MsgId) :
    Broadcast cfg msgKind t (voters s.workerInfo i)
      ((s.sendToAllWorkers vc t r msgKind).filterMap System.managerPacket) := by
  -- the port decides whom the loop sends to and the id who votes, and `Seated` joins the two
  have htargets : targets s.workerInfo t =
      ((List.finRange maxNodes).map (s.workerInfo i).workers).filter (fun w => w.port ≠ 0) := by
    unfold targets
    rw [flatMap_finRange_of_unique (i := i) fun k hk => if_neg fun hkt => hk ((hslot k).mp hkt),
      if_pos ((hslot i).mpr rfl), List.ofFn_eq_map]
  have hvoters : voters s.workerInfo i = (targets s.workerInfo t).map (·.nodeId) := by
    rw [htargets, voters, List.filter_map, List.filter_map, List.map_map]
    refine congrArg _ (List.filter_congr fun j _ => ?_)
    simp [(hseated j).1]
  rw [hvoters]
  refine broadcast_sendLoop cfg s.port r vc msgKind t fun w hw => ?_
  rw [htargets, List.mem_filter] at hw
  obtain ⟨hw, hport⟩ := hw
  obtain ⟨j, -, rfl⟩ := List.mem_map.mp hw
  have hid := (not_congr (hseated j).1).mp (of_decide_eq_true hport)
  exact ⟨hid, (hseated j).2 hid⟩

/-! ## The request and the votes -/

theorem log_exec (h : ∀ r, .log r ∉ es) : (process.exec s es).log = s.log := by
  refine Process.exec_unchanged Manager.log fun s' e he => ?_
  rw [process_apply, log_apply]
  cases e with
  | log r => exact absurd he (h r)
  | _ => rfl

/-- Messages change neither the log nor the table, and end nothing. -/
theorem exec_outward (h : ∀ e ∈ es, e.isBookkeeping ∨ ∃ dst p, e = .send dst p) :
    (process.exec s es).log = s.log ∧ (process.exec s es).workerInfo = s.workerInfo ∧
      (process.exec s es).mem.up = s.mem.up := by
  have hsame : ∀ s', ∀ e ∈ es, ((process.apply s' e).log, (process.apply s' e).workerInfo,
      (process.apply s' e).mem.up) = (s'.log, s'.workerInfo, s'.mem.up) := by
    intro s' e he
    rcases h e he with hb | ⟨dst, p, rfl⟩
    · cases e <;> first | rfl | simp [ManagerEffect.isBookkeeping] at hb
    · rfl
  have hall := Process.exec_unchanged (s := s) (fun s : Manager => (s.log, s.workerInfo, s.mem.up)) hsame
  simpa only [Prod.mk.injEq] using hall

theorem outward_sendToAllWorkers {vc : VClock} {r : NodeId} {msgKind : MsgId}
    (he : e ∈ s.sendToAllWorkers vc t r msgKind) : e.isBookkeeping ∨ ∃ dst p, e = .send dst p := by
  rcases mem_sendToAllWorkers he with hb | ⟨w, -, n, vc', rfl⟩
  · exact Or.inl hb
  · exact Or.inr ⟨_, _, rfl⟩

/-- The request is logged and passed on, and the table stays as it is. -/
theorem exec_request (s : Manager) (src : SockAddr) (u : Uninit) (hm : m.msgID = .commit) :
    (process.exec s (s.handle (.message src m u))).log = s.log ++ [⟨.commitReq, m.tid, m.nodeId⟩] ∧
      (process.exec s (s.handle (.message src m u))).workerInfo = s.workerInfo ∧
      (process.exec s (s.handle (.message src m u))).mem.up = s.mem.up := by
  simp only [handle, handleWorkerMsg, hm, handleCommit, Process.exec_append, Process.exec_cons]
  exact exec_outward fun e he => outward_sendToAllWorkers he

/-- What is sent for the request. -/
theorem packets_request (src : SockAddr) (u : Uninit) (hm : m.msgID = .commit)
    (hslot : ∀ k, (s.workerInfo k).tid = m.tid ↔ k = i)
    (hseated : ∀ j, Seated cfg ((s.workerInfo i).workers j)) :
    Broadcast cfg .prepareCommit m.tid (voters s.workerInfo i)
      ((s.handle (.message src m u)).filterMap System.managerPacket) := by
  simp only [handle, handleWorkerMsg, hm, handleCommit, List.filterMap_append]
  exact broadcast_sendToAllWorkers hslot hseated _ _ _

theorem mem_entering (he : e ∈ s.receive m ++ recordVote T i m) :
    e.isBookkeeping ∨ ∃ j, e = .voteYes i j (some m.msgID) := by
  rcases List.mem_append.mp he with he | he
  · exact Or.inl (mem_receive he)
  · obtain ⟨j, -, rfl⟩ := mem_recordVote he
    exact Or.inr ⟨j, rfl⟩

theorem packets_entering : (s.receive m ++ recordVote T i m).filterMap System.managerPacket = [] := by
  refine List.filterMap_eq_nil_iff.mpr fun e he => ?_
  rcases mem_entering he with hb | ⟨j, rfl⟩
  · cases e <;> first | rfl | simp [ManagerEffect.isBookkeeping] at hb
  · rfl

/-- As long as another vote is missing, a vote is entered and nothing else is done. -/
theorem Collecting.performed_waits (h : Collecting T₀ t i ns s) (hv : v.tid = t)
    (honce : ListedOnce T₀ i)
    (hnew : ∀ j, ((T₀ i).workers j).nodeId ≠ 0 → ((T₀ i).workers j).voteYes = none)
    (hmissing : ∃ n, Voter T₀ i n ∧ n ∉ ns ++ [v.nodeId]) :
    process.performed s v.act = s.receive v.message ++ recordVote s.workerInfo i v.message := by
  subst hv
  have hfind : findSlot s.workerInfo v.message.tid = some i := h.found
  have hcount : (s.collectVote v.message v.u.commit).1 = .wait :=
    (collectVote_decision hfind).trans ((h.voted.record (m := v.message) honce rfl).waits hnew hmissing)
  rw [performed_vote, collectVote_effects hfind, hcount]
  simp

/-- The last vote is entered, and the decision is logged and announced. -/
theorem Collecting.performed_decides (h : Collecting T₀ t i ns s) (hv : v.tid = t)
    (honce : ListedOnce T₀ i) (hall : ∀ n, Voter T₀ i n → n ∈ ns ++ [v.nodeId])
    (hsome : ∃ n, Voter T₀ i n) (hflag : (s.workerInfo i).isCrash = false) :
    ∃ x : Manager, x.workerInfo = (process.exec s (recordVote s.workerInfo i v.message)).workerInfo ∧
      process.performed s v.act = s.receive v.message ++ recordVote s.workerInfo i v.message ++
        .log ⟨.decideCommit, t, v.nodeId⟩ :: (x.sendToAllWorkers (x.receivedClock v.message) t v.nodeId
          .decideCommit ++ cleanWorkerInfo x.workerInfo t) := by
  subst hv
  have hfind : findSlot s.workerInfo v.message.tid = some i := h.found
  have hcount : (s.collectVote v.message v.u.commit).1 = .decideCommit :=
    (collectVote_decision hfind).trans ((h.voted.record (m := v.message) honce rfl).commits hall hsome)
  refine ⟨process.exec s (recordVote s.workerInfo i v.message), rfl, ?_⟩
  -- entering the vote has left the crash flag off
  have hflag' : getCrash (process.exec s (recordVote s.workerInfo i v.message)).workerInfo v.message =
      false := by
    refine getCrash_eq_false fun k hk => ?_
    rw [tid_exec_recordVote] at hk
    obtain rfl := (h.slot k).mp hk
    rw [← hflag]
    refine Process.exec_unchanged (fun x : Manager => (x.workerInfo k).isCrash) fun x e he => ?_
    obtain ⟨j, -, rfl⟩ := mem_recordVote he
    rw [process_apply, isCrash_apply]
  rw [performed_vote, collectVote_effects hfind, hcount, List.append_assoc]
  show _ ++ (_ ++ announce _ v.message .decideCommit) = _
  rw [announce_of_flag_off hflag']
  rfl

/-- A vote that waits changes only its slot, and sends nothing. -/
theorem Collecting.vote_waits (h : Collecting T₀ t i ns s) (hv : v.tid = t) (honce : ListedOnce T₀ i)
    (hnew : ∀ j, ((T₀ i).workers j).nodeId ≠ 0 → ((T₀ i).workers j).voteYes = none)
    (hmissing : ∃ n, Voter T₀ i n ∧ n ∉ ns ++ [v.nodeId]) :
    (s.afterVote v).log = s.log ∧ (s.afterVote v).mem.up = s.mem.up ∧
      ((s.afterVote v).workerInfo i).isCrash = (s.workerInfo i).isCrash ∧
      (process.performed s v.act).filterMap System.managerPacket = [] := by
  have hperformed := h.performed_waits hv honce hnew hmissing
  have hsame : ∀ s', ∀ e ∈ process.performed s v.act, ((process.apply s' e).log,
      (process.apply s' e).mem.up, ((process.apply s' e).workerInfo i).isCrash) =
        (s'.log, s'.mem.up, (s'.workerInfo i).isCrash) := by
    intro s' e he
    rw [hperformed] at he
    rcases mem_entering he with hb | ⟨j, rfl⟩
    · cases e <;> first | rfl | simp [ManagerEffect.isBookkeeping] at hb
    · rw [process_apply, isCrash_apply]
      rfl
  have hall := Process.exec_unchanged (s := s)
    (fun s : Manager => (s.log, s.mem.up, (s.workerInfo i).isCrash)) hsame
  simp only [Prod.mk.injEq] at hall
  exact ⟨hall.1, hall.2.1, hall.2.2, hperformed ▸ packets_entering⟩

/-- The vote that decides adds one record, and a message for every participant. -/
theorem Collecting.vote_decides (h : Collecting T₀ t i ns s) (hv : v.tid = t) (honce : ListedOnce T₀ i)
    (hseated : ∀ j, Seated cfg ((T₀ i).workers j)) (hall : ∀ n, Voter T₀ i n → n ∈ ns ++ [v.nodeId])
    (hsome : ∃ n, Voter T₀ i n) (hflag : (s.workerInfo i).isCrash = false) :
    (s.afterVote v).log = s.log ++ [⟨.decideCommit, t, v.nodeId⟩] ∧
      Broadcast cfg .decideCommit t (voters T₀ i)
        ((process.performed s v.act).filterMap System.managerPacket) := by
  obtain ⟨x, hx, hperformed⟩ := h.performed_decides hv honce hall hsome hflag
  have hrecord := h.voted.record (m := v.message) honce rfl
  rw [← hx] at hrecord
  have hslot : ∀ k, (x.workerInfo k).tid = t ↔ k = i := by
    intro k
    rw [hx, tid_exec_recordVote]
    exact h.slot k
  -- the vote is entered before the record, and the slot is cleared behind the messages
  constructor
  · show (process.exec s (process.performed s v.act)).log = _
    rw [hperformed, Process.exec_append, Process.exec_cons, log_exec, process_apply, log_apply]
    · simp only
      rw [log_exec]
      intro r hr
      rcases mem_entering hr with hb | ⟨j, heq⟩
      · simp [ManagerEffect.isBookkeeping] at hb
      · cases heq
    · intro r hr
      rcases List.mem_append.mp hr with hr | hr
      · exact log_notMem_sendToAllWorkers hr
      · exact log_notMem_clean hr
  · have hvoters : voters x.workerInfo i = voters T₀ i := by
      simp only [voters, hrecord.nodeId]
    have hseated' : ∀ j, Seated cfg ((x.workerInfo i).workers j) := by
      intro j
      simp only [Seated, hrecord.nodeId, hrecord.port, hrecord.workerAddr]
      exact hseated j
    have hsends := broadcast_sendToAllWorkers hslot hseated' (x.receivedClock v.message) v.nodeId .decideCommit
    rw [hvoters] at hsends
    have hbehind : (cleanWorkerInfo x.workerInfo t).filterMap System.managerPacket = [] := by
      refine List.filterMap_eq_nil_iff.mpr fun e he => ?_
      obtain ⟨l, -, rfl | rfl | ⟨j, rfl | rfl | rfl⟩⟩ := mem_cleanWorkerInfo he <;> rfl
    rw [hperformed, List.filterMap_append, packets_entering, List.nil_append, List.filterMap_cons_none rfl,
      List.filterMap_append, hbehind, List.append_nil]
    exact hsends

end Manager

namespace System

/-! ## The phases of a participant -/

/-- Where a participant stands; the datagram that is under way to it or from it is named by its
    place on the net. -/
inductive Phase where
  | asked (k : ℕ)
  | voted (k : ℕ)
  | counted
  | told (k : ℕ)
  | done
  deriving DecidableEq

namespace Phase

/-- The place of the datagram that is under way. -/
def place : Phase → Option ℕ
  | .asked k | .voted k | .told k => some k
  | .counted | .done => none

/-- The deliveries that are still to come; the one that ends the count tells everybody. -/
def remaining : Phase → ℕ
  | .asked _ => 3
  | .voted _ => 2
  | .counted | .told _ => 1
  | .done => 0

/-- Before the decision. -/
def Open : Phase → Prop
  | .asked _ | .voted _ | .counted => True
  | .told _ | .done => False

/-- The datagram that is under way. -/
def Carries (cfg : Config) (t : Tid) (n : NodeId) : Phase → Packet → Prop
  | .asked _, p => ∃ vc, p = .toWorker (cfg.workerAddr n) (Manager.constructMessage .prepareCommit t n vc)
  | .voted _, p => ∃ m : TxMessage, m.msgID = .voteCommit ∧ m.tid = t ∧ m.nodeId = n ∧
      m.isCrash = false ∧ p = .toManager (cfg.workerAddr n) m
  | .told _, p => ∃ vc, p = .toWorker (cfg.workerAddr n) (Manager.constructMessage .decideCommit t n vc)
  | .counted, _ | .done, _ => False

/-- The state of the worker, which was `w₀` when the request was handled. -/
def Stands (t : Tid) (w₀ w : Worker) : Phase → Prop
  | .asked _ => w = w₀
  | .voted _ | .counted | .told _ => Worker.Waits t (w₀.withVote t) w
  | .done => Worker.Released t true (w₀.withVote t) w

end Phase

variable {cfg : Config} {s₀ s : System} {t : Tid} {i : Fin maxTrans} {σ : NodeId → Phase}
  {ns : List NodeId} {n n' : NodeId} {ph : Phase} {base k : ℕ} {D D' : ℕ → Prop}
  {net ps : List Packet} {p : Packet} {as : List SystemAct} {a : SystemAct}

/-- Every datagram belongs to one participant. -/
theorem Phase.Carries.unique {ph' : Phase} (h : ph.Carries cfg t n p) (h' : ph'.Carries cfg t n' p) :
    n = n' := by
  have haddr : ∀ {ph : Phase} {n : NodeId}, ph.Carries cfg t n p →
      (∃ m, p = .toWorker (cfg.workerAddr n) m) ∨ ∃ m, p = .toManager (cfg.workerAddr n) m := by
    intro ph n h
    cases ph with
    | asked k | told k =>
      obtain ⟨vc, rfl⟩ := h
      exact Or.inl ⟨_, rfl⟩
    | voted k =>
      obtain ⟨m, -, -, -, -, rfl⟩ := h
      exact Or.inr ⟨_, rfl⟩
    | counted | done => exact h.elim
  rcases haddr h with ⟨m, rfl⟩ | ⟨m, rfl⟩
  · rcases haddr h' with ⟨m', heq⟩ | ⟨m', heq⟩
    · exact cfg.workerAddr_injective (Packet.toWorker.inj heq).1
    · cases heq
  · rcases haddr h' with ⟨m', heq⟩ | ⟨m', heq⟩
    · cases heq
    · exact cfg.workerAddr_injective (Packet.toManager.inj heq).1

/-! ## What is under way -/

/-- The datagrams since `base` are those the participants wait for, and those delivered. -/
structure Posted (cfg : Config) (t : Tid) (ns : List NodeId) (base : ℕ) (σ : NodeId → Phase)
    (D : ℕ → Prop) (net : List Packet) : Prop where
  past : ∀ k, D k → k < net.length
  covered : ∀ k, base ≤ k → k < net.length → D k ∨ ∃ n ∈ ns, (σ n).place = some k
  owned : ∀ n ∈ ns, ∀ k, (σ n).place = some k →
    base ≤ k ∧ ¬ D k ∧ ∃ p, net[k]? = some p ∧ (σ n).Carries cfg t n p

/-- A delivery takes one participant on, which sends one datagram or none. -/
theorem Posted.step (h : Posted cfg t ns base σ D net) (hn : n ∈ ns) (hk : (σ n).place = some k)
    (hD : ∀ k', D' k' ↔ D k' ∨ k' = k)
    (hnew : ps = [] ∧ ph.place = none ∨
      ∃ p, ps = [p] ∧ ph.place = some net.length ∧ ph.Carries cfg t n p) :
    Posted cfg t ns base (Function.update σ n ph) D' (net ++ ps) := by
  obtain ⟨hbase, hundelivered, p, hp, hcarries⟩ := h.owned n hn k hk
  have hlt : k < net.length := (List.getElem?_eq_some_iff.mp hp).1
  refine ⟨fun k' hk' => ?_, fun k' hbase' hlt' => ?_, fun n' hn' k' hk' => ?_⟩
  · -- what is delivered now was on the net before the step
    rw [List.length_append]
    rcases (hD k').mp hk' with hk' | rfl
    · exact Nat.lt_add_right _ (h.past k' hk')
    · exact Nat.lt_add_right _ hlt
  · by_cases hold : k' < net.length
    · rcases h.covered k' hbase' hold with hdelivered | ⟨n', hn', hplace⟩
      · exact Or.inl ((hD k').mpr (Or.inl hdelivered))
      · by_cases hnn : n' = n
        · subst hnn
          exact Or.inl ((hD k').mpr (Or.inr (Option.some.inj (hplace.symm.trans hk))))
        · exact Or.inr ⟨n', hn', by rwa [Function.update_of_ne hnn]⟩
    · -- the new datagram
      rcases hnew with ⟨rfl, -⟩ | ⟨p', rfl, hplace, -⟩
      · rw [List.append_nil] at hlt'
        exact absurd hlt' hold
      · rw [List.length_append, List.length_singleton] at hlt'
        obtain rfl : k' = net.length := by omega
        exact Or.inr ⟨n, hn, by rwa [Function.update_self]⟩
  · by_cases hnn : n' = n
    · subst hnn
      rw [Function.update_self] at hk' ⊢
      rcases hnew with ⟨-, hnone⟩ | ⟨p', rfl, hplace, hcarries'⟩
      · rw [hnone] at hk'
        cases hk'
      · obtain rfl : net.length = k' := Option.some.inj (hplace.symm.trans hk')
        refine ⟨hbase.trans hlt.le, fun hdelivered => ?_, p', by simp, hcarries'⟩
        rcases (hD _).mp hdelivered with hdelivered | heq
        · exact absurd (h.past _ hdelivered) (lt_irrefl _)
        · exact absurd heq hlt.ne'
    · rw [Function.update_of_ne hnn] at hk' ⊢
      obtain ⟨hbase', hundelivered', p', hp', hcarries'⟩ := h.owned n' hn' k' hk'
      refine ⟨hbase', fun hdelivered => ?_, p', ?_, hcarries'⟩
      · rcases (hD k').mp hdelivered with hdelivered | rfl
        · exact hundelivered' hdelivered
        · -- the same datagram, so the same participant
          obtain rfl := Option.some.inj (hp.symm.trans hp')
          exact hnn (hcarries'.unique hcarries)
      · rw [List.getElem?_append_left (List.getElem?_eq_some_iff.mp hp').1]
        exact hp'

/-- A broadcast to all participants, when nothing else is under way. -/
theorem posted_broadcast {msgKind : MsgId} {f : ℕ → Phase} (hnodup : ns.Nodup)
    (hps : Manager.Broadcast cfg msgKind t ns ps) (hplace : ∀ k, (f k).place = some k)
    (hcarries : ∀ k n vc,
      (f k).Carries cfg t n (.toWorker (cfg.workerAddr n) (Manager.constructMessage msgKind t n vc)))
    (hbase : base ≤ net.length) (hpast : ∀ k, D k → k < net.length)
    (hall : ∀ k, base ≤ k → k < net.length → D k) :
    Posted cfg t ns base (fun n => f (net.length + ns.idxOf n)) D (net ++ ps) := by
  have hlength : ps.length = ns.length := (List.Forall₂.length_eq hps).symm
  refine ⟨fun k hk => ?_, fun k hk hlt => ?_, fun n hn k hk => ?_⟩
  · rw [List.length_append]
    exact Nat.lt_add_right _ (hpast k hk)
  · by_cases hold : k < net.length
    · exact Or.inl (hall k hk hold)
    · rw [List.length_append, hlength] at hlt
      have hindex : k - net.length < ns.length := by omega
      refine Or.inr ⟨ns[k - net.length], List.getElem_mem hindex, ?_⟩
      rw [hplace, hnodup.idxOf_getElem _ hindex]
      congr 1
      omega
  · rw [hplace] at hk
    obtain rfl := Option.some.inj hk
    obtain ⟨vc, hvc⟩ := hps.at hn
    refine ⟨by omega, fun hD => ?_, _, ?_, hcarries _ n vc⟩
    · have hlt := hpast _ hD
      omega
    · rw [List.getElem?_append_right (Nat.le_add_right _ _), Nat.add_sub_cancel_left]
      exact hvc

/-- The deliveries that are still to come. -/
def total (ns : List NodeId) (σ : NodeId → Phase) : ℕ := (ns.map fun n => (σ n).remaining).sum

theorem total_update (hnodup : ns.Nodup) (hn : n ∈ ns) (ph : Phase) :
    total ns (Function.update σ n ph) + (σ n).remaining = total ns σ + ph.remaining := by
  have hrest : (ns.erase n).map (fun n' => (Function.update σ n ph n').remaining) =
      (ns.erase n).map fun n' => (σ n').remaining := by
    refine List.map_congr_left fun n' hn' => ?_
    have hne : n' ≠ n := by
      rintro rfl
      exact hnodup.not_mem_erase hn'
    rw [Function.update_of_ne hne]
  rw [total, total, ← List.sum_map_erase _ hn, ← List.sum_map_erase _ hn, hrest, Function.update_self]
  omega

theorem total_of_forall {r : ℕ} (h : ∀ n ∈ ns, (σ n).remaining = r) : total ns σ = ns.length * r := by
  rw [total, List.map_congr_left h, List.map_const', List.sum_replicate_nat]

/-! ## The run -/

/-- Transaction `t` waits in slot `i` for its commit: nobody has voted, and all participants are
    willing. -/
structure Ready (cfg : Config) (s : System) (t : Tid) (i : Fin maxTrans) : Prop where
  up : s.manager.mem.up = true
  awaiting : s.manager.Awaiting t i
  flag : (s.manager.workerInfo i).isCrash = false
  seated : ∀ j, Manager.Seated cfg ((s.manager.workerInfo i).workers j)
  willing : ∀ n ∈ Manager.voters s.manager.workerInfo i, (s.workers n).Willing t

/-- The place of the datagram that a step delivers, unless a crash cuts it off. -/
def place : SystemAct → Option ℕ
  | .manager ⟨.deliver k _, none⟩ => some k
  | .worker _ ⟨.deliver k, none⟩ => some k
  | _ => none

/-- The run delivers the datagram at place `k`. -/
def Delivers (as : List SystemAct) (k : ℕ) : Prop := some k ∈ as.map place

/-- The transaction is committed: one decision in the manager's log, whose slot is free, and in
    the log of every participant, which is out of the transaction with its object as it was.
    Nothing else has changed. -/
structure Committed (s₀ : System) (t : Tid) (i : Fin maxTrans) (s : System) : Prop where
  log : ∃ n n', s.manager.log = s₀.manager.log ++ [⟨.commitReq, t, n⟩, ⟨.decideCommit, t, n'⟩]
  cleared : s.manager.Cleared i
  others : ∀ k ≠ i, s₀.manager.SameSlot s.manager k
  participants : ∀ n ∈ Manager.voters s₀.manager.workerInfo i,
    Worker.Released t true ((s₀.workers n).withVote t) (s.workers n)
  bystanders : ∀ n ∉ Manager.voters s₀.manager.workerInfo i, s.workers n = s₀.workers n

/-- The manager still counts. -/
structure Counting (s₀ : System) (t : Tid) (i : Fin maxTrans) (σ : NodeId → Phase) (m : Manager) :
    Prop where
  up : m.mem.up = true
  flag : (m.workerInfo i).isCrash = false
  log : ∃ n, m.log = s₀.manager.log ++ [⟨.commitReq, t, n⟩]
  isOpen : ∀ n ∈ Manager.voters s₀.manager.workerInfo i, (σ n).Open
  missing : ∃ n ∈ Manager.voters s₀.manager.workerInfo i, σ n ≠ .counted
  votes : ∃ ns, (∀ n ∈ Manager.voters s₀.manager.workerInfo i, n ∈ ns ↔ σ n = .counted) ∧
    Manager.Collecting s₀.manager.workerInfo t i ns m

/-- The manager has decided. -/
structure Decided (s₀ : System) (t : Tid) (i : Fin maxTrans) (σ : NodeId → Phase) (m : Manager) :
    Prop where
  log : ∃ n n', m.log = s₀.manager.log ++ [⟨.commitReq, t, n⟩, ⟨.decideCommit, t, n'⟩]
  cleared : m.Cleared i
  told : ∀ n ∈ Manager.voters s₀.manager.workerInfo i, ¬ (σ n).Open

/-- The state on the way to the commit, after the deliveries `as`. -/
structure Completing (cfg : Config) (s₀ : System) (t : Tid) (i : Fin maxTrans) (σ : NodeId → Phase)
    (as : List SystemAct) (s : System) : Prop where
  posted : Posted cfg t (Manager.voters s₀.manager.workerInfo i) s₀.net.length σ
    (Delivers as) s.net
  participants : ∀ n ∈ Manager.voters s₀.manager.workerInfo i,
    (σ n).Stands t (s₀.workers n) (s.workers n)
  bystanders : ∀ n ∉ Manager.voters s₀.manager.workerInfo i, s.workers n = s₀.workers n
  manager : Counting s₀ t i σ s.manager ∨ Decided s₀ t i σ s.manager
  others : ∀ k ≠ i, s₀.manager.SameSlot s.manager k
  count : as.length + total (Manager.voters s₀.manager.workerInfo i) σ =
    3 * (Manager.voters s₀.manager.workerInfo i).length

theorem delivers_concat (ha : place a = some k) (k' : ℕ) :
    Delivers (as ++ [a]) k' ↔ Delivers as k' ∨ k' = k := by
  simp only [Delivers, List.map_append, List.map_cons, List.map_nil, List.mem_append,
    List.mem_singleton, ha, Option.some.injEq]

theorem deliver_of_place (ha : place a = some k) :
    (∃ u, a = .manager ⟨.deliver k u, none⟩) ∨ ∃ n, a = .worker n ⟨.deliver k, none⟩ := by
  rcases a with ⟨st, cut⟩ | ⟨n, st, cut⟩
  · cases cut with
    | some c => cases st <;> cases ha
    | none =>
      cases st with
      | deliver k' u =>
        obtain rfl := Option.some.inj ha
        exact Or.inl ⟨u, rfl⟩
      | timeout | restart => cases ha
  · cases cut with
    | some c => cases st <;> cases ha
    | none =>
      cases st with
      | deliver k' =>
        obtain rfl := Option.some.inj ha
        exact Or.inr ⟨n, rfl⟩
      | cmd | pollTimeout | restart => cases ha

/-- What is delivered has been sent. -/
theorem lt_length_of_place (ha : place a = some k) (henabled : enabled cfg s a) : k < s.net.length := by
  by_contra hlt
  have hnone : s.net[k]? = none := List.getElem?_eq_none (not_lt.mp hlt)
  rcases deliver_of_place ha with ⟨u, rfl⟩ | ⟨n, rfl⟩
  · obtain ⟨input, hin, -⟩ := henabled
    simp [managerInput, hnone] at hin
  · obtain ⟨-, input, hin, -⟩ := henabled
    simp [workerInput, hnone] at hin

/-- A datagram for a worker is delivered to that worker. -/
theorem next_of_toWorker {m : TxMessage} (ha : place a = some k)
    (hk : s.net[k]? = some (.toWorker (cfg.workerAddr n) m)) (henabled : enabled cfg s a) :
    next cfg s a = workerStep cfg s n ⟨.manager cfg.managerAddr m, none⟩ := by
  rcases deliver_of_place ha with ⟨u, rfl⟩ | ⟨n', rfl⟩
  · obtain ⟨input, hin, -⟩ := henabled
    simp [managerInput, hk] at hin
  · obtain ⟨-, input, hin, -⟩ := henabled
    have hn : cfg.workerAddr n = cfg.workerAddr n' := by
      by_contra hne
      simp [workerInput, hk, hne] at hin
    obtain rfl := cfg.workerAddr_injective hn
    exact next_worker (by simp [workerInput, hk])

/-- A datagram for the manager is delivered to the manager. -/
theorem next_of_toManager {src : SockAddr} {m : TxMessage} (ha : place a = some k)
    (hk : s.net[k]? = some (.toManager src m)) (henabled : enabled cfg s a) :
    ∃ u, next cfg s a = s.managerStep ⟨.message src m u, none⟩ := by
  rcases deliver_of_place ha with ⟨u, rfl⟩ | ⟨n', rfl⟩
  · exact ⟨u, next_manager (by simp [managerInput, hk])⟩
  · obtain ⟨-, input, hin, -⟩ := henabled
    simp [workerInput, hk] at hin

/-- A participant handles its datagram. -/
theorem Completing.worker (h : Completing cfg s₀ t i σ as s) (hready : Ready cfg s₀ t i)
    (hn : n ∈ Manager.voters s₀.manager.workerInfo i) (hk : (σ n).place = some k)
    (ha : place a = some k) {inp : Worker.Input}
    (hstands : ph.Stands t (s₀.workers n)
      (Worker.process.exec (s.workers n) ((s.workers n).handle inp)))
    (hnew : ((s.workers n).handle inp).filterMap (workerPacket cfg n) = [] ∧ ph.place = none ∨
      ∃ p, ((s.workers n).handle inp).filterMap (workerPacket cfg n) = [p] ∧
        ph.place = some s.net.length ∧ ph.Carries cfg t n p)
    (hopen : ph.Open ↔ (σ n).Open) (hph : ph ≠ .counted) (hremaining : ph.remaining + 1 = (σ n).remaining) :
    Completing cfg s₀ t i (Function.update σ n ph) (as ++ [a]) (workerStep cfg s n ⟨inp, none⟩) := by
  -- for the manager, who is open and who is counted stays as it is
  have hopen' : ∀ n', (Function.update σ n ph n').Open ↔ (σ n').Open :=
    (Function.forall_update_iff σ fun n' ph' => ph'.Open ↔ (σ n').Open).mpr
      ⟨hopen, fun _ _ => Iff.rfl⟩
  have hcounted : ∀ n', Function.update σ n ph n' = .counted ↔ σ n' = .counted := by
    refine (Function.forall_update_iff σ fun n' ph' => ph' = .counted ↔ σ n' = .counted).mpr
      ⟨iff_of_false hph fun hcounted => ?_, fun _ _ => Iff.rfl⟩
    rw [hcounted] at hk
    cases hk
  refine ⟨?_, fun n' hn' => ?_, fun n' hn' => ?_, ?_, h.others, ?_⟩
  · exact h.posted.step hn hk (delivers_concat ha) hnew
  · by_cases hnn : n' = n
    · subst hnn
      rw [workers_workerStep, Function.update_self]
      exact hstands
    · rw [Function.update_of_ne hnn]
      simpa only [workerStep, Function.update_of_ne hnn] using h.participants n' hn'
  · have hnn : n' ≠ n := by
      rintro rfl
      exact hn' hn
    simpa only [workerStep, Function.update_of_ne hnn] using h.bystanders n' hn'
  · rcases h.manager with hcounting | hdecided
    · obtain ⟨n', hn', hmissing⟩ := hcounting.missing
      obtain ⟨ns, hns, hcollecting⟩ := hcounting.votes
      refine Or.inl ⟨hcounting.up, hcounting.flag, hcounting.log, fun n' hn' => ?_,
        ⟨n', hn', fun heq => hmissing ((hcounted n').mp heq)⟩, ns, fun n' hn' => ?_, hcollecting⟩
      · exact (hopen' n').mpr (hcounting.isOpen n' hn')
      · exact (hns n' hn').trans (hcounted n').symm
    · refine Or.inr ⟨hdecided.log, hdecided.cleared, fun n' hn' => ?_⟩
      exact fun hopen => hdecided.told n' hn' ((hopen' n').mp hopen)
  · have htotal := total_update (Manager.nodup_voters hready.awaiting.once) hn ph (σ := σ)
    have hcount := h.count
    rw [List.length_append, List.length_singleton]
    omega

/-- **Step lemma**: a participant is asked, and votes. -/
theorem Completing.asked (h : Completing cfg s₀ t i σ as s) (hready : Ready cfg s₀ t i)
    (hn : n ∈ Manager.voters s₀.manager.workerInfo i) (hσ : σ n = .asked k) (ha : place a = some k)
    (henabled : enabled cfg s a) :
    Completing cfg s₀ t i (Function.update σ n (.voted s.net.length)) (as ++ [a]) (next cfg s a) := by
  have hk : (σ n).place = some k := by rw [hσ]; rfl
  obtain ⟨-, -, p, hp, hcarries⟩ := h.posted.owned n hn k hk
  have hstands := h.participants n hn
  rw [hσ] at hcarries hstands
  obtain ⟨vc, rfl⟩ := hcarries
  have hwilling : (s.workers n).Willing t := by
    rw [show s.workers n = s₀.workers n from hstands]
    exact hready.willing n hn
  rw [next_of_toWorker ha hp henabled]
  refine h.worker hready hn hk ha ?_ (Or.inr ?_) ?_ (by simp) ?_
  · have hwaits := hwilling.waits cfg.managerAddr
      (m := Manager.constructMessage .prepareCommit t n vc) rfl rfl
    rwa [show s.workers n = s₀.workers n from hstands] at hwaits ⊢
  · obtain ⟨ballot, hkind, htid, hid, hcrash, hsent⟩ := hwilling.packets cfg n cfg.managerAddr
      (m := Manager.constructMessage .prepareCommit t n vc) rfl rfl
    exact ⟨_, hsent, rfl, ballot, hkind, htid, hid, hcrash, rfl⟩
  · rw [hσ]
    exact Iff.rfl
  · rw [hσ]
    rfl

/-- **Step lemma**: a participant is told, and is done. -/
theorem Completing.told (h : Completing cfg s₀ t i σ as s) (hready : Ready cfg s₀ t i)
    (hn : n ∈ Manager.voters s₀.manager.workerInfo i) (hσ : σ n = .told k) (ha : place a = some k)
    (henabled : enabled cfg s a) :
    Completing cfg s₀ t i (Function.update σ n .done) (as ++ [a]) (next cfg s a) := by
  have hk : (σ n).place = some k := by rw [hσ]; rfl
  obtain ⟨-, -, p, hp, hcarries⟩ := h.posted.owned n hn k hk
  have hstands := h.participants n hn
  rw [hσ] at hcarries hstands
  obtain ⟨vc, rfl⟩ := hcarries
  have hwaits : Worker.Waits t ((s₀.workers n).withVote t) (s.workers n) := hstands
  rw [next_of_toWorker ha hp henabled]
  refine h.worker hready hn hk ha ?_ (Or.inl ⟨hwaits.packets rfl, rfl⟩) ?_ (by simp) ?_
  · rw [hwaits.handle_eq]
    exact hwaits.released cfg.managerAddr true (by simp) rfl rfl
  · rw [hσ]
    exact Iff.rfl
  · rw [hσ]
    rfl

variable {v : Manager.CommitVote}

/-- The manager handles a vote that is not the last one. -/
theorem Completing.counted (h : Completing cfg s₀ t i σ as s) (hready : Ready cfg s₀ t i)
    (hn : n ∈ Manager.voters s₀.manager.workerInfo i) (hσ : σ n = .voted k) (ha : place a = some k)
    (hv : v.tid = t) (hid : v.nodeId = n) (hcounting : Counting s₀ t i σ s.manager)
    (hmissing : ∃ n' ∈ Manager.voters s₀.manager.workerInfo i, n' ≠ n ∧ σ n' ≠ .counted) :
    Completing cfg s₀ t i (Function.update σ n .counted) (as ++ [a]) (s.managerStep v.act) := by
  obtain ⟨ns, hns, hcollecting⟩ := hcounting.votes
  obtain ⟨n', hn', hne, hopen⟩ := hmissing
  -- somebody is still missing behind this vote, so it decides nothing
  have hmissing' : ∃ n', Manager.Voter s₀.manager.workerInfo i n' ∧ n' ∉ ns ++ [v.nodeId] := by
    refine ⟨n', Manager.mem_voters.mp hn', fun hmem => ?_⟩
    rcases List.mem_append.mp hmem with hmem | hmem
    · exact hopen ((hns n' hn').mp hmem)
    · exact hne ((List.mem_singleton.mp hmem).trans hid)
  have hawaiting := hready.awaiting
  obtain ⟨hlog, hup, hflag, hsent⟩ :=
    hcollecting.vote_waits hv hawaiting.once hawaiting.unvoted hmissing'
  obtain ⟨hcollecting', -⟩ := hcollecting.vote (v := v) hawaiting.ne_zero hawaiting.once
    hawaiting.unvoted (by rwa [Manager.votersOf_singleton hv])
  rw [Manager.votersOf_singleton hv] at hcollecting'
  have hk : (σ n).place = some k := by rw [hσ]; rfl
  refine ⟨?_, ?_, h.bystanders, Or.inl ⟨hup.trans hcounting.up,
    hflag.trans hcounting.flag, ?_, ?_, ⟨n', hn', ?_⟩, ns ++ [v.nodeId],
    fun n'' hn'' => ?_, hcollecting'⟩, fun k' hk' => ?_, ?_⟩
  · exact h.posted.step hn hk (delivers_concat ha) (Or.inl ⟨hsent, rfl⟩)
  · -- the voter keeps waiting, counted or not
    have hstands := h.participants n hn
    rw [hσ] at hstands
    exact (Function.forall_update_iff σ fun n'' ph' =>
      n'' ∈ Manager.voters s₀.manager.workerInfo i → ph'.Stands t (s₀.workers n'') (s.workers n'')).mpr
      ⟨fun _ => hstands, fun n'' _ => h.participants n''⟩
  · obtain ⟨r, hr⟩ := hcounting.log
    exact ⟨r, hlog.trans hr⟩
  · exact (Function.forall_update_iff σ fun n'' ph' =>
      n'' ∈ Manager.voters s₀.manager.workerInfo i → ph'.Open).mpr
      ⟨fun _ => trivial, fun n'' _ => hcounting.isOpen n''⟩
  · rwa [Function.update_of_ne hne]
  · rw [List.mem_append, List.mem_singleton, hid, hns n'' hn'']
    by_cases hnn : n'' = n
    · simp [hnn]
    · rw [Function.update_of_ne hnn]
      exact or_iff_left hnn
  · refine (h.others k' hk').trans (Manager.sameSlot_of_other ?_)
    rw [hv]
    exact fun heq => hk' ((hcollecting.slot k').mp heq)
  · have htotal := total_update (Manager.nodup_voters hawaiting.once) hn .counted (σ := σ)
    have hcount := h.count
    simp only [hσ, Phase.remaining] at htotal
    rw [List.length_append, List.length_singleton]
    omega

/-- The manager handles the last vote. -/
theorem Completing.decided (h : Completing cfg s₀ t i σ as s) (hready : Ready cfg s₀ t i)
    (hn : n ∈ Manager.voters s₀.manager.workerInfo i) (hσ : σ n = .voted k) (ha : place a = some k)
    (hv : v.tid = t) (hid : v.nodeId = n) (hcounting : Counting s₀ t i σ s.manager)
    (hall : ∀ n' ∈ Manager.voters s₀.manager.workerInfo i, n' ≠ n → σ n' = .counted) :
    Completing cfg s₀ t i
      (fun n' => .told (s.net.length + (Manager.voters s₀.manager.workerInfo i).idxOf n'))
      (as ++ [a]) (s.managerStep v.act) := by
  obtain ⟨ns, hns, hcollecting⟩ := hcounting.votes
  have hawaiting := hready.awaiting
  have hnodup := Manager.nodup_voters hawaiting.once
  have hall' : ∀ n', Manager.Voter s₀.manager.workerInfo i n' → n' ∈ ns ++ [v.nodeId] := by
    intro n' hn'
    rw [List.mem_append, List.mem_singleton, hid]
    by_cases hnn : n' = n
    · exact Or.inr hnn
    · have hmem := Manager.mem_voters.mpr hn'
      exact Or.inl ((hns n' hmem).mpr (hall n' hmem hnn))
  obtain ⟨hlog, hsent⟩ := hcollecting.vote_decides hv hawaiting.once hready.seated hall'
    hawaiting.someone hcounting.flag
  obtain ⟨-, -, hcleared⟩ := hcollecting.decides hawaiting.ne_zero hawaiting.once hv hall'
    hawaiting.someone hcounting.flag
  have hk : (σ n).place = some k := by rw [hσ]; rfl
  obtain ⟨hbase, -, p, hp, -⟩ := h.posted.owned n hn k hk
  have hlt : k < s.net.length := (List.getElem?_eq_some_iff.mp hp).1
  refine ⟨?_, fun n' hn' => ?_, h.bystanders, Or.inr ⟨?_, hcleared, fun n' hn' => id⟩, fun k' hk' => ?_, ?_⟩
  · refine posted_broadcast hnodup hsent (fun _ => rfl) (fun _ _ _ => ⟨_, rfl⟩)
      (hbase.trans hlt.le) ?_ ?_
    · intro k' hk'
      rcases (delivers_concat ha k').mp hk' with hk' | rfl
      · exact h.posted.past k' hk'
      · exact hlt
    · -- what is under way is the last vote alone
      intro k' hbase hk'
      refine (delivers_concat ha k').mpr ?_
      rcases h.posted.covered k' hbase hk' with hdelivered | ⟨n', hn', hplace⟩
      · exact Or.inl hdelivered
      · by_cases hnn : n' = n
        · subst hnn
          exact Or.inr (Option.some.inj (hplace.symm.trans hk))
        · rw [hall n' hn' hnn] at hplace
          cases hplace
  · have hstands := h.participants n' hn'
    by_cases hnn : n' = n
    · subst hnn
      rw [hσ] at hstands
      exact hstands
    · rw [hall n' hn' hnn] at hstands
      exact hstands
  · obtain ⟨r, hr⟩ := hcounting.log
    refine ⟨r, v.nodeId, hlog.trans ?_⟩
    rw [hr, List.append_assoc]
    rfl
  · refine (h.others k' hk').trans (Manager.sameSlot_of_other ?_)
    rw [hv]
    exact fun heq => hk' ((hcollecting.slot k').mp heq)
  · -- with the last vote counted one delivery is left for each participant, as is once all are told
    have htotal := total_update hnodup hn .counted (σ := σ)
    have hone : total (Manager.voters s₀.manager.workerInfo i) (Function.update σ n .counted) =
        (Manager.voters s₀.manager.workerInfo i).length * 1 := by
      refine total_of_forall fun n' hn' => ?_
      by_cases hnn : n' = n
      · rw [hnn, Function.update_self]
        rfl
      · rw [Function.update_of_ne hnn, hall n' hn' hnn]
        rfl
    have htold : total (Manager.voters s₀.manager.workerInfo i)
        (fun n' => .told (s.net.length + (Manager.voters s₀.manager.workerInfo i).idxOf n')) =
        (Manager.voters s₀.manager.workerInfo i).length * 1 := total_of_forall fun _ _ => rfl
    have hcount := h.count
    simp only [hσ, Phase.remaining] at htotal
    rw [List.length_append, List.length_singleton]
    omega

/-- **Step lemma**: a vote is counted, or ends the count. -/
theorem Completing.voted (h : Completing cfg s₀ t i σ as s) (hready : Ready cfg s₀ t i)
    (hn : n ∈ Manager.voters s₀.manager.workerInfo i) (hσ : σ n = .voted k) (ha : place a = some k)
    (henabled : enabled cfg s a) : ∃ σ', Completing cfg s₀ t i σ' (as ++ [a]) (next cfg s a) := by
  have hk : (σ n).place = some k := by rw [hσ]; rfl
  obtain ⟨-, -, p, hp, hcarries⟩ := h.posted.owned n hn k hk
  rw [hσ] at hcarries
  obtain ⟨⟨msgID, tid, nodeId, isCrash, vc⟩, rfl, htid, hid, rfl, rfl⟩ := hcarries
  obtain ⟨u, hnext⟩ := next_of_toManager ha hp henabled
  -- a participant that has voted shows that the count is not over
  have hcounting : Counting s₀ t i σ s.manager := by
    refine h.manager.resolve_right fun hdecided => hdecided.told n hn ?_
    rw [hσ]
    trivial
  rw [hnext]
  by_cases hall : ∀ n' ∈ Manager.voters s₀.manager.workerInfo i, n' ≠ n → σ n' = .counted
  · exact ⟨_, h.decided hready hn hσ ha (v := ⟨_, tid, nodeId, vc, u⟩) htid hid hcounting hall⟩
  · push Not at hall
    exact ⟨_, h.counted hready hn hσ ha (v := ⟨_, tid, nodeId, vc, u⟩) htid hid hcounting hall⟩

/-- **Step lemma**: every datagram that has not been delivered takes the commit on. -/
theorem Completing.step (h : Completing cfg s₀ t i σ as s) (hready : Ready cfg s₀ t i)
    (ha : place a = some k) (hbase : s₀.net.length ≤ k) (hnew : ¬ Delivers as k)
    (henabled : enabled cfg s a) : ∃ σ', Completing cfg s₀ t i σ' (as ++ [a]) (next cfg s a) := by
  -- somebody waits for the datagram, and its phase says what it is
  obtain ⟨n, hn, hk⟩ :=
    (h.posted.covered k hbase (lt_length_of_place ha henabled)).resolve_left hnew
  cases hσ : σ n with
  | asked k' =>
    rw [hσ] at hk
    obtain rfl := Option.some.inj hk
    exact ⟨_, h.asked hready hn hσ ha henabled⟩
  | voted k' =>
    rw [hσ] at hk
    obtain rfl := Option.some.inj hk
    exact h.voted hready hn hσ ha henabled
  | told k' =>
    rw [hσ] at hk
    obtain rfl := Option.some.inj hk
    exact ⟨_, h.told hready hn hσ ha henabled⟩
  | counted | done =>
    rw [hσ] at hk
    cases hk

/-- The request starts it. -/
theorem completing_request (hready : Ready cfg s t i) (src : SockAddr) {m : TxMessage}
    (u : Manager.Uninit) (hk : m.msgID = .commit) (ht : m.tid = t) :
    Completing cfg s t i
      (fun n => .asked (s.net.length + (Manager.voters s.manager.workerInfo i).idxOf n)) []
      (s.managerStep ⟨.message src m u, none⟩) := by
  subst ht
  have hawaiting := hready.awaiting
  obtain ⟨hlog, htable, hup⟩ := Manager.exec_request s.manager src u hk
  have hsent := Manager.packets_request src u hk hawaiting.slot hready.seated
  have htable' : (s.managerStep ⟨.message src m u, none⟩).manager.workerInfo = s.manager.workerInfo := htable
  refine ⟨?_, fun n _ => rfl, fun n _ => rfl, Or.inl ⟨hup.trans hready.up, ?_, ⟨m.nodeId, hlog⟩,
    fun n _ => trivial, ?_, [], fun n _ => by simp, fun k => ?_, ?_⟩, fun k _ => ?_, ?_⟩
  · refine posted_broadcast (Manager.nodup_voters hawaiting.once) hsent (fun _ => rfl)
      (fun _ _ _ => ⟨_, rfl⟩) (le_refl _) ?_ fun k hbase hlt => absurd hlt (not_lt.mpr hbase)
    exact fun k hk => absurd hk List.not_mem_nil
  · rw [htable']
    exact hready.flag
  · obtain ⟨n, hn⟩ := hawaiting.someone
    exact ⟨n, Manager.mem_voters.mpr hn, by simp⟩
  · rw [htable']
    exact hawaiting.slot k
  · exact (Manager.VotedBy.refl _ i).congr (congrArg (fun T : Table => (T i).workers) htable')
  · exact ⟨by rw [htable'], by rw [htable']⟩
  · rw [total_of_forall (r := 3) fun _ _ => rfl, List.length_nil]
    omega

/-- **Run lemma**: fresh datagrams, each delivered once. -/
theorem Completing.run (h : Completing cfg s₀ t i σ [] s) (hready : Ready cfg s₀ t i)
    (hrun : (machine cfg).Along (enabled cfg) s as)
    (hfresh : ∀ a ∈ as, ∃ k, place a = some k ∧ s₀.net.length ≤ k) (hnodup : (as.map place).Nodup) :
    ∃ σ', Completing cfg s₀ t i σ' as ((machine cfg).after s as) := by
  -- from the end, as the places delivered so far are those of the whole prefix
  induction as using List.reverseRecOn with
  | nil => exact ⟨σ, h⟩
  | append_singleton as a ih =>
    obtain ⟨hbefore, henabled⟩ := Machine.along_concat.mp hrun
    rw [List.map_append] at hnodup
    obtain ⟨σ', h'⟩ := ih hbefore (fun b hb => hfresh b (List.mem_append_left _ hb))
      hnodup.of_append_left
    obtain ⟨k, hk, hbase⟩ := hfresh a (by simp)
    have hnew : ¬ Delivers as k := by
      intro hdelivered
      exact List.disjoint_of_nodup_append hnodup hdelivered (by simp [hk])
    rw [Machine.after_append]
    exact h'.step hready hk hbase hnew henabled

/-- What is under way can be delivered. -/
theorem Completing.enabled_of_place (h : Completing cfg s₀ t i σ as s) (hready : Ready cfg s₀ t i)
    (hn : n ∈ Manager.voters s₀.manager.workerInfo i) (hk : (σ n).place = some k) :
    ∃ a, place a = some k ∧ enabled cfg s a := by
  obtain ⟨-, -, p, hp, hcarries⟩ := h.posted.owned n hn k hk
  have hstands := h.participants n hn
  have hzero := (Manager.mem_voters.mp hn).1
  cases hσ : σ n with
  | asked k' =>
    rw [hσ] at hcarries hstands
    obtain ⟨vc, rfl⟩ := hcarries
    refine ⟨.worker n ⟨.deliver k, none⟩, rfl, hzero,
      .manager cfg.managerAddr (Manager.constructMessage .prepareCommit t n vc), by simp [workerInput, hp], ?_⟩
    rw [show s.workers n = s₀.workers n from hstands]
    simp [Worker.accepts, (hready.willing n hn).control]
  | voted k' =>
    rw [hσ] at hcarries
    obtain ⟨m, -, -, -, -, rfl⟩ := hcarries
    refine ⟨.manager ⟨.deliver k {}, none⟩, rfl, .message (cfg.workerAddr n) m {},
      by simp [managerInput, hp], ?_⟩
    refine (h.manager.resolve_right fun hdecided => hdecided.told n hn ?_).up
    rw [hσ]
    trivial
  | told k' =>
    rw [hσ] at hcarries hstands
    obtain ⟨vc, rfl⟩ := hcarries
    obtain ⟨addr, hwaiting⟩ := Worker.Waits.waiting hstands
    refine ⟨.worker n ⟨.deliver k, none⟩, rfl, hzero,
      .manager cfg.managerAddr (Manager.constructMessage .decideCommit t n vc), by simp [workerInput, hp], ?_⟩
    simp [Worker.accepts, hwaiting]
  | counted | done =>
    rw [hσ] at hk
    cases hk

/-- As long as deliveries are to come, one is possible. -/
theorem Completing.progress (h : Completing cfg s₀ t i σ as s) (hready : Ready cfg s₀ t i)
    (htotal : total (Manager.voters s₀.manager.workerInfo i) σ ≠ 0) :
    ∃ a k, place a = some k ∧ s₀.net.length ≤ k ∧ ¬ Delivers as k ∧ enabled cfg s a := by
  obtain ⟨n, hn, k, hk⟩ : ∃ n ∈ Manager.voters s₀.manager.workerInfo i, ∃ k, (σ n).place = some k := by
    rcases h.manager with hcounting | hdecided
    · -- somebody has not been counted, and nobody has been told
      obtain ⟨n, hn, hmissing⟩ := hcounting.missing
      have hopen := hcounting.isOpen n hn
      cases hσ : σ n with
      | asked k | voted k => exact ⟨n, hn, k, by rw [hσ]; rfl⟩
      | counted => exact absurd hσ hmissing
      | told k | done =>
        rw [hσ] at hopen
        exact hopen.elim
    · -- everybody has been told, and who has no datagram to come is done
      by_contra hnone
      push Not at hnone
      refine htotal ((total_of_forall (r := 0) fun n hn => ?_).trans (Nat.mul_zero _))
      have htold := hdecided.told n hn
      cases hσ : σ n with
      | asked k | voted k | told k => exact absurd (by rw [hσ]; rfl) (hnone n hn k)
      | counted =>
        rw [hσ] at htold
        exact absurd trivial htold
      | done => rfl
  obtain ⟨a, ha, henabled⟩ := h.enabled_of_place hready hn hk
  obtain ⟨hbase, hnew, -⟩ := h.posted.owned n hn k hk
  exact ⟨a, k, ha, hbase, hnew, henabled⟩

/-- When none is to come, the transaction is committed. -/
theorem Completing.committed (h : Completing cfg s₀ t i σ as s)
    (htotal : total (Manager.voters s₀.manager.workerInfo i) σ = 0) : Committed s₀ t i s := by
  have hdone : ∀ n ∈ Manager.voters s₀.manager.workerInfo i, σ n = .done := by
    intro n hn
    have hzero : (σ n).remaining = 0 :=
      List.sum_eq_zero_iff_forall_eq_nat.mp htotal _ (List.mem_map.mpr ⟨n, hn, rfl⟩)
    cases hσ : σ n with
    | done => rfl
    | _ =>
      rw [hσ] at hzero
      cases hzero
  -- as long as the manager counts, somebody is not done
  have hdecided : Decided s₀ t i σ s.manager := by
    refine h.manager.resolve_left fun hcounting => ?_
    obtain ⟨n, hn, -⟩ := hcounting.missing
    have hopen := hcounting.isOpen n hn
    rw [hdone n hn] at hopen
    exact hopen
  refine ⟨hdecided.log, hdecided.cleared, h.others, fun n hn => ?_, h.bystanders⟩
  have hstands := h.participants n hn
  rw [hdone n hn] at hstands
  exact hstands

/-- Workers 1 and 2 have joined transaction 1, and worker 1 has asked to commit it. -/
def bothJoined : System :=
  (machine smallConfig).after (start smallConfig)
    [command 1 .begintx, toManager 0, command 1 .jointx, toManager 2, toWorker 1 3, command 2 .jointx,
      toManager 4, toWorker 2 5, command 1 .commit]

end System

end DistributedSystem.Transaction
