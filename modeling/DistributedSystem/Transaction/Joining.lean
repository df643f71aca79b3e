import DistributedSystem.Transaction.Tally

/-!
# Joining twice

`saveWorkerInfo` enters a `JOIN` at the first free port of the slot and does not look whether
the node id is there already; `collectVote` enters a vote at the first entry with the node id.
A worker that is listed twice therefore votes for one entry only, and the count waits for the
other. The list stays free of repetitions exactly when no `JOIN` of a run repeats one.
-/

namespace DistributedSystem.Transaction

open DistributedSystem.Library

namespace Manager

variable {s x : Manager} {e : ManagerEffect} {es : List ManagerEffect} {T : Table} {t : Tid}
  {src : SockAddr} {m : TxMessage} {u : Uninit} {i k : Fin maxTrans} {j l : Fin maxNodes}
  {n : NodeId} {a : Act Input} {votes : List TxMessage} {c : MsgId}

/-! ## What a repeated JOIN must not spoil -/

/-- `votes` holds one `VOTE_COMMIT` for `t` from each participant in slot `i`. -/
structure OneVoteEach (s : Manager) (t : Tid) (i : Fin maxTrans) (votes : List TxMessage) : Prop where
  kind : ∀ m ∈ votes, m.msgID = .voteCommit ∧ m.tid = t
  voters : ∀ n, n ∈ votes.map (·.nodeId) ↔ Voter s.workerInfo i n
  nodup : (votes.map (·.nodeId)).Nodup

/-- The state after `collectVote` has entered some votes. -/
def collected (s : Manager) (votes : List TxMessage) : Manager :=
  votes.foldl (fun s m => process.exec s (s.collectVote m .wait).2) s

/-- Every participant list holds each node id once, and one vote of each participant makes
    `collectVote` decide to commit. -/
structure JoinsOnce (s : Manager) : Prop where
  listed : ∀ i, ListedOnce s.workerInfo i
  enough : ∀ t i votes m c, findSlot s.workerInfo t = some i → s.OneVoteEach t i (votes ++ [m]) →
    ((s.collected votes).collectVote m c).1 = .decideCommit

/-! ## Where a JOIN is entered -/

/-- The slot that a `JOIN` for `t` is entered into. -/
def joinSlot (T : Table) (t : Tid) (index : ℕ) : Option (Fin maxTrans) :=
  match firstMatch T t with
  | some i => if (T i).tid = t then some i else none
  | none => if h : index < maxTrans then some ⟨index, h⟩ else none

/-- The first entry of slot `i` without a port. -/
def freeEntry (T : Table) (i : Fin maxTrans) : Option (Fin maxNodes) :=
  firstFin fun j => ((T i).workers j).port = 0

/-- The step enters the node id `n` at entry `j` of slot `i`: it handles a `JOIN` that finds
    this slot and this entry, at least up to the write of the node id. -/
def Enters (s : Manager) (a : Act Input) (i : Fin maxTrans) (j : Fin maxNodes) (n : NodeId) : Prop :=
  ∃ src m u, a.input = .message src m u ∧ m.msgID = .jointx ∧ m.nodeId = n ∧
    joinSlot s.workerInfo m.tid u.index = some i ∧ freeEntry s.workerInfo i = some j ∧
    ∀ k, a.cut = some k → 5 < k

/-- The step does not enter a node id that another entry of the slot has. -/
def FreshJoin (s : Manager) (a : Act Input) : Prop :=
  ∀ i j n, s.Enters a i j n → n ≠ 0 → ∀ l, ((s.workerInfo i).workers l).nodeId = n → l = j

theorem saveWorkerInfo_join_eq (T : Table) (p : ℕ) (t : Tid) (n : NodeId) (addr : SockAddr)
    (index : ℕ) :
    (saveWorkerInfo T p t .jointx n addr index).2 =
      match joinSlot T t index with
      -- the first match may be a free slot, which a `JOIN` does not take
      | some i => addWorker T i p n addr
      -- no slot matches: the index of the caller decides, and may lie outside the table
      | none => [] := by
  cases hfirst : firstMatch T t with
  | none =>
    by_cases hindex : index < maxTrans
    · simp only [joinSlot, hfirst, hindex, dite_true]
      unfold firstMatch at hfirst
      rw [saveWorkerInfo, hfirst]
      simp [hindex]
    · simp only [joinSlot, hfirst, hindex, dite_false]
      unfold firstMatch at hfirst
      rw [saveWorkerInfo, hfirst]
      simp [hindex]
  | some i =>
    by_cases ht : (T i).tid = t
    · simp [joinSlot, hfirst, ht, saveWorkerInfo_of_match hfirst]
    · simp [joinSlot, hfirst, ht, saveWorkerInfo_of_match hfirst]

theorem addWorker_eq (T : Table) (i : Fin maxTrans) (p : ℕ) (n : NodeId) (addr : SockAddr) :
    addWorker T i p n addr =
      match freeEntry T i with
      | some j => [.port i j p, .nodeId i j n, .workerAddr i j addr]
      | none => [] := rfl

/-! ## Writes of node ids -/

/-- The effect writes the node id of an entry. -/
def IsNodeId (e : ManagerEffect) : Prop := ∃ i j n, e = .nodeId i j n

theorem nodeId_apply (h : ¬ IsNodeId e) (k : Fin maxTrans) (l : Fin maxNodes) :
    (((s.apply e).workerInfo k).workers l).nodeId = ((s.workerInfo k).workers l).nodeId := by
  rw [workers_apply]
  cases e with
  | nodeId i j n => exact absurd ⟨i, j, n, rfl⟩ h
  | port | workerAddr | voteYes =>
    simp only
    split <;> rfl
  | _ => rfl

theorem nodeId_exec (h : ∀ e ∈ es, ¬ IsNodeId e) (k : Fin maxTrans) (l : Fin maxNodes) :
    (((process.exec s es).workerInfo k).workers l).nodeId = ((s.workerInfo k).workers l).nodeId :=
  Process.exec_unchanged (fun x : Manager => ((x.workerInfo k).workers l).nodeId)
    fun _ e he => nodeId_apply (h e he) k l

/-- A node id was there before or is written. -/
theorem nodeId_exec_cases (es : List ManagerEffect) (k : Fin maxTrans) (l : Fin maxNodes) :
    (((process.exec s es).workerInfo k).workers l).nodeId = ((s.workerInfo k).workers l).nodeId ∨
      .nodeId k l (((process.exec s es).workerInfo k).workers l).nodeId ∈ es := by
  refine Process.exec_invariant (P := process) (I := fun x : Manager =>
    ((x.workerInfo k).workers l).nodeId = ((s.workerInfo k).workers l).nodeId ∨
      .nodeId k l ((x.workerInfo k).workers l).nodeId ∈ es) (Or.inl rfl) fun x e he hx => ?_
  rw [process_apply]
  -- only the last write of a node id matters, and it is one of the list
  by_cases hnode : IsNodeId e
  · obtain ⟨i, j, n, rfl⟩ := hnode
    rw [workers_apply]
    by_cases hkl : k = i ∧ l = j
    · obtain ⟨rfl, rfl⟩ := hkl
      exact Or.inr (by simpa using he)
    · simpa only [if_neg hkl] using hx
  · rw [nodeId_apply hnode]
    exact hx

theorem not_isNodeId_of_isBookkeeping (h : e.isBookkeeping) : ¬ IsNodeId e := by
  rintro ⟨i, j, n, rfl⟩
  cases h

theorem eq_zero_of_mem_clean (h : .nodeId i j n ∈ cleanWorkerInfo T t) : n = 0 := by
  obtain ⟨k, -, h | h | ⟨l, h | h | h⟩⟩ := mem_cleanWorkerInfo h
  · exact absurd h (by simp)
  · exact absurd h (by simp)
  · -- the only node id that is written here is that of an emptied entry
    exact (ManagerEffect.nodeId.inj h).2.2
  · exact absurd h (by simp)
  · exact absurd h (by simp)

theorem eq_zero_of_mem_announce {d : MsgId} (h : .nodeId i j n ∈ s.announce m d) : n = 0 := by
  rcases mem_announce h with h | h | h | ⟨k, b, h⟩ | h | ⟨w, -, n', vc, h⟩
  · exact absurd h (by simp)
  · exact eq_zero_of_mem_clean h
  · exact absurd ⟨i, j, n, rfl⟩ (not_isNodeId_of_isBookkeeping h)
  · exact absurd h (by simp)
  · exact absurd h (by simp)
  · exact absurd h (by simp)

theorem not_mem_sendLoop {port r : NodeId} {vc : VClock} {ws : List (Tid × W)} :
    .nodeId i j n ∉ sendLoop port c r vc ws := by
  intro h
  rcases mem_sendLoop h with h | ⟨w, -, n', vc', h⟩
  · exact not_isNodeId_of_isBookkeeping h ⟨i, j, n, rfl⟩
  · exact absurd h (by simp)

theorem not_mem_reply {vc : VClock} : .nodeId i j n ∉ reply src m c vc := by
  intro h
  rcases mem_reply h with h | h
  · exact not_isNodeId_of_isBookkeeping h ⟨i, j, n, rfl⟩
  · exact absurd h (by simp)

theorem eq_zero_of_mem_vote (h : .nodeId i j n ∈ s.handleVote src m u) : n = 0 := by
  have hno : ∀ d, .nodeId i j n ∉ sendTo s.port (s.receivedClock m) src d m.tid m.nodeId := by
    intro d h
    rcases mem_sendTo h with h | ⟨vc, h⟩
    · exact not_isNodeId_of_isBookkeeping h ⟨i, j, n, rfl⟩
    · exact absurd h (by simp)
  rcases mem_handleVote h with ⟨k, b, h⟩ | h | ⟨-, -, h⟩ | ⟨-, -, h⟩ | ⟨-, h⟩
  · exact absurd h (by simp)
  · obtain ⟨k, l, -, -, h⟩ := mem_collectVote h
    exact absurd h (by simp)
  · exact absurd h (hno _)
  · exact eq_zero_of_mem_announce h
  · exact absurd h (hno _)

/-- **The writers of node ids**: an entry is cleared, or a `JOIN` is entered. -/
theorem nodeId_mem_handle {inp : Input} (h : .nodeId i j n ∈ s.handle inp) :
    n = 0 ∨ ∃ src m u, inp = .message src m u ∧ m.msgID = .jointx ∧ m.nodeId = n ∧
      joinSlot s.workerInfo m.tid u.index = some i ∧ freeEntry s.workerInfo i = some j := by
  cases inp with
  | timeout =>
    simp only [handle, voteTimeout] at h
    split at h
    · simp only [List.mem_append, List.mem_cons, List.not_mem_nil, reduceCtorEq, or_false,
        false_or] at h
      rcases h with h | h
      · exact absurd h not_mem_sendLoop
      · exact Or.inl (eq_zero_of_mem_clean h)
    · simp at h
  | restart =>
    simp only [handle, restart, List.mem_append, List.mem_cons, List.not_mem_nil, reduceCtorEq,
      or_false, false_or] at h
    exact absurd h not_mem_sendLoop
  | message src m u =>
    simp only [handle, handleWorkerMsg, List.mem_append] at h
    rcases h with h | h
    · exact absurd ⟨i, j, n, rfl⟩ (not_isNodeId_of_isBookkeeping (mem_receive h))
    split at h
    · -- BEGINTX
      rename_i hk
      simp only [handleBegin, List.mem_append, List.mem_cons, List.not_mem_nil, reduceCtorEq,
        or_false] at h
      rcases h with h | h
      · -- a `BEGINTX` writes the id of a slot and no entry
        rcases mem_saveWorkerInfo h with ⟨-, k, -, -, h⟩ | ⟨hj, -⟩
        · exact absurd h (by simp)
        · exact absurd (hk.symm.trans hj) (by simp)
      · exact absurd h not_mem_reply
    · -- JOINTX
      rename_i hk
      simp only [handleJoin, hk, List.mem_append, List.mem_cons, List.not_mem_nil, reduceCtorEq,
        or_false] at h
      rcases h with h | h
      · -- the entry that `addWorker` writes
        rw [saveWorkerInfo_join_eq] at h
        split at h
        · rename_i i' hslot
          rw [addWorker_eq] at h
          split at h
          · rename_i j' hfree
            simp only [List.mem_cons, List.not_mem_nil, reduceCtorEq, or_false, false_or] at h
            obtain ⟨rfl, rfl, rfl⟩ := ManagerEffect.nodeId.inj h
            exact Or.inr ⟨src, m, u, rfl, hk, rfl, hslot, hfree⟩
          · simp at h
        · simp at h
      · split at h
        · exact absurd h not_mem_reply
        · rcases List.mem_cons.mp h with h | h
          · exact absurd h (by simp)
          · exact absurd h not_mem_reply
    · -- COMMIT
      simp only [handleCommit, List.mem_cons, reduceCtorEq, false_or] at h
      exact absurd h not_mem_sendLoop
    · exact Or.inl (eq_zero_of_mem_vote h)
    · exact Or.inl (eq_zero_of_mem_vote h)
    · -- VOTE_ABORT
      simp only [handleVoteAbort, List.mem_append] at h
      rcases h with h | h
      · obtain ⟨k, b, h⟩ := mem_crashFlag h
        exact absurd h (by simp)
      · exact Or.inl (eq_zero_of_mem_announce h)
    · simp at h

/-- The effects of a `JOIN` that is entered: five, then the node id. -/
theorem handle_entered (src : SockAddr) (u : Uninit) (hk : m.msgID = .jointx)
    (hslot : joinSlot s.workerInfo m.tid u.index = some i)
    (hfree : freeEntry s.workerInfo i = some j) :
    ∃ before after, s.handle (.message src m u) = before ++ .nodeId i j m.nodeId :: after ∧
      before.length = 5 ∧ (∀ e ∈ before, ¬ IsNodeId e) ∧ ∀ e ∈ after, ¬ IsNodeId e := by
  have hsaved : (saveWorkerInfo s.workerInfo src.port m.tid .jointx m.nodeId src u.index).2 =
      [.port i j src.port, .nodeId i j m.nodeId, .workerAddr i j src] := by
    simp only [saveWorkerInfo_join_eq, hslot, addWorker_eq, hfree]
  -- after the three writes of the entry only the reply is sent
  obtain ⟨rest, hhandle, hrest⟩ : ∃ rest, s.handle (.message src m u) = s.receive m ++
      ([.port i j src.port, .nodeId i j m.nodeId, .workerAddr i j src] ++ rest) ∧
      ∀ e ∈ rest, ¬ IsNodeId e := by
    refine ⟨_, (handle_join s src u hk).trans (by rw [hsaved]), ?_⟩
    rintro e he ⟨k, l, n, rfl⟩
    simp only [List.cons_append, List.nil_append, List.mem_cons, reduceCtorEq, false_or] at he
    split at he
    · exact not_mem_reply he
    · rcases List.mem_cons.mp he with he | he
      · exact absurd he (by simp)
      · exact not_mem_reply he
  -- four effects of the reception and the port stand before the node id
  refine ⟨s.receive m ++ [.port i j src.port], .workerAddr i j src :: rest, ?_, by simp [receive],
    fun e he => ?_, fun e he => ?_⟩
  · rw [hhandle]
    simp
  · rcases List.mem_append.mp he with he | he
    · exact not_isNodeId_of_isBookkeeping (mem_receive he)
    · rw [List.mem_singleton.mp he]
      simp [IsNodeId]
  · rcases List.mem_cons.mp he with rfl | he
    · simp [IsNodeId]
    · exact hrest e he

/-- A step that enters a node id writes no other. -/
theorem Enters.performed (h : s.Enters a i j n) :
    ∃ before after, process.performed s a = before ++ .nodeId i j n :: after ∧
      (∀ e ∈ before, ¬ IsNodeId e) ∧ ∀ e ∈ after, ¬ IsNodeId e := by
  obtain ⟨src, m, u, hinput, hk, rfl, hslot, hfree, hcut⟩ := h
  obtain ⟨before, after, heq, hlen, hbefore, hafter⟩ :=
    handle_entered src u hk hslot hfree
  unfold Process.performed
  rw [process_handler, hinput, heq]
  cases hk : a.cut with
  | none => exact ⟨before, after, rfl, hbefore, hafter⟩
  | some k =>
    -- the cut lies behind the node id
    obtain ⟨d, rfl⟩ := Nat.exists_eq_add_of_lt (hcut k hk)
    refine ⟨before, after.take d ++ [.exit], ?_, hbefore, fun e he => ?_⟩
    · have hd : 5 + d + 1 - before.length = d + 1 := by omega
      have hall : before.take (5 + d + 1) = before := List.take_of_length_le (by omega)
      simp [List.take_append, hd, hall]
    · rcases List.mem_append.mp he with he | he
      · exact hafter e (List.mem_of_mem_take he)
      · rw [List.mem_singleton.mp he]
        simp [IsNodeId]

/-- A step that writes a node id enters it. -/
theorem enters_of_mem_performed (h : .nodeId i j n ∈ process.performed s a) (hn : n ≠ 0) :
    s.Enters a i j n := by
  have hhandle : .nodeId i j n ∈ s.handle a.input := by
    rcases Process.mem_performed h with h | h
    · exact h
    · exact absurd h (by simp)
  obtain ⟨src, m, u, hinput, hk, rfl, hslot, hfree⟩ := (nodeId_mem_handle hhandle).resolve_left hn
  refine ⟨src, m, u, hinput, hk, rfl, hslot, hfree, fun k hcut => ?_⟩
  -- a cut before the node id would have left it out
  by_contra hle
  obtain ⟨before, after, heq, hlen, hbefore, -⟩ :=
    handle_entered src u hk hslot hfree
  unfold Process.performed at h
  rw [process_handler, hinput, heq, hcut] at h
  rcases List.mem_append.mp h with h | h
  · rw [List.take_append_of_le_length (by omega)] at h
    exact hbefore _ (List.mem_of_mem_take h) ⟨i, j, _, rfl⟩
  · exact absurd (List.mem_singleton.mp h) (by simp)

/-! ## One step -/

/-- The node ids of a slot after a step that enters one. -/
theorem Enters.nodeId (h : s.Enters a i j n) (l : Fin maxNodes) :
    (((process.step s a).workerInfo i).workers l).nodeId =
      if l = j then n else ((s.workerInfo i).workers l).nodeId := by
  obtain ⟨before, after, heq, hbefore, hafter⟩ := h.performed
  unfold Process.step
  rw [heq, Process.exec_append, Process.exec_cons, nodeId_exec hafter, process_apply, workers_apply]
  by_cases hl : l = j
  · simp [hl]
  · simpa [hl] using nodeId_exec hbefore i l

/-- **Step lemma**: the lists stay free of repetitions if the step does not repeat a node id. -/
theorem listedOnce_step (hs : ∀ i, ListedOnce s.workerInfo i) (h : s.FreshJoin a)
    (i : Fin maxTrans) : ListedOnce (process.step s a).workerInfo i := by
  -- where a node id stands after the step, it stood before, or it has been entered
  have hcases : ∀ l, (((process.step s a).workerInfo i).workers l).nodeId ≠ 0 →
      (((process.step s a).workerInfo i).workers l).nodeId = ((s.workerInfo i).workers l).nodeId ∨
        s.Enters a i l (((process.step s a).workerInfo i).workers l).nodeId := by
    intro l hne
    rcases nodeId_exec_cases (process.performed s a) i l with hold | hnew
    · exact Or.inl hold
    · exact Or.inr (enters_of_mem_performed hnew hne)
  intro j j' hjj' hne
  -- of two entries with the same id, both are old, one is new, or both are
  have hne' : (((process.step s a).workerInfo i).workers j').nodeId ≠ 0 := by
    rw [← hjj']
    exact hne
  rcases hcases j hne with hj | hj
  · rcases hcases j' hne' with hj' | hj'
    · refine hs i j j' (hj.symm.trans (hjj'.trans hj')) ?_
      rw [← hj]
      exact hne
    · exact h i j' _ hj' hne' j (hj.symm.trans hjj')
  · rcases hcases j' hne' with hj' | hj'
    · exact (h i j _ hj hne j' (hj'.symm.trans hjj'.symm)).symm
    · -- a step enters one node id only
      obtain ⟨-, -, -, -, -, -, -, hfree, -⟩ := hj
      obtain ⟨-, -, -, -, -, -, -, hfree', -⟩ := hj'
      exact Option.some.inj (hfree.symm.trans hfree')

/-- A step that repeats a node id spoils the list. -/
theorem freshJoin_of_listedOnce (hs : ∀ i, ListedOnce (process.step s a).workerInfo i) :
    s.FreshJoin a := by
  intro i j n henters hn l hl
  by_contra hlj
  refine hlj (hs i l j ?_ ?_)
  · rw [henters.nodeId, henters.nodeId, if_neg hlj, if_pos rfl, hl]
  · rw [henters.nodeId, if_neg hlj, hl]
    exact hn

/-! ## One vote of each participant -/

theorem collected_concat (s : Manager) (votes : List TxMessage) (m : TxMessage) :
    s.collected (votes ++ [m]) =
      process.exec (s.collected votes) ((s.collected votes).collectVote m .wait).2 := by
  simp only [collected, List.foldl_append, List.foldl_cons, List.foldl_nil]

/-- The votes that `collectVote` has entered. -/
theorem votedBy_collected (honce : ListedOnce s.workerInfo i) (hi : findSlot s.workerInfo t = some i)
    (hvotes : ∀ m ∈ votes, m.msgID = .voteCommit ∧ m.tid = t) :
    VotedBy s.workerInfo (s.collected votes).workerInfo i (votes.map (·.nodeId)) ∧
      findSlot (s.collected votes).workerInfo t = some i := by
  induction votes using List.reverseRecOn with
  | nil => exact ⟨VotedBy.refl _ _, hi⟩
  | append_singleton votes m ih =>
    -- the votes are entered from the left, so the induction takes the last one off
    obtain ⟨hvoted, hslot⟩ := ih fun m' hm' => hvotes m' (List.mem_append_left _ hm')
    obtain ⟨hkind, rfl⟩ := hvotes m (by simp)
    rw [collected_concat, collectVote_effects hslot, List.map_append]
    refine ⟨hvoted.record honce hkind, ?_⟩
    rw [findSlot_congr fun k => tid_exec_recordVote k, hslot]

theorem joinsOnce_of_listedOnce (hs : ∀ i, ListedOnce s.workerInfo i) : s.JoinsOnce := by
  refine ⟨hs, fun t i votes m c hi heach => ?_⟩
  obtain ⟨hkind, rfl⟩ := heach.kind m (by simp)
  obtain ⟨hvoted, hslot⟩ := votedBy_collected (hs i) hi fun m' hm' =>
    heach.kind m' (List.mem_append_left _ hm')
  -- the last vote is entered on top of the others, and then nobody is missing
  rw [collectVote_decision hslot]
  have hall := hvoted.record (hs i) hkind
  refine hall.commits (fun n hn => ?_) ⟨m.nodeId, (heach.voters _).mp (by simp)⟩
  have := (heach.voters n).mpr hn
  rwa [List.map_append] at this

/-! ## Runs -/

theorem listedOnce_start (port : NodeId) (i : Fin maxTrans) : ListedOnce (start port).workerInfo i :=
  fun _ _ _ hne => absurd rfl hne

/-- Every state of a run lists its participants once, and is decided by one vote of each,
    exactly when no step of the run enters a node id again. -/
theorem joins_once_iff_fresh (port : NodeId) (as : List (Act Input)) :
    process.machine.Along (fun s a => (process.step s a).JoinsOnce) (start port) as ↔
      process.machine.Along FreshJoin (start port) as := by
  constructor
  · intro h
    exact h.mono fun s a hstep => freshJoin_of_listedOnce hstep.listed
  · intro h
    refine h.strengthen (I := fun s => ∀ i, ListedOnce s.workerInfo i) (listedOnce_start port) ?_ ?_
    · intro s a hs hfresh
      exact listedOnce_step hs hfresh
    · intro s a hs hfresh
      exact joinsOnce_of_listedOnce (listedOnce_step hs hfresh)

/-- Worker 1 begins transaction 5 and its `JOIN` is delivered twice. -/
def twiceJoinedRun : List (Act Input) :=
  let m (msgID : MsgId) : Act Input :=
    ⟨.message ⟨0, 100⟩ { msgID, tid := 5, nodeId := 1, isCrash := false, vectorClock := emptyClock } {},
      none⟩
  [m .begintx, m .jointx, m .jointx]

/-- Worker 1 is listed twice, and its vote is not enough. -/
theorem not_joins_once :
    process.machine.Along process.machine.enabled (start 7) twiceJoinedRun ∧
      ¬ ListedOnce (process.machine.after (start 7) twiceJoinedRun).workerInfo 0 ∧
      ((process.machine.after (start 7) twiceJoinedRun).collectVote
        { msgID := .voteCommit, tid := 5, nodeId := 1, isCrash := false, vectorClock := emptyClock }
        (.other 0)).1 = .wait ∧
      ¬ process.machine.Along (fun s a => (process.step s a).JoinsOnce) (start 7) twiceJoinedRun := by
  have hlisted : ¬ ListedOnce (process.machine.after (start 7) twiceJoinedRun).workerInfo 0 := by
    decide +kernel
  refine ⟨by decide +kernel, hlisted, by decide +kernel, fun h => ?_⟩
  exact hlisted (h.invariant (I := fun s => ∀ i, ListedOnce s.workerInfo i) (listedOnce_start 7)
    (fun _ _ _ hstep => hstep.listed) 0)

end Manager

end DistributedSystem.Transaction
