import DistributedSystem.Transaction.TableMap

/-!
# What a completed handler does to the table

`tid_step` of the previous module covers the ids of the slots at every crash point. This
module follows the participants too, for handlers that run to their end: a slot is
cleared as a whole, or taken by a `BEGIN`, or keeps its transaction while single entries
are entered by a `JOIN` or written by a vote.
-/

namespace DistributedSystem.Transaction

open DistributedSystem.Library

/-- The effects that write an id or a participant. -/
def ManagerEffect.isSlotWrite : ManagerEffect → Bool
  | .tid _ _ | .nodeId _ _ _ | .port _ _ _ | .workerAddr _ _ _ | .voteYes _ _ _ => true
  | _ => false

/-- An entry without a worker and without a vote. -/
def W.Empty (w : W) : Prop := w.nodeId = 0 ∧ w.port = 0 ∧ w.voteYes = none

namespace Manager

variable {s x : Manager} {e : ManagerEffect} {es : List ManagerEffect} {inp : Input} {T : Table}
  {t : Tid} {m : TxMessage} {d : MsgId} {i k : Fin maxTrans} {j : Fin maxNodes}

/-! ## Effects that leave the slots alone -/

theorem isSlotWrite_of_isBookkeeping (h : e.isBookkeeping) : e.isSlotWrite = false := by
  cases e <;> simp_all [ManagerEffect.isBookkeeping, ManagerEffect.isSlotWrite]

/-- Two states agree on the id and the participants of slot `k`. -/
def SameSlot (s x : Manager) (k : Fin maxTrans) : Prop :=
  (x.workerInfo k).tid = (s.workerInfo k).tid ∧ (x.workerInfo k).workers = (s.workerInfo k).workers

theorem SameSlot.trans {s x y : Manager} (h : s.SameSlot x k) (h' : x.SameSlot y k) :
    s.SameSlot y k :=
  ⟨h'.1.trans h.1, h'.2.trans h.2⟩

theorem sameSlot_apply (h : e.isSlotWrite = false) (k : Fin maxTrans) : s.SameSlot (s.apply e) k := by
  constructor
  · rw [tid_apply]
    cases e <;> simp_all [ManagerEffect.isSlotWrite]
  · funext l
    rw [workers_apply]
    cases e <;> simp_all [ManagerEffect.isSlotWrite]

theorem sameSlot_exec (h : ∀ e ∈ es, e.isSlotWrite = false) (k : Fin maxTrans) :
    s.SameSlot (process.exec s es) k :=
  Process.exec_invariant (I := fun x => s.SameSlot x k) ⟨rfl, rfl⟩
    fun _ e he hx => hx.trans (sameSlot_apply (h e he) k)

/-! ## Clearing a slot -/

/-- The id of slot `k` is gone, and so are its participants. -/
def Cleared (x : Manager) (k : Fin maxTrans) : Prop :=
  (x.workerInfo k).tid = 0 ∧ ∀ j, W.Empty ((x.workerInfo k).workers j)

/-- The writes of `cleanWorkerInfo` to the participants in `js`. -/
def cleanEntries (i : Fin maxTrans) (js : List (Fin maxNodes)) : List ManagerEffect :=
  js.flatMap fun j => [.nodeId i j 0, .port i j 0, .voteYes i j none]

theorem mem_cleanEntries {js : List (Fin maxNodes)} (h : e ∈ cleanEntries i js) :
    ∃ j, e = .nodeId i j 0 ∨ e = .port i j 0 ∨ e = .voteYes i j none := by
  obtain ⟨j, -, hj⟩ := List.mem_flatMap.mp h
  exact ⟨j, by simpa using hj⟩

theorem empty_cleanEntries (js : List (Fin maxNodes)) (x : Manager) (hj : j ∈ js) :
    W.Empty (((process.exec x (cleanEntries i js)).workerInfo i).workers j) := by
  induction js generalizing x with
  | nil => simp at hj
  | cons l js ih =>
      rw [cleanEntries, List.flatMap_cons, Process.exec_append]
      by_cases hjs : j ∈ js
      · exact ih _ hjs
      · -- entry `j` is written now, and the later writes keep it empty
        obtain rfl : j = l := (List.mem_cons.mp hj).resolve_right hjs
        refine Process.exec_invariant (P := process)
          (I := fun y => W.Empty ((y.workerInfo i).workers j)) ?_ fun y e he hy => ?_
        · simp [W.Empty, workers_apply]
        · obtain ⟨l, rfl | rfl | rfl⟩ := mem_cleanEntries he
          all_goals
            rw [process_apply, workers_apply]
            simp only [true_and]
            split
            · exact ⟨by simp [hy.1], by simp [hy.2.1], by simp [hy.2.2]⟩
            · exact hy

/-- **`cleanWorkerInfo`** clears the slot it finds, and no other. -/
theorem exec_cleanWorkerInfo (x : Manager) (T : Table) (t : Tid) (k : Fin maxTrans) :
    findSlot T t = some k ∧ (process.exec x (cleanWorkerInfo T t)).Cleared k ∨
      findSlot T t ≠ some k ∧ x.SameSlot (process.exec x (cleanWorkerInfo T t)) k := by
  cases hfind : findSlot T t with
  | none =>
      have hnil : cleanWorkerInfo T t = [] := by simp only [cleanWorkerInfo, hfind]
      rw [hnil]
      exact Or.inr ⟨by simp, rfl, rfl⟩
  | some i =>
      have hlist : cleanWorkerInfo T t =
          cleanEntries i (List.finRange maxNodes) ++ [.isCrash i false, .tid i 0] := by
        simp only [cleanWorkerInfo, hfind]
        rfl
      rw [hlist]
      -- the slot found is emptied entry by entry, then freed
      by_cases hk : i = k
      · subst hk
        refine Or.inl ⟨rfl, ?_, fun j => ?_⟩
        · simp [tid_apply]
        · have := empty_cleanEntries (i := i) (List.finRange maxNodes) x (List.mem_finRange j)
          simpa [workers_apply] using this
      · refine Or.inr ⟨by simpa using hk, ?_⟩
        refine Process.exec_invariant (P := process) (I := fun y => x.SameSlot y k) ⟨rfl, rfl⟩
          fun y e he hy => hy.trans ?_
        -- all writes are to the other slot
        have hne : ¬ k = i := fun h => hk h.symm
        rcases List.mem_append.mp he with he | he
        · obtain ⟨l, rfl | rfl | rfl⟩ := mem_cleanEntries he <;>
            exact ⟨by simp [tid_apply], by funext l'; simp [workers_apply, hne]⟩
        · simp only [List.mem_cons, List.not_mem_nil, or_false] at he
          rcases he with rfl | rfl
          · exact sameSlot_apply (e := .isCrash i false) rfl k
          · exact ⟨by simp [tid_apply, hne], by funext l'; simp [workers_apply]⟩

/-- `announce` clears the slot of its transaction, and changes no other. -/
theorem exec_announce (x s : Manager) (m : TxMessage) (d : MsgId) (k : Fin maxTrans) :
    findSlot s.workerInfo m.tid = some k ∧ (process.exec x (s.announce m d)).Cleared k ∨
      findSlot s.workerInfo m.tid ≠ some k ∧ x.SameSlot (process.exec x (s.announce m d)) k := by
  obtain ⟨pre, post, heq, hrest⟩ := announce_eq s m d
  -- all but `cleanWorkerInfo` is no write to a slot
  have hplain : ∀ e ∈ pre ++ post, e.isSlotWrite = false := by
    intro e he
    rcases hrest e he with hb | ⟨i, b, rfl⟩ | rfl | ⟨w, -, n, vc, rfl⟩
    · exact isSlotWrite_of_isBookkeeping hb
    all_goals rfl
  have hpre : x.SameSlot (process.exec (x.apply (.log ⟨d, m.tid, m.nodeId⟩)) pre) k :=
    (sameSlot_apply (e := .log ⟨d, m.tid, m.nodeId⟩) rfl k).trans
      (sameSlot_exec (fun e he => hplain e (List.mem_append_left _ he)) k)
  rw [heq, Process.exec_cons, Process.exec_append, Process.exec_append, process_apply]
  have hpost := fun y : Manager =>
    sameSlot_exec (s := y) (fun e he => hplain e (List.mem_append_right _ he)) k
  rcases exec_cleanWorkerInfo (process.exec (x.apply (.log ⟨d, m.tid, m.nodeId⟩)) pre)
    s.workerInfo m.tid k with ⟨hfind, hclear⟩ | ⟨hfind, hsame⟩
  · refine Or.inl ⟨hfind, ?_, ?_⟩
    · rw [(hpost _).1]
      exact hclear.1
    · rw [(hpost _).2]
      exact hclear.2
  · exact Or.inr ⟨hfind, hpre.trans (hsame.trans (hpost _))⟩

/-! ## The table after a handler -/

/-- The message enters its sender into entry `j` of slot `k`, which becomes `w`. -/
def Joins (s : Manager) (inp : Input) (k : Fin maxTrans) (j : Fin maxNodes) (w : W) : Prop :=
  ∃ src m u, inp = .message src m u ∧ m.msgID = .jointx ∧ ((s.workerInfo k).workers j).port = 0 ∧
    ((s.workerInfo k).tid = m.tid ∨ ∀ i, (s.workerInfo i).tid ≠ 0) ∧
    w = { (s.workerInfo k).workers j with port := src.port, nodeId := m.nodeId, workerAddr := src }

/-- The message is recorded as the vote in entry `j` of slot `k`, which becomes `w`. -/
def Votes (s : Manager) (inp : Input) (k : Fin maxTrans) (j : Fin maxNodes) (w : W) : Prop :=
  ∃ src m u, inp = .message src m u ∧ (m.msgID = .pollDecision ∨ m.msgID = .voteCommit) ∧
    findSlot s.workerInfo m.tid = some k ∧ ownEntry s.workerInfo k m.nodeId = some j ∧
    w = { (s.workerInfo k).workers j with voteYes := some m.msgID }

/-- What an input does to slot `k`, if it is handled completely. -/
inductive SlotStep (s : Manager) (inp : Input) (k : Fin maxTrans) (x : Manager) : Prop
  | cleared (h : x.Cleared k)
  | begun (h : s.Begins inp k (x.workerInfo k).tid)
      (hworkers : (x.workerInfo k).workers = (s.workerInfo k).workers)
  | kept (htid : (x.workerInfo k).tid = (s.workerInfo k).tid)
      (hworkers : ∀ j, (x.workerInfo k).workers j = (s.workerInfo k).workers j ∨
        s.Joins inp k j ((x.workerInfo k).workers j) ∨ s.Votes inp k j ((x.workerInfo k).workers j))

theorem SlotStep.of_same (h : s.SameSlot x k) : SlotStep s inp k x :=
  .kept h.1 fun j => Or.inl (congrFun h.2 j)

/-- Effects after the decisive ones do not matter. -/
theorem SlotStep.append {y : Manager} (h : SlotStep s inp k x) (hxy : x.SameSlot y k) :
    SlotStep s inp k y := by
  cases h with
  | cleared h => exact .cleared ⟨hxy.1.trans h.1, hxy.2 ▸ h.2⟩
  | begun h hw => exact .begun (hxy.1 ▸ h) (hxy.2.trans hw)
  | kept ht hw => exact .kept (hxy.1.trans ht) (hxy.2 ▸ hw)

theorem isSlotWrite_sendTo {port : NodeId} {vc : VClock} {a : SockAddr} {n : NodeId} {c : MsgId}
    (h : e ∈ sendTo port vc a c t n) : e.isSlotWrite = false := by
  rcases mem_sendTo h with h | ⟨vc', rfl⟩
  · exact isSlotWrite_of_isBookkeeping h
  · rfl

theorem isSlotWrite_sendToAllWorkers {vc : VClock} {n : NodeId} {c : MsgId}
    (h : e ∈ s.sendToAllWorkers vc t n c) : e.isSlotWrite = false := by
  rcases mem_sendToAllWorkers h with h | ⟨w, -, n', vc', rfl⟩
  · exact isSlotWrite_of_isBookkeeping h
  · rfl

theorem isSlotWrite_reply {src : SockAddr} {vc : VClock} {c : MsgId} (h : e ∈ reply src m c vc) :
    e.isSlotWrite = false := by
  rcases mem_reply h with h | rfl
  · exact isSlotWrite_of_isBookkeeping h
  · rfl

theorem isSlotWrite_crashFlag (h : e ∈ s.crashFlag m) : e.isSlotWrite = false := by
  obtain ⟨i, b, rfl⟩ := mem_crashFlag h
  rfl

variable {src : SockAddr} {u : Uninit}

theorem slotStep_begin (hx : s.SameSlot x k) (hk : m.msgID = .begintx) :
    SlotStep s (.message src m u) k (process.exec x (s.handleBegin src m u)) := by
  have hrest : ∀ e ∈ [ManagerEffect.clock (tick s.port (s.receivedClock m)), .saveVectorTime] ++
      reply src m (if (saveWorkerInfo s.workerInfo src.port m.tid .begintx m.nodeId src u.index).1 < 0
        then .beginFail else .beginSuccess) (tick s.port (s.receivedClock m)),
      e.isSlotWrite = false := by
    intro e he
    simp only [List.mem_append, List.mem_cons, List.not_mem_nil, or_false] at he
    rcases he with (rfl | rfl) | he
    · rfl
    · rfl
    · exact isSlotWrite_reply he
  simp only [handleBegin, hk, List.append_assoc]
  rw [Process.exec_append]
  refine SlotStep.append ?_ (sameSlot_exec hrest k)
  rcases saveWorkerInfo_begin_list s.workerInfo src.port m.tid m.nodeId src u.index with
    hnil | ⟨i, hfirst, hne, hone⟩
  · rw [hnil]
    exact .of_same hx
  · rw [hone, Process.exec_cons, Process.exec_nil, process_apply]
    -- the slot is taken for the transaction, or it is another one
    by_cases hki : k = i
    · subst hki
      refine .begun ⟨src, m, u, rfl, hk, ?_⟩ ?_
      · simpa [tid_apply] using And.intro hfirst hne
      · funext l
        simpa [workers_apply] using congrFun hx.2 l
    · refine .of_same (hx.trans ⟨by simp [tid_apply, hki], ?_⟩)
      funext l
      simp [workers_apply]

theorem slotStep_join (hx : s.SameSlot x k) (hk : m.msgID = .jointx) :
    SlotStep s (.message src m u) k (process.exec x (s.handleJoin src m u)) := by
  simp only [handleJoin, hk, List.append_assoc]
  rw [Process.exec_append]
  refine SlotStep.append ?_ (sameSlot_exec (fun e he => ?_) k)
  · rcases saveWorkerInfo_join_list s.workerInfo src.port m.tid m.nodeId src u.index with
      hnil | ⟨i, hi, hone⟩
    · rw [hnil]
      exact .of_same hx
    rw [hone]
    rcases addWorker_list s.workerInfo i src.port m.nodeId src with hnil | ⟨j, hfree, hadd⟩
    · rw [hnil]
      exact .of_same hx
    rw [hadd]
    simp only [Process.exec_cons, Process.exec_nil, process_apply]
    refine .kept (by simpa [tid_apply] using hx.1) fun l => ?_
    -- the entry is filled, or it is another one
    by_cases hkl : k = i ∧ l = j
    · obtain ⟨rfl, rfl⟩ := hkl
      refine Or.inr (Or.inl ⟨src, m, u, rfl, hk, hfree, hi, ?_⟩)
      simp [workers_apply, hx.2]
    · refine Or.inl ?_
      simp [workers_apply, hkl, hx.2]
  · simp only [List.mem_append, List.mem_cons, List.not_mem_nil, or_false] at he
    rcases he with (rfl | rfl) | he
    · rfl
    · rfl
    · split at he
      · exact isSlotWrite_reply he
      · rcases List.mem_cons.mp he with rfl | he
        · rfl
        · exact isSlotWrite_reply he

theorem slotStep_vote (hx : s.SameSlot x k)
    (hk : m.msgID = .pollDecision ∨ m.msgID = .voteCommit) :
    SlotStep s (.message src m u) k (process.exec x (s.handleVote src m u)) := by
  rw [handleVote_eq, Process.exec_append]
  have htids := fun k => (exec_crashFlag s m k).1
  have hentry := fun i => (exec_crashFlag s m i).2
  -- first the crash flag and the vote
  have hvote : SlotStep s (.message src m u) k (process.exec x (s.crashFlag m ++
      ((process.exec s (s.crashFlag m)).collectVote m u.commit).2)) := by
    rw [Process.exec_append]
    have hflag : s.SameSlot (process.exec x (s.crashFlag m)) k :=
      hx.trans (sameSlot_exec (fun e he => isSlotWrite_crashFlag he) k)
    cases hfind : findSlot s.workerInfo m.tid with
    | none =>
        simp only [collectVote, findSlot_congr htids, hfind]
        exact .of_same hflag
    | some i =>
        simp only [collectVote, findSlot_congr htids, hfind, recordVote, hentry]
        cases hown : ownEntry s.workerInfo i m.nodeId with
        | none =>
            unfold ownEntry at hown
            rw [hown]
            exact .of_same hflag
        | some j =>
            have hown' := hown
            unfold ownEntry at hown
            rw [hown]
            refine .kept (by simpa [tid_apply] using hflag.1) fun l => ?_
            by_cases hkl : k = i ∧ l = j
            · obtain ⟨rfl, rfl⟩ := hkl
              refine Or.inr (Or.inr ⟨src, m, u, rfl, hk, hfind, hown', ?_⟩)
              simp [workers_apply, hflag.2]
            · refine Or.inl ?_
              simp [workers_apply, hkl, hflag.2]
  -- then what the decision asks for
  split
  · split
    · exact hvote.append (sameSlot_exec (fun e he => isSlotWrite_sendTo he) k)
    · rcases exec_announce (process.exec x (s.crashFlag m ++
        ((process.exec s (s.crashFlag m)).collectVote m u.commit).2)) (s.counted m u.commit) m
        .decideCommit k with ⟨-, hclear⟩ | ⟨-, hsame⟩
      · exact .cleared hclear
      · exact hvote.append hsame
  · exact hvote.append (sameSlot_exec (fun e he => isSlotWrite_sendTo he) k)
  · exact hvote

/-- **Step law of the table**: what a completed handler does to a slot. -/
theorem slotStep_handle (s : Manager) (inp : Input) (k : Fin maxTrans) :
    SlotStep s inp k (process.exec s (s.handle inp)) := by
  cases inp with
  | timeout =>
      simp only [handle, voteTimeout]
      split
      · rename_i t hwait
        rw [Process.exec_append]
        have hpre : s.SameSlot (process.exec s ([.abortTid t, .log ⟨.decideAbort, t, s.mem.recNodeId⟩] ++
            s.sendToAllWorkers s.mem.myVectorClock t 0 .decideAbort)) k := by
          refine sameSlot_exec (fun e he => ?_) k
          simp only [List.mem_append, List.mem_cons, List.not_mem_nil, or_false] at he
          rcases he with (rfl | rfl) | he
          · rfl
          · rfl
          · exact isSlotWrite_sendToAllWorkers he
        rcases exec_cleanWorkerInfo (process.exec s ([.abortTid t,
          .log ⟨.decideAbort, t, s.mem.recNodeId⟩] ++
            s.sendToAllWorkers s.mem.myVectorClock t 0 .decideAbort)) s.workerInfo t k with
          ⟨-, hclear⟩ | ⟨-, hsame⟩
        · exact .cleared hclear
        · exact .of_same (hpre.trans hsame)
      · exact .of_same ⟨rfl, rfl⟩
  | restart =>
      refine .of_same (sameSlot_exec (fun e he => ?_) k)
      simp only [handle, restart, List.mem_append, List.mem_cons, List.not_mem_nil, or_false] at he
      rcases he with ((rfl | rfl | rfl | rfl) | he) | rfl
      any_goals rfl
      rcases mem_sendLoop he with hb | ⟨w, -, n, vc, rfl⟩
      · exact isSlotWrite_of_isBookkeeping hb
      · rfl
  | message src m u =>
      simp only [handle, handleWorkerMsg]
      rw [Process.exec_append]
      have hx : s.SameSlot (process.exec s (s.receive m)) k :=
        sameSlot_exec (fun e he => isSlotWrite_of_isBookkeeping (mem_receive he)) k
      split
      · exact slotStep_begin hx ‹_›
      · exact slotStep_join hx ‹_›
      · -- COMMIT
        refine .of_same (hx.trans (sameSlot_exec (fun e he => ?_) k))
        rcases List.mem_cons.mp he with rfl | he
        · rfl
        · exact isSlotWrite_sendToAllWorkers he
      · exact slotStep_vote hx (Or.inl ‹_›)
      · exact slotStep_vote hx (Or.inr ‹_›)
      · -- VOTE_ABORT
        rw [handleVoteAbort, Process.exec_append]
        have hflag : s.SameSlot (process.exec (process.exec s (s.receive m)) (s.crashFlag m)) k :=
          hx.trans (sameSlot_exec (fun e he => isSlotWrite_crashFlag he) k)
        rcases exec_announce (process.exec (process.exec s (s.receive m)) (s.crashFlag m))
          ((s.crashFlag m).foldl apply s) m .decideAbort k with ⟨-, hclear⟩ | ⟨-, hsame⟩
        · exact .cleared hclear
        · exact .of_same (hflag.trans hsame)
      · exact .of_same hx

/-! ## Who is asked to prepare -/

variable {a : SockAddr} {p : TxMessage}

theorem msgID_of_mem_sendTo {port : NodeId} {vc : VClock} {a' : SockAddr} {n : NodeId}
    (h : .send a p ∈ sendTo port vc a' d t n) : p.msgID = d := by
  rcases mem_sendTo h with hb | ⟨vc', heq⟩
  · simp [ManagerEffect.isBookkeeping] at hb
  · cases heq
    rfl

theorem msgID_of_mem_announce (h : .send a p ∈ s.announce m d) : p.msgID = d := by
  rcases mem_announce h with h | h | h | ⟨i, b, h⟩ | h | ⟨w, -, n, vc, h⟩
  · exact absurd h (by simp)
  · obtain ⟨i, -, h | h | ⟨j, h | h | h⟩⟩ := mem_cleanWorkerInfo h <;> exact absurd h (by simp)
  · simp [ManagerEffect.isBookkeeping] at h
  · exact absurd h (by simp)
  · exact absurd h (by simp)
  · cases h
    rfl

theorem msgID_of_mem_reply {vc : VClock} (h : .send a p ∈ reply src m d vc) : p.msgID = d := by
  rcases mem_reply h with h | h
  · simp [ManagerEffect.isBookkeeping] at h
  · cases h
    rfl

theorem not_prepare_of_mem_handleVote (h : .send a p ∈ s.handleVote src m u) :
    p.msgID ≠ .prepareCommit := by
  intro hp
  rcases mem_handleVote h with ⟨i, b, h⟩ | h | ⟨-, -, h⟩ | ⟨-, -, h⟩ | ⟨-, h⟩
  · exact absurd h (by simp)
  · obtain ⟨i, j, -, -, h⟩ := mem_collectVote h
    exact absurd h (by simp)
  · exact absurd (hp.symm.trans (msgID_of_mem_sendTo h)) (by simp)
  · exact absurd (hp.symm.trans (msgID_of_mem_announce h)) (by simp)
  · exact absurd (hp.symm.trans (msgID_of_mem_sendTo h)) (by simp)

/-- **Who gets a `PREPARE_COMMIT`**: the participants of the transaction that a `COMMIT`
    names, each under its own node id. -/
theorem prepare_mem_handle (h : .send a p ∈ s.handle inp) (hp : p.msgID = .prepareCommit) :
    ∃ src m u, inp = .message src m u ∧ m.msgID = .commit ∧ p.tid = m.tid ∧
      ∃ w ∈ targets s.workerInfo m.tid, a = w.workerAddr ∧
        p.nodeId = if w.nodeId = 0 then m.nodeId else w.nodeId := by
  have hno : ∀ {c : MsgId}, p.msgID = c → c ≠ .prepareCommit → False := fun hc hne =>
    hne (hc.symm.trans hp)
  cases inp with
  | timeout =>
      simp only [handle, voteTimeout] at h
      split at h
      · simp only [List.mem_append, List.mem_cons, List.not_mem_nil, reduceCtorEq, or_false,
          false_or] at h
        rcases h with h | h
        · obtain ⟨x, -, -, hk, -⟩ := send_mem_sendLoop h
          exact (hno hk (by simp)).elim
        · obtain ⟨i, -, h | h | ⟨j, h | h | h⟩⟩ := mem_cleanWorkerInfo h <;> exact absurd h (by simp)
      · simp at h
  | restart =>
      simp only [handle, restart, List.mem_append, List.mem_cons, List.not_mem_nil, reduceCtorEq,
        or_false, false_or] at h
      obtain ⟨x, -, -, hk, -⟩ := send_mem_sendLoop h
      exact (hno hk (by simp)).elim
  | message src m u =>
      simp only [handle, handleWorkerMsg, List.mem_append] at h
      rcases h with h | h
      · have hb := mem_receive h
        simp [ManagerEffect.isBookkeeping] at hb
      split at h
      · -- BEGINTX
        rename_i hk
        simp only [handleBegin, List.mem_append, List.mem_cons, List.not_mem_nil, reduceCtorEq,
          or_false] at h
        rcases h with h | h
        · rcases mem_saveWorkerInfo h with ⟨-, i, -, -, h⟩ | ⟨-, i, j, -, h | h | h⟩ <;>
            exact absurd h (by simp)
        · refine (hno (msgID_of_mem_reply h) ?_).elim
          split <;> simp
      · -- JOINTX
        simp only [handleJoin, List.mem_append, List.mem_cons, List.not_mem_nil, reduceCtorEq,
          or_false] at h
        rcases h with h | h
        · rcases mem_saveWorkerInfo h with ⟨-, i, -, -, h⟩ | ⟨-, i, j, -, h | h | h⟩ <;>
            exact absurd h (by simp)
        · split at h
          · exact (hno (msgID_of_mem_reply h) (by simp)).elim
          · rcases List.mem_cons.mp h with h | h
            · exact absurd h (by simp)
            · exact (hno (msgID_of_mem_reply h) (by simp)).elim
      · -- COMMIT
        rename_i hk
        simp only [handleCommit, List.mem_cons, reduceCtorEq, false_or] at h
        obtain ⟨x, hx, ha, -, ht, hn⟩ := send_mem_sendLoop h
        obtain ⟨w, hw, rfl⟩ := List.mem_map.mp hx
        exact ⟨src, m, u, rfl, hk, ht, w, hw, ha, hn⟩
      · exact absurd hp (not_prepare_of_mem_handleVote h)
      · exact absurd hp (not_prepare_of_mem_handleVote h)
      · -- VOTE_ABORT
        rcases List.mem_append.mp h with h | h
        · obtain ⟨i, b, h⟩ := mem_crashFlag h
          exact absurd h (by simp)
        · exact (hno (msgID_of_mem_announce h) (by simp)).elim
      · simp at h

end Manager

end DistributedSystem.Transaction
