import DistributedSystem.Transaction.Manager

/-!
# What the manager's functions can do

Every function of `Manager.lean` returns a list of effects. This module says once, for
each of them, which effects can occur in that list, and what one effect does to the
parts of the state that the proofs look at. The later modules cite these lemmas and do
not unfold the functions again.
-/

namespace DistributedSystem.Transaction

open DistributedSystem.Library

/-- The effects on clocks, on the ShiViz log and on `abortTid`. -/
def ManagerEffect.isBookkeeping : ManagerEffect → Bool
  | .clock _ | .saveVectorTime | .shiviz _ | .abortTid _ => true
  | _ => false

/-- The effects that write the transaction table. -/
def ManagerEffect.isTableWrite : ManagerEffect → Bool
  | .tid _ _ | .isCrash _ _ | .nodeId _ _ _ | .port _ _ _ | .workerAddr _ _ _ | .voteYes _ _ _ => true
  | _ => false

namespace Manager

variable {s : Manager} {e : ManagerEffect} {T : Table} {t : Tid} {m : TxMessage}
  {i : Fin maxTrans} {j : Fin maxNodes}

/-! ## One effect -/

@[simp] theorem process_apply (s : Manager) (e : ManagerEffect) : process.apply s e = s.apply e := rfl

@[simp] theorem process_handler (s : Manager) (inp : Input) :
    process.handler s inp = s.handle inp := rfl

@[simp] theorem process_crash (inp : Input) : process.crash inp = .exit := rfl

/-- A manager that is up after an action was not cut off in it. -/
theorem cut_eq_none {a : Act Input} (hup : (process.step s a).mem.up = true) : a.cut = none := by
  obtain ⟨inp, cut⟩ := a
  cases cut with
  | none => rfl
  | some k =>
      simp only [Process.step, Process.performed, Process.exec_append] at hup
      exact absurd hup (by simp [apply])

theorem log_apply (s : Manager) (e : ManagerEffect) :
    (s.apply e).log = match e with
      | .log r => s.log ++ [r]
      | _ => s.log := by
  cases e <;> rfl

theorem withSlot_workerInfo (s : Manager) (f : Info → Info) (i k : Fin maxTrans) :
    (s.withSlot i f).workerInfo k = if k = i then f (s.workerInfo k) else s.workerInfo k := by
  by_cases hk : k = i
  · subst hk
    simp [withSlot]
  · simp [withSlot, hk]

theorem withEntry_workers (s : Manager) (f : W → W) (i k : Fin maxTrans) (j l : Fin maxNodes) :
    ((s.withEntry i j f).workerInfo k).workers l =
      if k = i ∧ l = j then f ((s.workerInfo k).workers l) else (s.workerInfo k).workers l := by
  by_cases hk : k = i
  · by_cases hl : l = j
    · subst hk hl
      simp [withEntry, withSlot]
    · simp [withEntry, withSlot, hk, hl]
  · simp [withEntry, withSlot, hk]

theorem tid_apply (s : Manager) (e : ManagerEffect) (k : Fin maxTrans) :
    ((s.apply e).workerInfo k).tid = match e with
      | .tid i t => if k = i then t else (s.workerInfo k).tid
      | _ => (s.workerInfo k).tid := by
  cases e <;> simp only [apply, withEntry, withSlot_workerInfo] <;> split <;> rfl

theorem workers_apply (s : Manager) (e : ManagerEffect) (k : Fin maxTrans) (l : Fin maxNodes) :
    ((s.apply e).workerInfo k).workers l = match e with
      | .nodeId i j n => if k = i ∧ l = j then { (s.workerInfo k).workers l with nodeId := n }
          else (s.workerInfo k).workers l
      | .port i j p => if k = i ∧ l = j then { (s.workerInfo k).workers l with port := p }
          else (s.workerInfo k).workers l
      | .workerAddr i j a => if k = i ∧ l = j then { (s.workerInfo k).workers l with workerAddr := a }
          else (s.workerInfo k).workers l
      | .voteYes i j v => if k = i ∧ l = j then { (s.workerInfo k).workers l with voteYes := v }
          else (s.workerInfo k).workers l
      | _ => (s.workerInfo k).workers l := by
  cases e <;> simp only [apply, withEntry_workers, withSlot_workerInfo] <;> split <;> rfl

theorem workerInfo_apply (h : e.isTableWrite = false) : (s.apply e).workerInfo = s.workerInfo := by
  cases e <;> simp_all [ManagerEffect.isTableWrite, apply]

theorem isTableWrite_of_isBookkeeping (h : e.isBookkeeping) : e.isTableWrite = false := by
  cases e <;> simp_all [ManagerEffect.isBookkeeping, ManagerEffect.isTableWrite]

/-- Effects change the table in the same way wherever it is the same. -/
theorem workerInfo_exec_congr {s s' : Manager} (h : s.workerInfo = s'.workerInfo)
    (es : List ManagerEffect) : (process.exec s es).workerInfo = (process.exec s' es).workerInfo := by
  induction es generalizing s s' with
  | nil => exact h
  | cons e es ih =>
      simp only [Process.exec_cons, process_apply]
      refine ih ?_
      cases e <;> simp only [apply, withEntry, withSlot, h]

/-- The table after effects that do not write it. -/
theorem workerInfo_exec {es : List ManagerEffect} (h : ∀ e ∈ es, e.isTableWrite = false) :
    (process.exec s es).workerInfo = s.workerInfo :=
  Process.exec_unchanged _ fun _ e he => workerInfo_apply (h e he)

/-! ## The effects of each function -/

theorem mem_receive (h : e ∈ s.receive m) : e.isBookkeeping := by
  simp only [receive, List.mem_cons, List.not_mem_nil, or_false] at h
  rcases h with rfl | rfl | rfl | rfl <;> rfl

theorem mem_sendTo {port : NodeId} {vc : VClock} {dst : SockAddr} {k : MsgId} {n : NodeId}
    (h : e ∈ sendTo port vc dst k t n) :
    e.isBookkeeping ∨ ∃ vc', e = .send dst (constructMessage k t n vc') := by
  simp only [sendTo, List.mem_cons, List.not_mem_nil, or_false] at h
  rcases h with rfl | rfl | rfl | rfl
  · exact Or.inl rfl
  · exact Or.inl rfl
  · exact Or.inl rfl
  · exact Or.inr ⟨_, rfl⟩

theorem mem_sendLoop {port : NodeId} {k : MsgId} {n : NodeId} {vc : VClock}
    {ws : List (Tid × W)} (h : e ∈ sendLoop port k n vc ws) :
    e.isBookkeeping ∨ ∃ x ∈ ws, ∃ n' vc',
      e = .send x.2.workerAddr (constructMessage k x.1 n' vc') := by
  induction ws generalizing vc with
  | nil => simp [sendLoop] at h
  | cons x ws ih =>
      obtain ⟨t, w⟩ := x
      simp only [sendLoop, List.mem_append] at h
      rcases h with h | h
      · rcases mem_sendTo h with hb | ⟨vc', rfl⟩
        · exact Or.inl hb
        · exact Or.inr ⟨(t, w), by simp, _, _, rfl⟩
      · rcases ih h with hb | ⟨x, hx, hsend⟩
        · exact Or.inl hb
        · exact Or.inr ⟨x, List.mem_cons_of_mem _ hx, hsend⟩

/-- The ids that `sendLoop` puts into its messages. -/
theorem send_mem_sendLoop {port : NodeId} {k : MsgId} {n : NodeId} {vc : VClock}
    {ws : List (Tid × W)} {a : SockAddr} {m : TxMessage} (h : .send a m ∈ sendLoop port k n vc ws) :
    ∃ x ∈ ws, a = x.2.workerAddr ∧ m.msgID = k ∧ m.tid = x.1 ∧
      m.nodeId = if x.2.nodeId = 0 then n else x.2.nodeId := by
  induction ws generalizing vc with
  | nil => simp [sendLoop] at h
  | cons x ws ih =>
      obtain ⟨t, w⟩ := x
      simp only [sendLoop, List.mem_append] at h
      rcases h with h | h
      · rcases mem_sendTo h with hb | ⟨vc', heq⟩
        · simp [ManagerEffect.isBookkeeping] at hb
        · cases heq
          exact ⟨(t, w), by simp, rfl, rfl, rfl, rfl⟩
      · obtain ⟨x, hx, hsend⟩ := ih h
        exact ⟨x, List.mem_cons_of_mem _ hx, hsend⟩

theorem mem_targets {w : W} :
    w ∈ targets T t ↔ ∃ i, (T i).tid = t ∧ w.port ≠ 0 ∧ ∃ j, (T i).workers j = w := by
  simp only [targets, List.mem_flatMap, List.mem_finRange, true_and]
  refine exists_congr fun i => ?_
  by_cases hi : (T i).tid = t
  · simp only [hi, if_true, List.mem_filter, List.mem_ofFn, decide_eq_true_eq, true_and, and_comm]
  · simp [hi]

theorem mem_sendToAllWorkers {vc : VClock} {n : NodeId} {k : MsgId}
    (h : e ∈ s.sendToAllWorkers vc t n k) :
    e.isBookkeeping ∨ ∃ w ∈ targets s.workerInfo t, ∃ n' vc',
      e = .send w.workerAddr (constructMessage k t n' vc') := by
  rcases mem_sendLoop h with hb | ⟨x, hx, n', vc', rfl⟩
  · exact Or.inl hb
  · obtain ⟨w, hw, rfl⟩ := List.mem_map.mp hx
    exact Or.inr ⟨w, hw, n', vc', rfl⟩

/-- The effects of `cleanWorkerInfo` on the slot it finds. -/
theorem mem_cleanWorkerInfo (h : e ∈ cleanWorkerInfo T t) :
    ∃ i, findSlot T t = some i ∧ (e = .tid i 0 ∨ e = .isCrash i false ∨
      ∃ j, e = .nodeId i j 0 ∨ e = .port i j 0 ∨ e = .voteYes i j none) := by
  unfold cleanWorkerInfo at h
  split at h
  · rename_i i hi
    refine ⟨i, hi, ?_⟩
    simp only [List.mem_append, List.mem_flatMap, List.mem_finRange, true_and, List.mem_cons,
      List.not_mem_nil, or_false] at h
    rcases h with ⟨j, h⟩ | h | h
    · exact Or.inr (Or.inr ⟨j, h⟩)
    · exact Or.inr (Or.inl h)
    · exact Or.inl h
  · simp at h

/-- The slot in which `saveWorkerInfo` ends its search: the first that holds `tid` or
    is empty. -/
def firstMatch (T : Table) (t : Tid) : Option (Fin maxTrans) :=
  firstFin fun i => (T i).tid = t ∨ (T i).tid = 0

theorem mem_addWorker {p : ℕ} {n : NodeId} {a : SockAddr} (h : e ∈ addWorker T i p n a) :
    ∃ j, ((T i).workers j).port = 0 ∧ (e = .port i j p ∨ e = .nodeId i j n ∨ e = .workerAddr i j a) := by
  unfold addWorker at h
  split at h
  · rename_i j hj
    have hfree := (firstFin_eq_some.mp hj).1
    exact ⟨j, by simpa using hfree, by simpa using h⟩
  · simp at h

/-- `saveWorkerInfo` takes an empty slot for a transaction that begins, or enters a
    worker that joins. -/
theorem mem_saveWorkerInfo {p : ℕ} {k : MsgId} {n : NodeId} {a : SockAddr} {index : ℕ}
    (h : e ∈ (saveWorkerInfo T p t k n a index).2) :
    (k ≠ .jointx ∧ ∃ i, firstMatch T t = some i ∧ (T i).tid ≠ t ∧ e = .tid i t) ∨
    (k = .jointx ∧ ∃ i j, ((T i).workers j).port = 0 ∧
      (e = .port i j p ∨ e = .nodeId i j n ∨ e = .workerAddr i j a)) := by
  unfold saveWorkerInfo at h
  split at h
  · rename_i i hi
    by_cases ht : (T i).tid = t
    · simp only [ht, if_true] at h
      by_cases hb : k = .begintx
      · simp [hb] at h
      · by_cases hj : k = .jointx
        · simp only [hj, reduceCtorEq, if_false, if_true] at h
          exact Or.inr ⟨hj, i, mem_addWorker h⟩
        · simp [hb, hj] at h
    · simp only [ht, if_false] at h
      by_cases hj : k = .jointx
      · simp [hj] at h
      · simp only [hj, if_false, List.mem_singleton] at h
        exact Or.inl ⟨hj, i, hi, ht, h⟩
  · by_cases hj : k = .jointx ∧ index < maxTrans
    · simp only [dif_pos hj] at h
      exact Or.inr ⟨hj.1, _, mem_addWorker h⟩
    · simp [dif_neg hj] at h

/-- What it means that `firstMatch` stops at a slot of another transaction. -/
theorem firstMatch_eq_some :
    firstMatch T t = some i ↔ ((T i).tid = t ∨ (T i).tid = 0) ∧
      ∀ k < i, (T k).tid ≠ t ∧ (T k).tid ≠ 0 := by
  simp only [firstMatch, firstFin_eq_some, decide_eq_true_eq, decide_eq_false_iff_not, not_or]

theorem saveWorkerInfo_of_match {p : ℕ} {k : MsgId} {n : NodeId} {addr : SockAddr} {index : ℕ}
    (h : firstMatch T t = some i) :
    saveWorkerInfo T p t k n addr index =
      if (T i).tid = t then
        if k = .begintx then (-1, [])
        else (0, if k = .jointx then addWorker T i p n addr else [])
      else if k = .jointx then (-1, [])
      else (0, [.tid i t]) := by
  unfold firstMatch at h
  rw [saveWorkerInfo, h]

theorem saveWorkerInfo_of_full {p : ℕ} {k : MsgId} {n : NodeId} {addr : SockAddr} {index : ℕ}
    (h : firstMatch T t = none) :
    (saveWorkerInfo T p t k n addr index).1 = 0 := by
  unfold firstMatch at h
  rw [saveWorkerInfo, h]

/-- A `BEGIN` takes the empty slot the search ends in, or changes nothing. -/
theorem saveWorkerInfo_begin_list (T : Table) (p : ℕ) (t : Tid) (n : NodeId) (addr : SockAddr)
    (index : ℕ) :
    (saveWorkerInfo T p t .begintx n addr index).2 = [] ∨
      ∃ i, firstMatch T t = some i ∧ (T i).tid ≠ t ∧
        (saveWorkerInfo T p t .begintx n addr index).2 = [.tid i t] := by
  cases hfirst : firstMatch T t with
  | none =>
      unfold firstMatch at hfirst
      rw [saveWorkerInfo, hfirst]
      exact Or.inl rfl
  | some i =>
      by_cases ht : (T i).tid = t
      · exact Or.inl (by simp [saveWorkerInfo_of_match hfirst, ht])
      · exact Or.inr ⟨i, rfl, ht, by simp [saveWorkerInfo_of_match hfirst, ht]⟩

/-- A `JOIN` enters the worker into the slot of its transaction, or, when the table is
    full of other transactions, into whatever slot `index` names. -/
theorem saveWorkerInfo_join_list (T : Table) (p : ℕ) (t : Tid) (n : NodeId) (addr : SockAddr)
    (index : ℕ) :
    (saveWorkerInfo T p t .jointx n addr index).2 = [] ∨
      ∃ i, ((T i).tid = t ∨ ∀ k, (T k).tid ≠ 0) ∧
        (saveWorkerInfo T p t .jointx n addr index).2 = addWorker T i p n addr := by
  cases hfirst : firstMatch T t with
  | none =>
      have hfull : ∀ k, (T k).tid ≠ 0 := by
        intro k hk
        have := firstFin_eq_none.mp hfirst k
        simp [hk] at this
      unfold firstMatch at hfirst
      rw [saveWorkerInfo, hfirst]
      by_cases hindex : index < maxTrans
      · exact Or.inr ⟨⟨index, hindex⟩, Or.inr hfull, by simp [hindex]⟩
      · exact Or.inl (by simp [hindex])
  | some i =>
      by_cases ht : (T i).tid = t
      · exact Or.inr ⟨i, Or.inl ht, by simp [saveWorkerInfo_of_match hfirst, ht]⟩
      · exact Or.inl (by simp [saveWorkerInfo_of_match hfirst, ht])

theorem addWorker_list (T : Table) (i : Fin maxTrans) (p : ℕ) (n : NodeId) (addr : SockAddr) :
    addWorker T i p n addr = [] ∨ ∃ j, ((T i).workers j).port = 0 ∧
      addWorker T i p n addr = [.port i j p, .nodeId i j n, .workerAddr i j addr] := by
  unfold addWorker
  split
  · rename_i j hj
    exact Or.inr ⟨j, by simpa using (firstFin_eq_some.mp hj).1, rfl⟩
  · exact Or.inl rfl

theorem findSlot_eq_some :
    findSlot T t = some i ↔ (T i).tid = t ∧ ∀ k < i, (T k).tid ≠ t := by
  simp only [findSlot, firstFin_eq_some, decide_eq_true_eq, decide_eq_false_iff_not]

theorem findSlot_eq_none : findSlot T t = none ↔ ∀ i, (T i).tid ≠ t := by
  simp only [findSlot, firstFin_eq_none, decide_eq_false_iff_not]

theorem mem_recordVote (h : e ∈ recordVote T i m) :
    ∃ j, ((T i).workers j).nodeId = m.nodeId ∧ e = .voteYes i j (some m.msgID) := by
  unfold recordVote at h
  split at h
  · rename_i j hj
    have hid := (firstFin_eq_some.mp hj).1
    exact ⟨j, by simpa using hid, by simpa using h⟩
  · simp at h

theorem mem_collectVote {c : MsgId} (h : e ∈ (s.collectVote m c).2) :
    ∃ i j, findSlot s.workerInfo m.tid = some i ∧
      ((s.workerInfo i).workers j).nodeId = m.nodeId ∧ e = .voteYes i j (some m.msgID) := by
  unfold collectVote at h
  split at h
  · rename_i i hi
    obtain ⟨j, hj, rfl⟩ := mem_recordVote h
    exact ⟨i, j, hi, hj, rfl⟩
  · simp at h

/-- The entry that `recordVote` writes: the first with the node id of the message. -/
def ownEntry (T : Table) (i : Fin maxTrans) (n : NodeId) : Option (Fin maxNodes) :=
  firstFin fun j => ((T i).workers j).nodeId = n

theorem nodeId_of_ownEntry {n : NodeId} (h : ownEntry T i n = some j) :
    ((T i).workers j).nodeId = n :=
  of_decide_eq_true (firstFin_eq_some.mp h).1

theorem mem_setCrash (h : e ∈ setCrash T m) : ∃ i b, e = .isCrash i b := by
  unfold setCrash at h
  split at h
  · exact ⟨_, _, List.mem_singleton.mp h⟩
  · simp at h

theorem mem_resetCrash (h : e ∈ resetCrash T m) : ∃ i b, e = .isCrash i b := by
  unfold resetCrash at h
  split at h
  · exact ⟨_, _, List.mem_singleton.mp h⟩
  · simp at h

theorem mem_crashFlag (h : e ∈ s.crashFlag m) : ∃ i b, e = .isCrash i b := by
  unfold crashFlag at h
  split at h
  · exact mem_setCrash h
  · simp at h

/-- The crash flag leaves ids and participants alone. -/
theorem exec_crashFlag (s : Manager) (m : TxMessage) (k : Fin maxTrans) :
    ((process.exec s (s.crashFlag m)).workerInfo k).tid = (s.workerInfo k).tid ∧
      ((process.exec s (s.crashFlag m)).workerInfo k).workers = (s.workerInfo k).workers := by
  constructor
  · refine Process.exec_unchanged (fun s : Manager => (s.workerInfo k).tid) fun s' e he => ?_
    obtain ⟨i, b, rfl⟩ := mem_crashFlag he
    rw [process_apply, tid_apply]
  · refine Process.exec_unchanged (fun s : Manager => (s.workerInfo k).workers) fun s' e he => ?_
    obtain ⟨i, b, rfl⟩ := mem_crashFlag he
    funext l
    rw [process_apply, workers_apply]

theorem findSlot_congr {T T' : Table} (h : ∀ k, (T k).tid = (T' k).tid) (t : Tid) :
    findSlot T t = findSlot T' t := by
  simp only [findSlot, h]

/-- The state in which `handleVote` counts the votes. -/
def counted (s : Manager) (m : TxMessage) (c : MsgId) : Manager :=
  process.exec (process.exec s (s.crashFlag m)) ((process.exec s (s.crashFlag m)).collectVote m c).2

/-- The participants when the votes are counted: the sender's own entry has the vote. -/
theorem counted_workers {c : MsgId} (hi : findSlot s.workerInfo m.tid = some i) (j : Fin maxNodes) :
    ((s.counted m c).workerInfo i).workers j =
      if ownEntry s.workerInfo i m.nodeId = some j then
        { (s.workerInfo i).workers j with voteYes := some m.msgID }
      else (s.workerInfo i).workers j := by
  have htid := fun k => (exec_crashFlag s m k).1
  have hworkers := (exec_crashFlag s m i).2
  have heffects : ((process.exec s (s.crashFlag m)).collectVote m c).2 =
      ((ownEntry s.workerInfo i m.nodeId).map fun j => .voteYes i j (some m.msgID)).toList := by
    unfold collectVote
    rw [findSlot_congr htid, hi]
    simp only [recordVote, ownEntry, hworkers]
    split <;> simp [*]
  unfold counted
  rw [heffects]
  cases hown : ownEntry s.workerInfo i m.nodeId with
  | none => simp [hworkers]
  | some j' => simp [workers_apply, hworkers, eq_comm (a := j)]

/-- The decision of `collectVote`: the count over the slot, or the log when there is none. -/
theorem decision_eq (s : Manager) (m : TxMessage) (c : MsgId) :
    ((process.exec s (s.crashFlag m)).collectVote m c).1 =
      match findSlot s.workerInfo m.tid with
      | some i => tally (List.ofFn ((s.counted m c).workerInfo i).workers) c
      | none => if isCommit (process.exec s (s.crashFlag m)).log m.tid then .decideCommit
          else .decideAbort := by
  have htid := fun k => (exec_crashFlag s m k).1
  cases hslot : findSlot s.workerInfo m.tid with
  | none => simp only [collectVote, findSlot_congr htid, hslot]
  | some i =>
      have hcounted : s.counted m c = (recordVote (process.exec s (s.crashFlag m)).workerInfo i m).foldl
          apply (process.exec s (s.crashFlag m)) := by
        simp only [counted, collectVote, findSlot_congr htid, hslot]
        rfl
      simp only [hcounted, collectVote, findSlot_congr htid, hslot]

theorem mem_reply {src : SockAddr} {k : MsgId} {vc : VClock} (h : e ∈ reply src m k vc) :
    e.isBookkeeping ∨ e = .send src (constructMessage k m.tid m.nodeId vc) := by
  simp only [reply, List.mem_cons, List.not_mem_nil, or_false] at h
  rcases h with rfl | rfl
  · exact Or.inl rfl
  · exact Or.inr rfl

/-- `announce` logs the decision, tells it to the participants or asks for the crash, and
    clears the slot. -/
theorem announce_eq (s : Manager) (m : TxMessage) (d : MsgId) :
    ∃ pre post, s.announce m d = .log { msgID := d, tid := m.tid, nodeId := m.nodeId } ::
        (pre ++ cleanWorkerInfo s.workerInfo m.tid ++ post) ∧
      ∀ e ∈ pre ++ post, e.isBookkeeping ∨ (∃ i b, e = .isCrash i b) ∨ e = .exit ∨
        ∃ w ∈ targets s.workerInfo m.tid, ∃ n vc,
          e = .send w.workerAddr (constructMessage d m.tid n vc) := by
  unfold announce
  split
  · -- the crash that a message asked for
    refine ⟨_, [.exit], rfl, ?_⟩
    intro e he
    simp only [List.mem_append, List.mem_cons, List.not_mem_nil, or_false] at he
    rcases he with (he | rfl | rfl | rfl) | rfl
    · exact Or.inr (Or.inl (mem_resetCrash he))
    · exact Or.inl rfl
    · exact Or.inl rfl
    · exact Or.inl rfl
    · exact Or.inr (Or.inr (Or.inl rfl))
  · refine ⟨s.sendToAllWorkers (s.receivedClock m) m.tid m.nodeId d, [], by rw [List.append_nil], ?_⟩
    intro e he
    rw [List.append_nil] at he
    rcases mem_sendToAllWorkers he with he | he
    · exact Or.inl he
    · exact Or.inr (Or.inr (Or.inr he))

theorem mem_announce {d : MsgId} (h : e ∈ s.announce m d) :
    e = .log { msgID := d, tid := m.tid, nodeId := m.nodeId } ∨
      e ∈ cleanWorkerInfo s.workerInfo m.tid ∨ e.isBookkeeping ∨ (∃ i b, e = .isCrash i b) ∨
      e = .exit ∨ ∃ w ∈ targets s.workerInfo m.tid, ∃ n vc,
        e = .send w.workerAddr (constructMessage d m.tid n vc) := by
  obtain ⟨pre, post, heq, hrest⟩ := announce_eq s m d
  rw [heq, List.mem_cons, List.mem_append, List.mem_append] at h
  rcases h with h | (h | h) | h
  · exact Or.inl h
  · exact Or.inr (Or.inr (hrest e (List.mem_append_left _ h)))
  · exact Or.inr (Or.inl h)
  · exact Or.inr (Or.inr (hrest e (List.mem_append_right _ h)))

/-- `handleVote` sets the crash flag, records the vote, counts, and acts on the count. -/
theorem handleVote_eq (s : Manager) (src : SockAddr) (m : TxMessage) (u : Uninit) :
    s.handleVote src m u =
      s.crashFlag m ++ ((process.exec s (s.crashFlag m)).collectVote m u.commit).2 ++
        match ((process.exec s (s.crashFlag m)).collectVote m u.commit).1 with
        | .decideCommit =>
            if m.msgID = .pollDecision then
              sendTo s.port (s.receivedClock m) src .decideCommit m.tid m.nodeId
            else (s.counted m u.commit).announce m .decideCommit
        | .decideAbort => sendTo s.port (s.receivedClock m) src .decideAbort m.tid m.nodeId
        | _ => [] := by
  have hcounted : s.counted m u.commit =
      (s.crashFlag m ++ ((process.exec s (s.crashFlag m)).collectVote m u.commit).2).foldl apply s := by
    rw [List.foldl_append]
    rfl
  rw [hcounted]
  rfl

/-- The effects of a vote or poll: the crash flag and the vote, then what the decision
    asks for. -/
theorem mem_handleVote {src : SockAddr} {u : Uninit} (h : e ∈ s.handleVote src m u) :
    let votes := (process.exec s (s.crashFlag m)).collectVote m u.commit
    (∃ i b, e = .isCrash i b) ∨ e ∈ votes.2 ∨
      (votes.1 = .decideCommit ∧ m.msgID = .pollDecision ∧
        e ∈ sendTo s.port (s.receivedClock m) src .decideCommit m.tid m.nodeId) ∨
      (votes.1 = .decideCommit ∧ m.msgID ≠ .pollDecision ∧
        e ∈ (s.counted m u.commit).announce m .decideCommit) ∨
      (votes.1 = .decideAbort ∧
        e ∈ sendTo s.port (s.receivedClock m) src .decideAbort m.tid m.nodeId) := by
  intro votes
  rw [handleVote_eq, List.mem_append, List.mem_append] at h
  rcases h with (h | h) | h
  · exact Or.inl (mem_crashFlag h)
  · exact Or.inr (Or.inl h)
  · split at h
    · rename_i hdecision
      split at h
      · exact Or.inr (Or.inr (Or.inl ⟨hdecision, ‹_›, h⟩))
      · exact Or.inr (Or.inr (Or.inr (Or.inl ⟨hdecision, ‹_›, h⟩)))
    · rename_i hdecision
      exact Or.inr (Or.inr (Or.inr (Or.inr ⟨hdecision, h⟩)))
    · simp at h

/-- A count that commits has seen a vote of every participant. -/
theorem voted_of_tally {ws : List W} {c : MsgId} (h : tally ws c = .decideCommit) :
    ∀ w ∈ ws, w.nodeId ≠ 0 → w.voteYes ≠ none := by
  induction ws generalizing c with
  | nil => simp
  | cons w ws ih =>
      unfold tally at h
      split at h
      · split at h
        · exact absurd h (by simp)
        · split at h
          · exact absurd h (by simp)
          · exact List.forall_mem_cons.mpr ⟨fun _ => ‹_›, ih h⟩
      · exact List.forall_mem_cons.mpr ⟨fun hw => absurd hw ‹_›, ih h⟩

end Manager

end DistributedSystem.Transaction
