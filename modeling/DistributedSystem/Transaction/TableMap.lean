import DistributedSystem.Transaction.ManagerEffects

/-!
# The transaction table as a map

When is the array of slots a map from transaction ids to slots? `saveWorkerInfo` ends
its search at the first empty slot, and `cleanWorkerInfo` leaves empty slots anywhere,
so a slot behind an empty one is invisible to it. The table is a map along a run exactly
when no `BEGIN` and no `JOIN` arrives for a transaction whose slot is invisible (or, for
a `JOIN`, full).
-/

namespace DistributedSystem.Transaction

open DistributedSystem.Library

namespace Manager

variable {s : Manager} {e : ManagerEffect} {inp : Input} {i : Fin maxTrans} {t : Tid}

/-! ## What a step does to the ids of the slots -/

/-- The input starts transaction `t` in slot `i`: no slot before the first empty one
    holds `t`. -/
def Begins (s : Manager) (inp : Input) (i : Fin maxTrans) (t : Tid) : Prop :=
  ∃ src m u, inp = .message src m u ∧ m.msgID = .begintx ∧ m.tid = t ∧
    firstMatch s.workerInfo t = some i ∧ (s.workerInfo i).tid ≠ t

theorem not_tid_of_isBookkeeping (h : e.isBookkeeping) (k : Fin maxTrans) (t : Tid) :
    e ≠ .tid k t := by
  rintro rfl
  simp [ManagerEffect.isBookkeeping] at h

/-- A transaction begins in an empty slot. -/
theorem Begins.empty (h : s.Begins inp i t) : (s.workerInfo i).tid = 0 ∧ t ≠ 0 := by
  obtain ⟨src, m, u, -, -, -, hfirst, hne⟩ := h
  have h0 := (firstMatch_eq_some.mp hfirst).1.resolve_left hne
  exact ⟨h0, fun ht => hne (h0.trans ht.symm)⟩

/-- `cleanWorkerInfo` writes no id but `0`. -/
theorem tid_eq_zero_of_mem_clean {T : Table} {t' : Tid} (h : .tid i t ∈ cleanWorkerInfo T t') :
    t = 0 := by
  obtain ⟨k, -, h | h | ⟨j, h | h | h⟩⟩ := mem_cleanWorkerInfo h
  · exact (ManagerEffect.tid.inj h).2
  all_goals exact absurd h (by simp)

theorem tid_eq_zero_of_mem_announce {m : TxMessage} {d : MsgId} (h : .tid i t ∈ s.announce m d) :
    t = 0 := by
  rcases mem_announce h with h | h | h | ⟨k, b, h⟩ | h | ⟨w, -, n, vc, h⟩
  · exact absurd h (by simp)
  · exact tid_eq_zero_of_mem_clean h
  · exact absurd rfl (not_tid_of_isBookkeeping h i t)
  · exact absurd h (by simp)
  · exact absurd h (by simp)
  · exact absurd h (by simp)

theorem tid_eq_zero_of_mem_vote {src : SockAddr} {m : TxMessage} {u : Uninit}
    (h : .tid i t ∈ s.handleVote src m u) : t = 0 := by
  rcases mem_handleVote h with ⟨k, b, h⟩ | h | ⟨-, -, h⟩ | ⟨-, -, h⟩ | ⟨-, h⟩
  · exact absurd h (by simp)
  · obtain ⟨k, j, -, -, h⟩ := mem_collectVote h
    exact absurd h (by simp)
  · rcases mem_sendTo h with h | ⟨vc, h⟩
    · exact absurd rfl (not_tid_of_isBookkeeping h i t)
    · exact absurd h (by simp)
  · exact tid_eq_zero_of_mem_announce h
  · rcases mem_sendTo h with h | ⟨vc, h⟩
    · exact absurd rfl (not_tid_of_isBookkeeping h i t)
    · exact absurd h (by simp)

/-- **The writers of `tid`**: an id is cleared, or a `BEGIN` enters it. -/
theorem tid_mem_handle (h : .tid i t ∈ s.handle inp) : t = 0 ∨ s.Begins inp i t := by
  cases inp with
  | timeout =>
      simp only [handle, voteTimeout] at h
      split at h
      · simp only [List.mem_append, List.mem_cons, List.not_mem_nil, reduceCtorEq, or_false,
          false_or] at h
        rcases h with h | h
        · rcases mem_sendToAllWorkers h with h | ⟨w, -, n, vc, h⟩
          · exact absurd rfl (not_tid_of_isBookkeeping h i t)
          · exact absurd h (by simp)
        · exact Or.inl (tid_eq_zero_of_mem_clean h)
      · simp at h
  | restart =>
      simp only [handle, restart, List.mem_append, List.mem_cons, List.not_mem_nil, reduceCtorEq,
        or_false, false_or] at h
      rcases mem_sendLoop h with h | ⟨x, -, n, vc, h⟩
      · exact absurd rfl (not_tid_of_isBookkeeping h i t)
      · exact absurd h (by simp)
  | message src m u =>
      simp only [handle, handleWorkerMsg, List.mem_append] at h
      rcases h with h | h
      · exact absurd rfl (not_tid_of_isBookkeeping (mem_receive h) i t)
      split at h
      · -- BEGINTX
        rename_i hk
        simp only [handleBegin, List.mem_append, List.mem_cons, List.not_mem_nil, reduceCtorEq,
          or_false] at h
        rcases h with h | h
        · rcases mem_saveWorkerInfo h with ⟨-, k, hfirst, hne, heq⟩ | ⟨hj, -⟩
          · obtain ⟨rfl, rfl⟩ := ManagerEffect.tid.inj heq
            exact Or.inr ⟨src, m, u, rfl, hk, rfl, hfirst, hne⟩
          · exact absurd (hk.symm.trans hj) (by simp)
        · rcases mem_reply h with h | h
          · exact absurd rfl (not_tid_of_isBookkeeping h i t)
          · exact absurd h (by simp)
      · -- JOINTX
        rename_i hk
        simp only [handleJoin, List.mem_append, List.mem_cons, List.not_mem_nil, reduceCtorEq,
          or_false] at h
        rcases h with h | h
        · rcases mem_saveWorkerInfo h with ⟨hj, -⟩ | ⟨-, k, j, -, h | h | h⟩
          · exact absurd hk hj
          all_goals exact absurd h (by simp)
        · split at h
          · rcases mem_reply h with h | h
            · exact absurd rfl (not_tid_of_isBookkeeping h i t)
            · exact absurd h (by simp)
          · rcases List.mem_cons.mp h with h | h
            · exact absurd h (by simp)
            rcases mem_reply h with h | h
            · exact absurd rfl (not_tid_of_isBookkeeping h i t)
            · exact absurd h (by simp)
      · -- COMMIT
        simp only [handleCommit, List.mem_cons, reduceCtorEq, false_or] at h
        rcases mem_sendToAllWorkers h with h | ⟨w, -, n, vc, h⟩
        · exact absurd rfl (not_tid_of_isBookkeeping h i t)
        · exact absurd h (by simp)
      · exact Or.inl (tid_eq_zero_of_mem_vote h)
      · exact Or.inl (tid_eq_zero_of_mem_vote h)
      · -- VOTE_ABORT
        simp only [handleVoteAbort, List.mem_append] at h
        rcases h with h | h
        · obtain ⟨k, b, h⟩ := mem_crashFlag h
          exact absurd h (by simp)
        · exact Or.inl (tid_eq_zero_of_mem_announce h)
      · simp at h

/-- **Step law of the ids**: after a step a slot is empty, or unchanged, or it holds the
    transaction that the step began in it. -/
theorem tid_step (s : Manager) (a : Act Input) (k : Fin maxTrans) :
    ((process.step s a).workerInfo k).tid = 0 ∨
      ((process.step s a).workerInfo k).tid = (s.workerInfo k).tid ∨
      s.Begins a.input k ((process.step s a).workerInfo k).tid := by
  refine Process.step_preserved (I := fun s' : Manager => (s'.workerInfo k).tid = 0 ∨
    (s'.workerInfo k).tid = (s.workerInfo k).tid ∨ s.Begins a.input k (s'.workerInfo k).tid)
    (Or.inr (Or.inl rfl)) ?_ fun s' h => h
  intro s' e he h
  rw [process_apply, tid_apply]
  cases e with
  | tid i t =>
      by_cases hk : k = i
      · subst hk
        rcases tid_mem_handle he with rfl | hb
        · exact Or.inl (by simp)
        · exact Or.inr (Or.inr (by simpa using hb))
      · simpa [hk] using h
  | _ => exact h

/-! ## The table as a map -/

/-- Every transaction occupies at most one slot. -/
def TableUnique (s : Manager) : Prop :=
  ∀ i j, (s.workerInfo i).tid ≠ 0 → (s.workerInfo i).tid = (s.workerInfo j).tid → i = j

instance (s : Manager) : Decidable s.TableUnique := by unfold TableUnique; infer_instance

/-- The message is refused: the table stays as it is and the sender gets `BEGIN_FAIL`. -/
def Refuses (s : Manager) (src : SockAddr) (m : TxMessage) (u : Uninit) : Prop :=
  (process.exec s (s.handle (.message src m u))).workerInfo = s.workerInfo ∧
    ∃ vc, .send src (constructMessage .beginFail m.tid m.nodeId vc) ∈ s.handle (.message src m u)

/-- The sender is entered into a free entry of slot `i` and gets `JOIN_SUCCESS`. -/
def AcceptsInto (s : Manager) (i : Fin maxTrans) (src : SockAddr) (m : TxMessage) (u : Uninit) :
    Prop :=
  (∃ j, ((s.workerInfo i).workers j).port = 0 ∧
    (process.exec s (s.handle (.message src m u))).workerInfo =
      (s.withEntry i j fun w =>
        { w with port := src.port, nodeId := m.nodeId, workerAddr := src }).workerInfo) ∧
    ∃ vc, .send src (constructMessage .joinSuccess m.tid m.nodeId vc) ∈ s.handle (.message src m u)

/-- What a map does with the messages for a transaction that occupies a slot. -/
def ServesMap (s : Manager) (a : Act Input) : Prop :=
  ∀ src m u, a.input = .message src m u → m.tid ≠ 0 → ∀ i, (s.workerInfo i).tid = m.tid →
    (m.msgID = .begintx → s.Refuses src m u) ∧ (m.msgID = .jointx → s.AcceptsInto i src m u)

/-- One step of a table that is a map: the new state has no transaction twice, and
    `BEGIN` and `JOIN` find the slot of their transaction. -/
def MapStep (s : Manager) (a : Act Input) : Prop :=
  (process.step s a).TableUnique ∧ s.ServesMap a

/-- No `BEGIN` or `JOIN` for a transaction whose slot lies behind an empty slot, and no
    `JOIN` for one whose slot is full. -/
def NoGap (s : Manager) (a : Act Input) : Prop :=
  ∀ src m u, a.input = .message src m u → m.tid ≠ 0 → ∀ i, (s.workerInfo i).tid = m.tid →
    (m.msgID = .begintx ∨ m.msgID = .jointx → ∀ k < i, (s.workerInfo k).tid ≠ 0) ∧
    (m.msgID = .jointx → ∃ j, ((s.workerInfo i).workers j).port = 0)

/-- Where the table has no gap before the slot of `t`, the search ends in that slot. -/
theorem firstMatch_of_no_gap {T : Table} (hi : (T i).tid = t)
    (hgap : ∀ k < i, (T k).tid ≠ 0) (huniq : ∀ k, (T k).tid = t → k = i) :
    firstMatch T t = some i := by
  refine firstMatch_eq_some.mpr ⟨Or.inl hi, fun k hk => ⟨fun hkt => ?_, hgap k hk⟩⟩
  exact absurd (huniq k hkt) hk.ne

/-- The part of `NoGap` that concerns `BEGIN`. -/
def NoGapBegin (s : Manager) (a : Act Input) : Prop :=
  match a.input with
  | .message _ m _ => m.msgID = .begintx → m.tid ≠ 0 → ∀ i, (s.workerInfo i).tid = m.tid →
      ∀ k < i, (s.workerInfo k).tid ≠ 0
  | _ => True

instance (s : Manager) : ∀ a, Decidable (s.NoGapBegin a)
  | ⟨.message _ _ _, _⟩ => inferInstanceAs (Decidable (_ → _ → ∀ _, _))
  | ⟨.timeout, _⟩ | ⟨.restart, _⟩ => isTrue trivial

theorem NoGap.begin {a : Act Input} (h : s.NoGap a) : s.NoGapBegin a := by
  unfold NoGapBegin
  split
  · rename_i src m u ha
    exact fun hk h0 i hi => (h src m u ha h0 i hi).1 (Or.inl hk)
  · trivial

theorem tableUnique_step {s : Manager} {a : Act Input} (hs : s.TableUnique)
    (hgap : s.NoGapBegin a) : (process.step s a).TableUnique := by
  -- a begun transaction was in no slot, because its slot would have been found
  have hfresh : ∀ k t, s.Begins a.input k t → t ≠ 0 → ∀ j, (s.workerInfo j).tid ≠ t := by
    rintro k t ⟨src, m, u, ha, hk, rfl, hfirst, hne⟩ ht0 j hj
    have hgapj : ∀ k < j, (s.workerInfo k).tid ≠ 0 := by
      simp only [NoGapBegin, ha] at hgap
      exact hgap hk ht0 j hj
    have huniq : ∀ l, (s.workerInfo l).tid = m.tid → l = j := fun l hl =>
      hs l j (hl ▸ ht0) (hl.trans hj.symm)
    have := hfirst.symm.trans (firstMatch_of_no_gap hj hgapj huniq)
    rw [Option.some.inj this] at hne
    exact hne hj
  have hslot : ∀ k k' t t', s.Begins a.input k t → s.Begins a.input k' t' → k = k' := by
    rintro k k' t t' ⟨src, m, u, ha, -, rfl, hfirst, -⟩ ⟨src', m', u', ha', -, rfl, hfirst', -⟩
    cases ha.symm.trans ha'
    exact Option.some.inj (hfirst.symm.trans hfirst')
  intro i j hi hij
  rcases tid_step s a i with h0 | hsame | hbegin
  · exact absurd h0 hi
  · rcases tid_step s a j with h0' | hsame' | hbegin'
    · exact absurd (hij.trans h0') hi
    · exact hs i j (hsame ▸ hi) (hsame.symm.trans (hij.trans hsame'))
    · exact absurd (hsame.symm.trans hij) (hfresh j _ hbegin' (hij ▸ hi) i)
  · rcases tid_step s a j with h0' | hsame' | hbegin'
    · exact absurd (hij.trans h0') hi
    · exact absurd (hsame'.symm.trans hij.symm) (hfresh i _ hbegin hi j)
    · exact hslot i j _ _ hbegin hbegin'

/-! ## How `BEGIN` and `JOIN` are answered -/

variable {src : SockAddr} {m : TxMessage} {u : Uninit} {T : Table} {p : ℕ} {n : NodeId}
  {addr : SockAddr} {index : ℕ}

/-- What a handler that starts with `receive` does to the table. -/
theorem workerInfo_exec_receive (s : Manager) (m : TxMessage) (es fs : List ManagerEffect)
    (hfs : ∀ e ∈ fs, e.isTableWrite = false) :
    (process.exec s (s.receive m ++ (es ++ fs))).workerInfo = (process.exec s es).workerInfo := by
  rw [Process.exec_append, Process.exec_append, workerInfo_exec hfs]
  exact workerInfo_exec_congr (workerInfo_exec fun e he =>
    isTableWrite_of_isBookkeeping (mem_receive he)) es

/-- `saveWorkerInfo` refuses a `BEGIN` exactly when the search ends in its slot. -/
theorem saveWorkerInfo_begin (p : ℕ) (n : NodeId) (addr : SockAddr) (index : ℕ) :
    (saveWorkerInfo T p t .begintx n addr index).1 < 0 ↔
      ∃ i, firstMatch T t = some i ∧ (T i).tid = t := by
  cases hfirst : firstMatch T t with
  | none => simp [saveWorkerInfo_of_full hfirst]
  | some i => by_cases ht : (T i).tid = t <;> simp [saveWorkerInfo_of_match hfirst, ht]

theorem saveWorkerInfo_begin_effects
    (h : (saveWorkerInfo T p t .begintx n addr index).1 < 0) :
    (saveWorkerInfo T p t .begintx n addr index).2 = [] := by
  obtain ⟨i, hi, ht⟩ := (saveWorkerInfo_begin p n addr index).mp h
  simp [saveWorkerInfo_of_match hi, ht]

/-- `saveWorkerInfo` lets a worker join an occupied transaction exactly when the search
    ends in its slot. -/
theorem saveWorkerInfo_join (p : ℕ) (n : NodeId) (addr : SockAddr) (index : ℕ)
    (hi : (T i).tid = t) :
    ¬ (saveWorkerInfo T p t .jointx n addr index).1 < 0 ↔
      ∃ k, firstMatch T t = some k ∧ (T k).tid = t := by
  cases hfirst : firstMatch T t with
  | none =>
      have hnone := firstFin_eq_none.mp hfirst i
      simp [hi] at hnone
  | some k => by_cases ht : (T k).tid = t <;> simp [saveWorkerInfo_of_match hfirst, ht]

theorem saveWorkerInfo_join_effects (h : firstMatch T t = some i) (hi : (T i).tid = t) :
    (saveWorkerInfo T p t .jointx n addr index).2 = addWorker T i p n addr := by
  simp [saveWorkerInfo_of_match h, hi]

theorem handle_begin (s : Manager) (src : SockAddr) (u : Uninit) (hk : m.msgID = .begintx) :
    s.handle (.message src m u) = s.receive m ++
      ((saveWorkerInfo s.workerInfo src.port m.tid .begintx m.nodeId src u.index).2 ++
        ([.clock (tick s.port (s.receivedClock m)), .saveVectorTime] ++
          reply src m (if (saveWorkerInfo s.workerInfo src.port m.tid .begintx m.nodeId src
            u.index).1 < 0 then .beginFail else .beginSuccess) (tick s.port (s.receivedClock m)))) := by
  simp only [handle, handleWorkerMsg, hk, handleBegin, List.append_assoc]

theorem refuses_iff (hk : m.msgID = .begintx) :
    s.Refuses src m u ↔ ∃ i, firstMatch s.workerInfo m.tid = some i ∧
      (s.workerInfo i).tid = m.tid := by
  unfold Refuses
  rw [handle_begin s src u hk, ← saveWorkerInfo_begin src.port m.nodeId src u.index]
  constructor
  · rintro ⟨-, vc, h⟩
    simp only [List.mem_append, List.mem_cons, List.not_mem_nil, reduceCtorEq, or_false] at h
    -- nothing but the reply is a `BEGIN_FAIL`
    rcases h with h | h | h
    · exact absurd (mem_receive h) (by simp [ManagerEffect.isBookkeeping])
    · rcases mem_saveWorkerInfo h with ⟨-, i, -, -, h⟩ | ⟨h, -⟩
      · exact absurd h (by simp)
      · exact absurd h (by simp)
    · by_contra hneg
      rw [if_neg hneg] at h
      rcases mem_reply (h.resolve_left id) with h | h
      · simp [ManagerEffect.isBookkeeping] at h
      · simp [constructMessage] at h
  · intro hneg
    refine ⟨?_, tick s.port (s.receivedClock m), ?_⟩
    · rw [saveWorkerInfo_begin_effects hneg, workerInfo_exec_receive _ _ _ _ ?_]
      · rfl
      · simp [reply, ManagerEffect.isTableWrite]
    · simp [reply, hneg]

theorem handle_join (s : Manager) (src : SockAddr) (u : Uninit) (hk : m.msgID = .jointx) :
    s.handle (.message src m u) = s.receive m ++
      ((saveWorkerInfo s.workerInfo src.port m.tid .jointx m.nodeId src u.index).2 ++
        ([.clock (tick s.port (s.receivedClock m)), .saveVectorTime] ++
          if (saveWorkerInfo s.workerInfo src.port m.tid .jointx m.nodeId src u.index).1 < 0 then
            reply src m .joinFail (tick s.port (s.receivedClock m))
          else .log { msgID := .jointx, tid := m.tid, nodeId := m.nodeId } ::
            reply src m .joinSuccess (tick s.port (s.receivedClock m)))) := by
  simp only [handle, handleWorkerMsg, hk, handleJoin, List.append_assoc]

/-- The three writes of `addWorker` enter the worker. -/
theorem exec_addWorker (s : Manager) (i : Fin maxTrans) (j : Fin maxNodes) :
    process.exec s [.port i j p, .nodeId i j n, .workerAddr i j addr] =
      s.withEntry i j fun w => { w with port := p, nodeId := n, workerAddr := addr } := by
  simp [apply, withEntry, withSlot]

theorem exists_addWorker (p : ℕ) (n : NodeId) (addr : SockAddr) (h : ∃ j, ((T i).workers j).port = 0) :
    ∃ j, ((T i).workers j).port = 0 ∧
      addWorker T i p n addr = [.port i j p, .nodeId i j n, .workerAddr i j addr] := by
  obtain ⟨j, hj⟩ := h
  obtain ⟨j', hfirst, hfree⟩ :=
    exists_firstFin (p := fun j => decide (((T i).workers j).port = 0)) (decide_eq_true hj)
  refine ⟨j', of_decide_eq_true hfree, ?_⟩
  simp [addWorker, hfirst]

theorem acceptsInto_iff (hk : m.msgID = .jointx) (hi : (s.workerInfo i).tid = m.tid)
    (huniq : ∀ k, (s.workerInfo k).tid = m.tid → k = i) :
    s.AcceptsInto i src m u ↔ firstMatch s.workerInfo m.tid = some i ∧
      ∃ j, ((s.workerInfo i).workers j).port = 0 := by
  unfold AcceptsInto
  rw [handle_join s src u hk]
  constructor
  · rintro ⟨⟨j, hj, -⟩, vc, h⟩
    refine ⟨?_, j, hj⟩
    simp only [List.mem_append, List.mem_cons, List.not_mem_nil, reduceCtorEq, or_false] at h
    -- nothing but the reply is a `JOIN_SUCCESS`
    rcases h with h | h | h
    · exact absurd (mem_receive h) (by simp [ManagerEffect.isBookkeeping])
    · rcases mem_saveWorkerInfo h with ⟨h, -⟩ | ⟨-, k, l, -, h | h | h⟩
      · exact absurd rfl h
      all_goals exact absurd h (by simp)
    · replace h := h.resolve_left id
      split at h
      · rcases mem_reply h with h | h
        · simp [ManagerEffect.isBookkeeping] at h
        · simp [constructMessage] at h
      · rename_i hpos
        obtain ⟨k, hfirst, hkt⟩ := (saveWorkerInfo_join _ _ _ _ hi).mp hpos
        rw [hfirst, huniq k hkt]
  · rintro ⟨hfirst, hfree⟩
    have hpos := (saveWorkerInfo_join src.port m.nodeId src u.index hi).mpr ⟨i, hfirst, hi⟩
    -- the free entry is the one that is filled
    obtain ⟨j, hj, hadd⟩ := exists_addWorker src.port m.nodeId src hfree
    refine ⟨⟨j, hj, ?_⟩, tick s.port (s.receivedClock m), ?_⟩
    · rw [if_neg hpos, saveWorkerInfo_join_effects hfirst hi, hadd,
        workerInfo_exec_receive _ _ _ _ ?_, exec_addWorker]
      simp [reply, ManagerEffect.isTableWrite]
    · simp [reply, hpos]

/-! ## The exact condition -/

theorem servesMap_iff {a : Act Input} (hs : s.TableUnique) : s.ServesMap a ↔ s.NoGap a := by
  unfold ServesMap NoGap
  refine forall₄_congr fun src m u _ => forall₃_congr fun h0 i hi => ?_
  have huniq : ∀ k, (s.workerInfo k).tid = m.tid → k = i := fun k hk =>
    hs k i (hk ▸ h0) (hk.trans hi.symm)
  -- the search ends in slot `i` exactly when no slot before it is empty
  have hfound : firstMatch s.workerInfo m.tid = some i ↔ ∀ k < i, (s.workerInfo k).tid ≠ 0 :=
    ⟨fun h k hk => ((firstMatch_eq_some.mp h).2 k hk).2, fun h => firstMatch_of_no_gap hi h huniq⟩
  have hbegin : m.msgID = .begintx →
      (s.Refuses src m u ↔ ∀ k < i, (s.workerInfo k).tid ≠ 0) := by
    intro hk
    rw [refuses_iff hk, ← hfound]
    constructor
    · rintro ⟨k, hfirst, hkt⟩
      rw [hfirst, huniq k hkt]
    · intro h
      exact ⟨i, h, hi⟩
  have hjoin : m.msgID = .jointx → (s.AcceptsInto i src m u ↔
      (∀ k < i, (s.workerInfo k).tid ≠ 0) ∧ ∃ j, ((s.workerInfo i).workers j).port = 0) := by
    intro hk
    rw [acceptsInto_iff hk hi huniq, hfound]
  constructor
  · rintro ⟨hb, hj⟩
    exact ⟨fun hk => hk.elim (fun hk => (hbegin hk).mp (hb hk)) fun hk => ((hjoin hk).mp (hj hk)).1,
      fun hk => ((hjoin hk).mp (hj hk)).2⟩
  · rintro ⟨hgap, hfree⟩
    exact ⟨fun hk => (hbegin hk).mpr (hgap (Or.inl hk)),
      fun hk => (hjoin hk).mpr ⟨hgap (Or.inr hk), hfree hk⟩⟩

theorem tableUnique_start (port : NodeId) : (start port).TableUnique := fun _ _ h => absurd rfl h

/-- The table is a map along a run exactly when no step of the run meets a gap. -/
theorem table_is_map_iff_no_gap (port : NodeId) (as : List (Act Input)) :
    process.machine.Along MapStep (start port) as ↔ process.machine.Along NoGap (start port) as := by
  constructor
  · intro h
    refine h.strengthen (I := TableUnique) (tableUnique_start port) ?_ ?_
    · intro s a _ hstep
      exact hstep.1
    · intro s a hs hstep
      exact (servesMap_iff hs).mp hstep.2
  · intro h
    refine h.strengthen (I := TableUnique) (tableUnique_start port) ?_ ?_
    · intro s a hs hgap
      exact tableUnique_step hs hgap.begin
    · intro s a hs hgap
      exact ⟨tableUnique_step hs hgap.begin, (servesMap_iff hs).mpr hgap⟩

/-- A message of worker 40, delivered to a running manager. -/
def gapMessage (msgID : MsgId) (tid : Tid) : Act Input where
  input := .message ⟨1, 40⟩ { msgID, tid, nodeId := 40, isCrash := false, vectorClock := emptyClock } {}

/-- Transaction 1 commits while 2 is open, and 2 is begun again. -/
def gapRun : List (Act Input) :=
  [gapMessage .begintx 1, gapMessage .begintx 2, gapMessage .jointx 1, gapMessage .commit 1,
    gapMessage .voteCommit 1, gapMessage .begintx 2]

/-- The second `BEGIN` of transaction 2 enters it into the slot that 1 left. -/
theorem table_not_map :
    process.machine.Along process.machine.enabled (start 7) gapRun ∧
      ¬ process.machine.Along MapStep (start 7) gapRun := by
  refine ⟨by decide +kernel, fun h => ?_⟩
  have huniq := h.invariant (I := TableUnique) (tableUnique_start 7) fun _ _ _ hstep => hstep.1
  have hdup : ¬ (process.machine.after (start 7) gapRun).TableUnique := by decide +kernel
  exact hdup huniq

end Manager

end DistributedSystem.Transaction
