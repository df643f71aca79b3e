import DistributedSystem.Transaction.Decision
import DistributedSystem.Transaction.TableMap

/-!
# What a BEGIN_SUCCESS and a JOIN_SUCCESS promise

A worker that is told its `BEGIN` or `JOIN` succeeded relies on being in the table: on a slot
for the transaction, and on the messages that `sendToAllWorkers` sends to its participants
later. `saveWorkerInfo` reports success also when its search runs off the table or finds no
free entry, so the promise is kept exactly when there is room.
-/

namespace DistributedSystem.Transaction

open DistributedSystem.Library

namespace Manager

variable {s : Manager} {e : ManagerEffect} {inp : Input} {i k : Fin maxTrans} {j : Fin maxNodes}
  {t : Tid} {src : SockAddr} {m : TxMessage} {u : Uninit} {n : NodeId} {T : Table}

/-! ## Participants that stay -/

/-- Entry `j` of slot `i` lists the worker as a participant of `t`. -/
structure Entered (s : Manager) (t : Tid) (src : SockAddr) (n : NodeId) (i : Fin maxTrans)
    (j : Fin maxNodes) : Prop where
  tid : (s.workerInfo i).tid = t
  port : ((s.workerInfo i).workers j).port = src.port
  port_ne_zero : src.port ≠ 0
  nodeId : ((s.workerInfo i).workers j).nodeId = n
  workerAddr : ((s.workerInfo i).workers j).workerAddr = src

/-- The worker is listed for `t`, and every message to the workers of `t` reaches it. -/
def Reaches (s : Manager) (t : Tid) (src : SockAddr) (n : NodeId) : Prop :=
  (∃ i j, s.Entered t src n i j) ∧ ∀ vc recvNodeId msgKind, ∃ p,
    .send src p ∈ s.sendToAllWorkers vc t recvNodeId msgKind ∧ p.msgID = msgKind ∧ p.tid = t

/-- `sendLoop` sends to everybody on its list. -/
theorem exists_send_mem_sendLoop (port : NodeId) (c : MsgId) (r : NodeId) {ws : List (Tid × W)}
    {w : W} (h : (t, w) ∈ ws) (vc : VClock) :
    ∃ p, .send w.workerAddr p ∈ sendLoop port c r vc ws ∧ p.msgID = c ∧ p.tid = t := by
  induction ws generalizing vc with
  | nil => simp at h
  | cons x ws ih =>
      simp only [sendLoop, List.mem_append]
      rcases List.mem_cons.mp h with rfl | h
      · exact ⟨_, Or.inl (by simp [sendTo]; rfl), rfl, rfl⟩
      · obtain ⟨p, hp, hkind⟩ := ih h (tick port vc)
        exact ⟨p, Or.inr hp, hkind⟩

theorem Entered.reaches (h : s.Entered t src n i j) : s.Reaches t src n := by
  refine ⟨⟨i, j, h⟩, fun vc r c => ?_⟩
  have hport : ((s.workerInfo i).workers j).port ≠ 0 := by
    rw [h.port]
    exact h.port_ne_zero
  have hmem : (s.workerInfo i).workers j ∈ targets s.workerInfo t :=
    mem_targets.mpr ⟨i, h.tid, hport, j, rfl⟩
  obtain ⟨p, hp, hkind⟩ := exists_send_mem_sendLoop s.port c r
    (List.mem_map.mpr ⟨_, hmem, rfl⟩) vc
  rw [h.workerAddr] at hp
  exact ⟨p, hp, hkind⟩

/-- The effect writes the id of slot `i` or the address of its entry `j`. -/
def Touches (i : Fin maxTrans) (j : Fin maxNodes) : ManagerEffect → Prop
  | .tid k _ => k = i
  | .nodeId k l _ | .port k l _ | .workerAddr k l _ => k = i ∧ l = j
  | _ => False

theorem not_touches_of_isBookkeeping (h : e.isBookkeeping) : ¬ Touches i j e := by
  cases e <;> simp_all [ManagerEffect.isBookkeeping, Touches]

theorem Entered.apply (h : s.Entered t src n i j) (he : ¬ Touches i j e) :
    (s.apply e).Entered t src n i j := by
  have htid : ((s.apply e).workerInfo i).tid = (s.workerInfo i).tid := by
    rw [tid_apply]
    split
    · exact if_neg fun hi => he hi.symm
    · rfl
  have hentry : ∃ v, ((s.apply e).workerInfo i).workers j =
      { (s.workerInfo i).workers j with voteYes := v } := by
    rw [workers_apply]
    split
    · exact ⟨_, if_neg fun hi => he ⟨hi.1.symm, hi.2.symm⟩⟩
    · exact ⟨_, if_neg fun hi => he ⟨hi.1.symm, hi.2.symm⟩⟩
    · exact ⟨_, if_neg fun hi => he ⟨hi.1.symm, hi.2.symm⟩⟩
    · split
      · exact ⟨_, rfl⟩
      · exact ⟨_, rfl⟩
    · exact ⟨_, rfl⟩
  obtain ⟨v, hv⟩ := hentry
  exact ⟨htid.trans h.tid, by rw [hv]; exact h.port, h.port_ne_zero, by rw [hv]; exact h.nodeId,
    by rw [hv]; exact h.workerAddr⟩

/-! ## Which handlers touch an entry -/

/-- The effects leave the entry alone, at least until they have logged a decision on `t`. -/
def Spares (t : Tid) (i : Fin maxTrans) (j : Fin maxNodes) (es : List ManagerEffect) : Prop :=
  (∀ e ∈ es, ¬ Touches i j e) ∨ ∃ pre r post, es = pre ++ .log r :: post ∧
    (∀ e ∈ pre, ¬ Touches i j e) ∧ r.tid = t ∧ (r.msgID = .decideCommit ∨ r.msgID = .decideAbort)

theorem Spares.append {es fs : List ManagerEffect} (h : ∀ e ∈ es, ¬ Touches i j e)
    (hfs : Spares t i j fs) : Spares t i j (es ++ fs) := by
  rcases hfs with hfs | ⟨pre, r, post, rfl, hpre, hr⟩
  · refine Or.inl fun e he => ?_
    rcases List.mem_append.mp he with he | he
    · exact h e he
    · exact hfs e he
  · refine Or.inr ⟨es ++ pre, r, post, (List.append_assoc _ _ _).symm, fun e he => ?_, hr⟩
    rcases List.mem_append.mp he with he | he
    · exact h e he
    · exact hpre e he

/-- A handler cut off before it logs the decision has not touched the entry. -/
theorem Spares.performed {a : Act Input} (h : Spares t i j (s.handle a.input))
    (hno : ∀ r, .log r ∈ process.performed s a → r.tid = t →
      r.msgID ≠ .decideCommit ∧ r.msgID ≠ .decideAbort) :
    ∀ e ∈ process.performed s a, ¬ Touches i j e := by
  intro e he
  rcases h with h | ⟨pre, r, post, heq, hpre, htid, hr⟩
  · rcases Process.mem_performed he with he | rfl
    · exact h e he
    · exact id
  · have hlog : .log r ∉ process.performed s a := by
      intro hmem
      obtain ⟨hc, ha⟩ := hno r hmem htid
      exact hr.elim hc ha
    unfold Process.performed at he hlog
    rw [process_handler, heq] at he hlog
    cases hcut : a.cut with
    | none => simp [hcut] at hlog
    | some c =>
        rw [hcut] at he hlog
        simp only [List.mem_append, List.mem_singleton] at he hlog
        rcases he with he | rfl
        · -- the cut lies in front of the record
          rw [List.take_append] at he hlog
          have hnil : c - pre.length = 0 := by
            by_contra hpos
            obtain ⟨d, hd⟩ := Nat.exists_eq_succ_of_ne_zero hpos
            exact hlog (Or.inl (by simp [hd]))
          rw [hnil, List.take_zero, List.append_nil] at he
          exact hpre e (List.mem_of_mem_take he)
        · exact id

theorem not_touches_sendToAllWorkers {vc : VClock} {r : NodeId} {c : MsgId}
    (h : e ∈ s.sendToAllWorkers vc t r c) : ¬ Touches i j e := by
  rcases mem_sendToAllWorkers h with hb | ⟨w, -, n', vc', rfl⟩
  · exact not_touches_of_isBookkeeping hb
  · exact id

theorem not_touches_sendTo {port : NodeId} {vc : VClock} {a : SockAddr} {r : NodeId} {c : MsgId}
    (h : e ∈ sendTo port vc a c t r) : ¬ Touches i j e := by
  rcases mem_sendTo h with hb | ⟨vc', rfl⟩
  · exact not_touches_of_isBookkeeping hb
  · exact id

theorem not_touches_reply {vc : VClock} {c : MsgId} (h : e ∈ reply src m c vc) : ¬ Touches i j e := by
  rcases mem_reply h with hb | rfl
  · exact not_touches_of_isBookkeeping hb
  · exact id

/-- `cleanWorkerInfo` touches the slot of its own transaction only. -/
theorem not_touches_clean (hi : (T i).tid ≠ t) (h : e ∈ cleanWorkerInfo T t) : ¬ Touches i j e := by
  obtain ⟨k, hk, hcases⟩ := mem_cleanWorkerInfo h
  have hne : k ≠ i := by
    rintro rfl
    exact hi (findSlot_eq_some.mp hk).1
  rcases hcases with rfl | rfl | ⟨l, rfl | rfl | rfl⟩
  · exact hne
  · exact id
  · exact fun h => hne h.1
  · exact fun h => hne h.1
  · exact id

/-- `announce` touches nothing before the decision is logged. -/
theorem spares_announce {d : MsgId} (hd : d = .decideCommit ∨ d = .decideAbort)
    (hi : (s.workerInfo i).tid = t) : Spares t i j (s.announce m d) := by
  obtain ⟨pre, post, heq, hrest⟩ := announce_eq s m d
  by_cases ht : m.tid = t
  · exact Or.inr ⟨[], _, _, heq, by simp, ht, hd⟩
  · refine Or.inl fun e he => ?_
    rcases mem_announce he with rfl | he | he | ⟨k, b, rfl⟩ | rfl | ⟨w, -, n', vc, rfl⟩
    · exact id
    · exact not_touches_clean (fun h => ht (h.symm.trans hi)) he
    · exact not_touches_of_isBookkeeping he
    all_goals exact id

theorem spares_handleVote (hi : (s.workerInfo i).tid = t) : Spares t i j (s.handleVote src m u) := by
  have hvotes : ∀ e ∈ s.crashFlag m ++ ((process.exec s (s.crashFlag m)).collectVote m u.commit).2,
      (∃ k b, e = .isCrash k b) ∨ ∃ k l v, e = .voteYes k l v := by
    intro e he
    rcases List.mem_append.mp he with he | he
    · exact Or.inl (mem_crashFlag he)
    · obtain ⟨k, l, -, -, rfl⟩ := mem_collectVote he
      exact Or.inr ⟨k, l, _, rfl⟩
  have hcounted : ((s.counted m u.commit).workerInfo i).tid = t := by
    unfold counted
    rw [← Process.exec_append, ← hi]
    refine Process.exec_unchanged (fun x : Manager => (x.workerInfo i).tid) fun x e he => ?_
    rw [process_apply, tid_apply]
    rcases hvotes e he with ⟨k, b, rfl⟩ | ⟨k, l, v, rfl⟩ <;> rfl
  rw [handleVote_eq]
  refine Spares.append (fun e he => ?_) ?_
  · rcases hvotes e he with ⟨k, b, rfl⟩ | ⟨k, l, v, rfl⟩ <;> exact id
  · split
    · split
      · exact Or.inl fun e he => not_touches_sendTo he
      · exact spares_announce (Or.inl rfl) hcounted
    · exact Or.inl fun e he => not_touches_sendTo he
    · exact Or.inl (by simp)

/-- `saveWorkerInfo` takes an empty slot or a free entry. -/
theorem not_touches_saveWorkerInfo {p : ℕ} {x : Tid} {c : MsgId} {n' : NodeId} {a : SockAddr} {index : ℕ}
    (h : s.Entered t src n i j) (ht : t ≠ 0)
    (he : e ∈ (saveWorkerInfo s.workerInfo p x c n' a index).2) : ¬ Touches i j e := by
  have hport : ((s.workerInfo i).workers j).port ≠ 0 := by
    rw [h.port]
    exact h.port_ne_zero
  rcases mem_saveWorkerInfo he with ⟨-, k, hk, hne, rfl⟩ | ⟨-, k, l, hfree, hcases⟩
  · rintro rfl
    have hempty := (firstMatch_eq_some.mp hk).1.resolve_left hne
    exact ht (h.tid.symm.trans hempty)
  · have hother : ¬ (k = i ∧ l = j) := by
      rintro ⟨rfl, rfl⟩
      exact hport hfree
    rcases hcases with rfl | rfl | rfl
    all_goals exact hother

/-- **A participant stays in the table** until a decision on its transaction is logged. -/
theorem spares_handle (h : s.Entered t src n i j) (ht : t ≠ 0) (inp : Input) :
    Spares t i j (s.handle inp) := by
  cases inp with
  | timeout =>
      simp only [handle, voteTimeout]
      split
      · rename_i x hx
        by_cases hxt : x = t
        · exact Or.inr ⟨[.abortTid x], _, _, rfl, by simp [Touches], hxt, Or.inr rfl⟩
        · refine Or.inl fun e he => ?_
          simp only [List.mem_append, List.mem_cons, List.not_mem_nil, or_false] at he
          rcases he with ((rfl | rfl) | he) | he
          · exact id
          · exact id
          · exact not_touches_sendToAllWorkers he
          · exact not_touches_clean (fun hi => hxt (hi.symm.trans h.tid)) he
      · exact Or.inl (by simp)
  | restart =>
      refine Or.inl fun e he => ?_
      simp only [handle, restart, List.mem_append, List.mem_cons, List.not_mem_nil, or_false] at he
      rcases he with ((rfl | rfl | rfl | rfl) | he) | rfl
      · exact id
      · exact id
      · exact id
      · exact id
      · rcases mem_sendLoop he with hb | ⟨x, -, n', vc', rfl⟩
        · exact not_touches_of_isBookkeeping hb
        · exact id
      · exact id
  | message src' m' u' =>
      refine Spares.append (fun e he => not_touches_of_isBookkeeping (mem_receive he)) ?_
      split
      · -- an empty slot is taken
        refine Or.inl fun e he => ?_
        simp only [handleBegin, List.mem_append, List.mem_cons, List.not_mem_nil, or_false] at he
        rcases he with (he | rfl | rfl) | he
        · exact not_touches_saveWorkerInfo h ht he
        · exact id
        · exact id
        · exact not_touches_reply he
      · -- a free entry is taken
        refine Or.inl fun e he => ?_
        simp only [handleJoin, List.mem_append, List.mem_cons, List.not_mem_nil, or_false] at he
        rcases he with (he | rfl | rfl) | he
        · exact not_touches_saveWorkerInfo h ht he
        · exact id
        · exact id
        · split at he
          · exact not_touches_reply he
          · rcases List.mem_cons.mp he with rfl | he
            · exact id
            · exact not_touches_reply he
      · refine Or.inl fun e he => ?_
        rcases List.mem_cons.mp he with rfl | he
        · exact id
        · exact not_touches_sendToAllWorkers he
      · exact spares_handleVote h.tid
      · exact spares_handleVote h.tid
      · refine Spares.append (fun e he => ?_) (spares_announce (Or.inr rfl) ?_)
        · obtain ⟨k, b, rfl⟩ := mem_crashFlag he
          exact id
        · exact (exec_crashFlag s m' i).1.trans h.tid
      · exact Or.inl (by simp)

/-! ## From the acknowledgement on -/

/-- The step logs no decision on `t`. -/
def Undecided (t : Tid) (s : Manager) (a : Act Input) : Prop :=
  ∀ r, .log r ∈ process.performed s a → r.tid = t →
    r.msgID ≠ .decideCommit ∧ r.msgID ≠ .decideAbort

/-- Step lemma. -/
theorem entered_step {a : Act Input} (h : s.Entered t src n i j) (ht : t ≠ 0) (hno : s.Undecided t a) :
    (process.step s a).Entered t src n i j := by
  have hspares := (spares_handle h ht a.input).performed hno
  exact Process.exec_invariant (I := fun x : Manager => x.Entered t src n i j) h
    fun x e he hx => hx.apply (hspares e he)

/-- Run lemma: a participant is reached until its transaction is decided. -/
theorem reaches_after {bs : List (Act Input)} (h : s.Entered t src n i j) (ht : t ≠ 0)
    (hno : process.machine.Along (Undecided t) s bs) : (process.machine.after s bs).Reaches t src n :=
  (hno.invariant h fun _ _ hx hC => entered_step hx ht hC).reaches

/-- The messages of an answer: to whom, and of which kind. -/
def answers (es : List ManagerEffect) : List (SockAddr × MsgId) :=
  es.filterMap fun
    | .send dst m => some (dst, m.msgID)
    | _ => none

/-- The state after a message. -/
def answered (s : Manager) (src : SockAddr) (m : TxMessage) (u : Uninit) : Manager :=
  process.step s ⟨.message src m u, none⟩

/-- The only answer is `failure`, and the table is what it was. -/
def Declines (s : Manager) (src : SockAddr) (m : TxMessage) (u : Uninit) (failure : MsgId) : Prop :=
  answers (s.handle (.message src m u)) = [(src, failure)] ∧
    (s.answered src m u).workerInfo = s.workerInfo

/-- What the answers to `BEGIN` and `JOIN` promise. After `BEGIN_SUCCESS` the transaction has
    a slot. After `JOIN_SUCCESS` the worker is reached by every message to the workers of the
    transaction until a decision on it is logged. A request for which there is no place, in
    the table or in the slot of the transaction, is declined. -/
structure KeepsPromise (s : Manager) (src : SockAddr) (m : TxMessage) (u : Uninit) : Prop where
  begun : m.msgID = .begintx → (src, .beginSuccess) ∈ answers (s.handle (.message src m u)) →
    (s.answered src m u).Holds m.tid
  joined : m.msgID = .jointx → (src, .joinSuccess) ∈ answers (s.handle (.message src m u)) →
    ∀ bs, process.machine.Along (Undecided m.tid) (s.answered src m u) bs →
      (process.machine.after (s.answered src m u) bs).Reaches m.tid src m.nodeId
  beginDeclined : m.msgID = .begintx → (∀ i, (s.workerInfo i).tid ≠ 0) →
    s.Declines src m u .beginFail
  joinDeclined : m.msgID = .jointx → (∀ i, findSlot s.workerInfo m.tid = some i →
    ∀ j, ((s.workerInfo i).workers j).port ≠ 0) → s.Declines src m u .joinFail

/-- The search of `saveWorkerInfo` ends in a slot, and if a worker joins and the slot is that
    of its transaction, then the worker has a port and the slot a free entry. -/
def HasRoom (s : Manager) (src : SockAddr) (m : TxMessage) : Prop :=
  ∃ i, firstMatch s.workerInfo m.tid = some i ∧
    (m.msgID = .jointx → (s.workerInfo i).tid = m.tid →
      src.port ≠ 0 ∧ ∃ j, ((s.workerInfo i).workers j).port = 0)

/-! ## The answers -/

@[simp] theorem answers_append (es fs : List ManagerEffect) :
    answers (es ++ fs) = answers es ++ answers fs := List.filterMap_append

theorem answers_eq_nil {es : List ManagerEffect} (h : ∀ e ∈ es, ∀ a p, e ≠ .send a p) : answers es = [] := by
  refine List.filterMap_eq_nil_iff.mpr fun e he => ?_
  cases e with
  | send a p => exact absurd rfl (h _ he a p)
  | _ => rfl

theorem answers_saveWorkerInfo (p : ℕ) (x : Tid) (c : MsgId) (n' : NodeId) (a : SockAddr) (index : ℕ) :
    answers (saveWorkerInfo T p x c n' a index).2 = [] := by
  refine answers_eq_nil fun e he b q => ?_
  rcases mem_saveWorkerInfo he with ⟨-, k, -, -, rfl⟩ | ⟨-, k, l, -, rfl | rfl | rfl⟩ <;> simp

theorem answers_begin (s : Manager) (src : SockAddr) (u : Uninit) (hk : m.msgID = .begintx) :
    answers (s.handle (.message src m u)) = [(src,
      if (saveWorkerInfo s.workerInfo src.port m.tid .begintx m.nodeId src u.index).1 < 0 then .beginFail
      else .beginSuccess)] := by
  rw [handle_begin s src u hk]
  simp only [answers_append, answers_saveWorkerInfo]
  rfl

theorem answers_join (s : Manager) (src : SockAddr) (u : Uninit) (hk : m.msgID = .jointx) :
    answers (s.handle (.message src m u)) = [(src,
      if (saveWorkerInfo s.workerInfo src.port m.tid .jointx m.nodeId src u.index).1 < 0 then .joinFail
      else .joinSuccess)] := by
  rw [handle_join s src u hk]
  simp only [answers_append, answers_saveWorkerInfo]
  split <;> rfl

/-- The table after a `BEGIN` or `JOIN` is what `saveWorkerInfo` leaves. -/
theorem workerInfo_answered (s : Manager) (src : SockAddr) (u : Uninit)
    (hk : m.msgID = .begintx ∨ m.msgID = .jointx) :
    (s.answered src m u).workerInfo = (process.exec s
      (saveWorkerInfo s.workerInfo src.port m.tid m.msgID m.nodeId src u.index).2).workerInfo := by
  show (process.exec s (s.handle (.message src m u))).workerInfo = _
  rcases hk with hk | hk
  · rw [handle_begin s src u hk, hk]
    refine workerInfo_exec_receive _ _ _ _ ?_
    simp [reply, ManagerEffect.isTableWrite]
  · rw [handle_join s src u hk, hk]
    refine workerInfo_exec_receive _ _ _ _ fun e he => ?_
    simp only [List.mem_append, List.mem_cons, List.not_mem_nil, or_false] at he
    rcases he with (rfl | rfl) | he
    · rfl
    · rfl
    · split at he
      · rcases mem_reply he with hb | rfl
        · exact isTableWrite_of_isBookkeeping hb
        · rfl
      · rcases List.mem_cons.mp he with rfl | he
        · rfl
        · rcases mem_reply he with hb | rfl
          · exact isTableWrite_of_isBookkeeping hb
          · rfl

/-! ## The promise is kept where there is room -/

/-- Without a match every slot holds another transaction. -/
theorem firstMatch_eq_none : firstMatch T t = none ↔ ∀ i, (T i).tid ≠ t ∧ (T i).tid ≠ 0 := by
  simp only [firstMatch, firstFin_eq_none, decide_eq_false_iff_not, not_or]

theorem keepsPromise_begin (hk : m.msgID = .begintx) :
    s.KeepsPromise src m u ↔ s.HasRoom src m := by
  have hj : m.msgID ≠ .jointx := by simp [hk]
  have hanswers := answers_begin s src u hk
  have htable := workerInfo_answered s src u (Or.inl hk)
  rw [hk] at htable
  cases hfirst : firstMatch s.workerInfo m.tid with
  | none =>
      -- the search runs off the table, and the answer is a success
      have hfull := firstMatch_eq_none.mp hfirst
      refine iff_of_false (fun h => ?_) fun ⟨i, hi, _⟩ => by simp [hfirst] at hi
      have hfail := (h.beginDeclined hk fun i => (hfull i).2).1
      rw [hanswers, saveWorkerInfo_of_full hfirst] at hfail
      simp at hfail
  | some i =>
      refine iff_of_true ⟨fun _ hsuccess => ?_, fun h => absurd h hj, fun _ hfull => ?_,
        fun h => absurd h hj⟩ ⟨i, hfirst, fun h => absurd h hj⟩
      · by_cases hi : (s.workerInfo i).tid = m.tid
        · rw [hanswers, saveWorkerInfo_of_match hfirst] at hsuccess
          simp [hi] at hsuccess
        · refine ⟨i, ?_⟩
          rw [htable, saveWorkerInfo_of_match hfirst, if_neg hi, if_neg (by simp)]
          simp [tid_apply]
      · have hi := (firstMatch_eq_some.mp hfirst).1.resolve_right (hfull i)
        refine ⟨?_, ?_⟩
        · rw [hanswers, saveWorkerInfo_of_match hfirst]
          simp [hi]
        · rw [htable, saveWorkerInfo_of_match hfirst]
          simp [hi]

/-- A worker that finds a free entry is entered. -/
theorem entered_answered (hk : m.msgID = .jointx) (hfirst : firstMatch s.workerInfo m.tid = some i)
    (hi : (s.workerInfo i).tid = m.tid) (hport : src.port ≠ 0)
    (hfree : ∃ j, ((s.workerInfo i).workers j).port = 0) :
    ∃ j, (s.answered src m u).Entered m.tid src m.nodeId i j := by
  obtain ⟨j, hj, hadd⟩ := exists_addWorker src.port m.nodeId src hfree
  have htable := workerInfo_answered s src u (Or.inr hk)
  rw [hk, saveWorkerInfo_join_effects hfirst hi, hadd, exec_addWorker] at htable
  refine ⟨j, ?_, ?_, hport, ?_, ?_⟩
  all_goals rw [htable]
  · simpa [withEntry, withSlot] using hi
  all_goals simp [withEntry, withSlot]

theorem keepsPromise_join (hk : m.msgID = .jointx) (ht : m.tid ≠ 0) :
    s.KeepsPromise src m u ↔ s.HasRoom src m := by
  have hb : m.msgID ≠ .begintx := by simp [hk]
  have hanswers := answers_join s src u hk
  have htable := workerInfo_answered s src u (Or.inr hk)
  rw [hk] at htable
  cases hfirst : firstMatch s.workerInfo m.tid with
  | none =>
      -- the transaction is unknown and the table is full, and the answer is a success
      have hfull := firstMatch_eq_none.mp hfirst
      refine iff_of_false (fun h => ?_) fun ⟨i, hi, _⟩ => by simp [hfirst] at hi
      have hunknown : findSlot s.workerInfo m.tid = none := findSlot_eq_none.mpr fun i => (hfull i).1
      have hfail := (h.joinDeclined hk fun i hi => by simp [hunknown] at hi).1
      rw [hanswers, saveWorkerInfo_of_full hfirst] at hfail
      simp at hfail
  | some i =>
      by_cases hi : (s.workerInfo i).tid = m.tid
      · have hslot : findSlot s.workerInfo m.tid = some i :=
          findSlot_eq_some.mpr ⟨hi, fun k hk => ((firstMatch_eq_some.mp hfirst).2 k hk).1⟩
        have hsuccess : answers (s.handle (.message src m u)) = [(src, .joinSuccess)] := by
          rw [hanswers, saveWorkerInfo_of_match hfirst]
          simp [hi]
        constructor
        · intro h
          refine ⟨i, hfirst, fun _ _ => ⟨?_, ?_⟩⟩
          · -- what reaches the worker goes to its port
            obtain ⟨⟨k, l, hentered⟩, -⟩ := h.joined hk (by simp [hsuccess]) [] trivial
            exact hentered.port_ne_zero
          · by_contra hfull
            have hfail := (h.joinDeclined hk fun k hk' j hj => hfull ⟨j, by
              rw [hslot] at hk'
              rw [Option.some.inj hk']
              exact hj⟩).1
            simp [hsuccess] at hfail
        · rintro ⟨k, hk', hroom⟩
          obtain rfl : i = k := Option.some.inj (hfirst.symm.trans hk')
          obtain ⟨hport, hfree⟩ := hroom hk hi
          refine ⟨fun h => absurd h hb, fun _ _ bs hbs => ?_, fun h => absurd h hb, fun _ hfull => ?_⟩
          · obtain ⟨j, hentered⟩ := entered_answered (u := u) hk hfirst hi hport hfree
            exact reaches_after hentered ht hbs
          · obtain ⟨j, hj⟩ := hfree
            exact absurd hj (hfull i hslot j)
      · -- the search ends in an empty slot, and the worker is declined
        have hdeclines : s.Declines src m u .joinFail := by
          refine ⟨?_, ?_⟩
          · rw [hanswers, saveWorkerInfo_of_match hfirst]
            simp [hi]
          · rw [htable, saveWorkerInfo_of_match hfirst]
            simp [hi]
        refine iff_of_true ⟨fun h => absurd h hb, fun _ hsuccess => ?_, fun h => absurd h hb,
          fun _ _ => hdeclines⟩ ⟨i, hfirst, fun _ h => absurd h hi⟩
        rw [hdeclines.1] at hsuccess
        simp at hsuccess

/-- **Acknowledged means registered**, in every state, exactly when the table has room for
    the request. -/
theorem acknowledged_iff_room (s : Manager) (src : SockAddr) (m : TxMessage) (u : Uninit)
    (ht : m.tid ≠ 0) (hk : m.msgID = .begintx ∨ m.msgID = .jointx) :
    s.KeepsPromise src m u ↔ s.HasRoom src m := by
  rcases hk with hk | hk
  · exact keepsPromise_begin hk
  · exact keepsPromise_join hk ht

/-- The first `JOIN` of a transaction that has just begun. -/
theorem acknowledged_iff_room_join :
    (process.step (start 7) (gapMessage .begintx 1)).KeepsPromise ⟨1, 40⟩
        { msgID := .jointx, tid := 1, nodeId := 40, isCrash := false, vectorClock := emptyClock } {} ↔
      (process.step (start 7) (gapMessage .begintx 1)).HasRoom ⟨1, 40⟩
        { msgID := .jointx, tid := 1, nodeId := 40, isCrash := false, vectorClock := emptyClock } :=
  acknowledged_iff_room _ _ _ _ (by decide) (Or.inr rfl)

/-- Transactions 1 to 5 fill the table. -/
def fullTable : Manager :=
  process.machine.after (start 7) [gapMessage .begintx 1, gapMessage .begintx 2, gapMessage .begintx 3,
    gapMessage .begintx 4, gapMessage .begintx 5]

/-- The sixth `BEGIN` succeeds and leaves no trace in the table. -/
theorem success_without_slot :
    process.machine.Along process.machine.enabled (start 7) [gapMessage .begintx 1, gapMessage .begintx 2,
        gapMessage .begintx 3, gapMessage .begintx 4, gapMessage .begintx 5, gapMessage .begintx 6] ∧
      answers (process.performed fullTable (gapMessage .begintx 6)) = [(⟨1, 40⟩, .beginSuccess)] ∧
      (∀ i, ((process.step fullTable (gapMessage .begintx 6)).workerInfo i).tid ≠ 6) ∧
      ¬ fullTable.KeepsPromise ⟨1, 40⟩
        { msgID := .begintx, tid := 6, nodeId := 40, isCrash := false, vectorClock := emptyClock } {} := by
  refine ⟨by decide +kernel, by decide +kernel, by decide +kernel, fun h => ?_⟩
  have hslot := h.begun rfl (by decide +kernel)
  revert hslot
  unfold Holds
  decide +kernel

end Manager

end DistributedSystem.Transaction
