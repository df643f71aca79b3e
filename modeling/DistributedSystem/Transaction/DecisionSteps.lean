import DistributedSystem.Transaction.Decision

/-!
# The decision invariant through the handlers

Each handler keeps `DecisionInv` between any two of its effects, on the conditions that
`Permits` collects. What a completed handler leaves behind is `Concluded`: either the
transaction has lost its slot, or the handler has decided nothing.
-/

namespace DistributedSystem.Transaction

open DistributedSystem.Library

namespace Manager

variable {logCounts lost : Prop} {t : Tid} {x y z : Manager × List TxMessage} {s : Manager}
  {e : ManagerEffect} {es fs : List ManagerEffect} {d k : MsgId} {m : TxMessage} {T : Table}
  {src : SockAddr} {u : Uninit}

/-! ## Functions that decide nothing on `t` -/

theorem quiet_of_isBookkeeping (h : e.isBookkeeping) : Quiet t e := by
  cases e <;> simp_all [ManagerEffect.isBookkeeping, Quiet]

theorem quiet_receive (h : e ∈ s.receive m) : Quiet t e := quiet_of_isBookkeeping (mem_receive h)

/-- A message about another transaction, or of another kind than a decision, is quiet. -/
theorem quiet_send {a : SockAddr} {n : NodeId} {vc : VClock} {t' : Tid}
    (h : t' = t → k ≠ .decideCommit ∧ k ≠ .decideAbort) :
    Quiet t (.send a (constructMessage k t' n vc)) := h

theorem quiet_sendTo {port : NodeId} {vc : VClock} {a : SockAddr} {n : NodeId} {t' : Tid}
    (h : t' = t → k ≠ .decideCommit ∧ k ≠ .decideAbort) (he : e ∈ sendTo port vc a k t' n) :
    Quiet t e := by
  rcases mem_sendTo he with hb | ⟨vc', rfl⟩
  · exact quiet_of_isBookkeeping hb
  · exact quiet_send h

theorem quiet_sendToAllWorkers {vc : VClock} {n : NodeId} {t' : Tid}
    (h : t' = t → k ≠ .decideCommit ∧ k ≠ .decideAbort)
    (he : e ∈ s.sendToAllWorkers vc t' n k) : Quiet t e := by
  rcases mem_sendToAllWorkers he with hb | ⟨w, -, n', vc', rfl⟩
  · exact quiet_of_isBookkeeping hb
  · exact quiet_send h

theorem quiet_cleanWorkerInfo (ht : t ≠ 0) {t' : Tid} (he : e ∈ cleanWorkerInfo T t') :
    Quiet t e := by
  obtain ⟨i, -, rfl | rfl | ⟨j, rfl | rfl | rfl⟩⟩ := mem_cleanWorkerInfo he
  · exact ht.symm
  · trivial
  · trivial
  · trivial
  · exact Or.inl rfl

theorem quiet_saveWorkerInfo {p : ℕ} {n : NodeId} {a : SockAddr} {index : ℕ} {t' : Tid}
    (h : k = .jointx ∨ t' ≠ t) (he : e ∈ (saveWorkerInfo T p t' k n a index).2) : Quiet t e := by
  rcases mem_saveWorkerInfo he with ⟨hk, i, -, -, rfl⟩ | ⟨-, i, j, -, rfl | rfl | rfl⟩
  · exact h.resolve_left hk
  all_goals trivial

theorem quiet_collectVote {c : MsgId} (hm : m.msgID = .pollDecision ∨ m.msgID = .voteCommit)
    (he : e ∈ (s.collectVote m c).2) : Quiet t e := by
  obtain ⟨i, j, -, -, rfl⟩ := mem_collectVote he
  exact Or.inr (hm.imp (congrArg some) (congrArg some))

theorem quiet_crashFlag (he : e ∈ s.crashFlag m) : Quiet t e := by
  obtain ⟨i, b, rfl⟩ := mem_crashFlag he
  trivial

theorem quiet_reply {vc : VClock} (h : m.tid = t → k ≠ .decideCommit ∧ k ≠ .decideAbort)
    (he : e ∈ reply src m k vc) : Quiet t e := by
  rcases mem_reply he with hb | rfl
  · exact quiet_of_isBookkeeping hb
  · exact quiet_send h

theorem quiet_handleBegin (h : m.tid ≠ t) (he : e ∈ s.handleBegin src m u) : Quiet t e := by
  simp only [handleBegin, List.mem_append, List.mem_cons, List.not_mem_nil, or_false] at he
  rcases he with (he | rfl | rfl) | he
  · exact quiet_saveWorkerInfo (Or.inr h) he
  · trivial
  · trivial
  · exact quiet_reply (fun hm => absurd hm h) he

theorem quiet_handleJoin (hk : m.msgID = .jointx) (he : e ∈ s.handleJoin src m u) : Quiet t e := by
  simp only [handleJoin, List.mem_append, List.mem_cons, List.not_mem_nil, or_false] at he
  rcases he with (he | rfl | rfl) | he
  · exact quiet_saveWorkerInfo (Or.inl hk) he
  · trivial
  · trivial
  · split at he
    · exact quiet_reply (fun _ => by simp) he
    · rcases List.mem_cons.mp he with rfl | he
      · intro _
        simp [hk]
      · exact quiet_reply (fun _ => by simp) he

theorem quiet_handleCommit (he : e ∈ s.handleCommit m) : Quiet t e := by
  rcases List.mem_cons.mp he with rfl | he
  · intro _
    simp
  · exact quiet_sendToAllWorkers (fun _ => by simp) he

theorem quiet_announce (ht : t ≠ 0) (h : m.tid ≠ t) (he : e ∈ s.announce m d) : Quiet t e := by
  rcases mem_announce he with rfl | he | he | ⟨i, b, rfl⟩ | rfl | ⟨w, -, n, vc, rfl⟩
  · exact fun hm => absurd hm h
  · exact quiet_cleanWorkerInfo ht he
  · exact quiet_of_isBookkeeping he
  · trivial
  · trivial
  · exact quiet_send fun hm => absurd hm h

theorem quiet_handleVote (ht : t ≠ 0) (h : m.tid ≠ t)
    (hk : m.msgID = .pollDecision ∨ m.msgID = .voteCommit) (he : e ∈ s.handleVote src m u) :
    Quiet t e := by
  rcases mem_handleVote he with ⟨i, b, rfl⟩ | he | ⟨-, -, he⟩ | ⟨-, -, he⟩ | ⟨-, he⟩
  · trivial
  · exact quiet_collectVote hk he
  · exact quiet_sendTo (fun hm => absurd hm h) he
  · exact quiet_announce ht h he
  · exact quiet_sendTo (fun hm => absurd hm h) he

/-- A message about another transaction is quiet. -/
theorem quiet_handleWorkerMsg (ht : t ≠ 0) (h : m.tid ≠ t) (he : e ∈ s.handleWorkerMsg src m u) :
    Quiet t e := by
  simp only [handleWorkerMsg, List.mem_append] at he
  rcases he with he | he
  · exact quiet_receive he
  split at he
  · exact quiet_handleBegin h he
  · exact quiet_handleJoin ‹_› he
  · exact quiet_handleCommit he
  · exact quiet_handleVote ht h (Or.inl ‹_›) he
  · exact quiet_handleVote ht h (Or.inr ‹_›) he
  · rcases List.mem_append.mp he with he | he
    · exact quiet_crashFlag he
    · exact quiet_announce ht h he
  · simp at he

/-! ## Lists of effects -/

theorem DecisionInv.throughout_quiet (h : DecisionInv logCounts lost t x) (hes : ∀ e ∈ es, Quiet t e) :
    recorder.Throughout (DecisionInv logCounts lost t) x es :=
  Process.throughout_of_preserved h fun _ e he hx => hx.quiet (hes e he)

/-- A logged decision to commit can be sent. -/
theorem DecisionInv.throughout_commit (h : DecisionInv logCounts lost t x)
    (hc : Logged .decideCommit t x.1.log)
    (hes : ∀ e ∈ es, Quiet t e ∨ ∃ a m, e = .send a m ∧ m.msgID = .decideCommit) :
    recorder.Throughout (DecisionInv logCounts lost t) x es := by
  refine Process.Throughout.mono (I := fun x => DecisionInv logCounts lost t x ∧
    Logged .decideCommit t x.1.log) ?_ fun _ hx => hx.1
  refine Process.throughout_of_preserved ⟨h, hc⟩ fun x e he hx => ?_
  rcases hes e he with hq | ⟨a, m, rfl, hm⟩
  · exact ⟨hx.1.quiet hq, (hq.logged (Or.inl rfl)).mpr hx.2⟩
  · exact ⟨hx.1.sendCommit hx.2 hm, hx.2⟩

/-- What makes it safe to send a decision to abort `t`. -/
structure Abortable (lost : Prop) (t : Tid) (s : Manager) : Prop where
  uncommitted : ¬ Logged .decideCommit t s.log
  settled : Logged .decideAbort t s.log ∨ ¬ s.Holds t ∨ lost
  begun : s.Begun t

theorem Abortable.quiet (h : Abortable lost t s) (he : Quiet t e) : Abortable lost t (s.apply e) where
  uncommitted hc := h.uncommitted ((he.logged (Or.inl rfl)).mp hc)
  settled := h.settled.imp (he.logged (Or.inr rfl)).mpr (Or.imp_left fun hn hs => hn (he.holds hs))
  begun := h.begun.apply e

/-- A decision to abort can be sent where it is safe. -/
theorem DecisionInv.throughout_abort (h : DecisionInv logCounts lost t x) (ha : Abortable lost t x.1)
    (hes : ∀ e ∈ es, Quiet t e ∨ ∃ a m, e = .send a m ∧ m.msgID = .decideAbort) :
    recorder.Throughout (DecisionInv logCounts lost t) x es := by
  refine Process.Throughout.mono (I := fun x => DecisionInv logCounts lost t x ∧ Abortable lost t x.1) ?_
    fun _ hx => hx.1
  refine Process.throughout_of_preserved ⟨h, ha⟩ fun x e he hx => ?_
  rcases hes e he with hq | ⟨a, m, rfl, hm⟩
  · exact ⟨hx.1.quiet hq, hx.2.quiet hq⟩
  · exact ⟨hx.1.sendAbort hx.2.uncommitted hx.2.settled hx.2.begun hm, hx.2⟩

/-- Effects that do not write ids keep them. -/
theorem tid_exec (hes : ∀ e ∈ es, ∀ i t, e ≠ .tid i t) (k : Fin maxTrans) :
    ((process.exec s es).workerInfo k).tid = (s.workerInfo k).tid := by
  refine Process.exec_unchanged (fun s : Manager => (s.workerInfo k).tid) fun s e he => ?_
  have := hes e he
  rw [process_apply, tid_apply]
  cases e with
  | tid i t => exact absurd rfl (this i t)
  | _ => rfl

/-- `cleanWorkerInfo` takes the slot of a transaction that has only one. -/
theorem not_holds_exec_clean (ht : t ≠ 0) (hT : ∀ k, (s.workerInfo k).tid = (T k).tid)
    (huniq : ∀ i j, (T i).tid = t → (T j).tid = t → i = j) :
    ¬ (process.exec s (cleanWorkerInfo T t)).Holds t := by
  rintro ⟨k, hk⟩
  unfold cleanWorkerInfo at hk
  split at hk
  · rename_i i hi
    have hit := (findSlot_eq_some.mp hi).1
    -- everything before the last write leaves the ids alone
    have hrest : ∀ e ∈ (List.finRange maxNodes).flatMap
        (fun j => [ManagerEffect.nodeId i j 0, .port i j 0, .voteYes i j none]),
        ∀ l t, e ≠ .tid l t := by
      intro e he l t
      simp only [List.mem_flatMap, List.mem_finRange, true_and, List.mem_cons, List.not_mem_nil,
        or_false] at he
      rcases he with ⟨j, rfl | rfl | rfl⟩ <;> simp
    simp only [Process.exec_append, Process.exec_cons, Process.exec_nil, process_apply] at hk
    rw [tid_apply] at hk
    by_cases hki : k = i
    · exact ht.symm (by simpa [hki] using hk)
    · simp only [if_neg hki, tid_apply, tid_exec hrest, hT] at hk
      exact hki (huniq k i hk hit)
  · exact findSlot_eq_none.mp ‹_› k ((hT k).symm.trans hk)

/-! ## What a completed handler leaves behind -/

/-- From `x` to `y`, transaction `t` has lost its slot, or it has been decided on nothing
    new but by the recovery broadcast, and only kept a slot or got one before any decision. -/
def Concluded (logCounts lost : Prop) (t : Tid) (x y : Manager × List TxMessage) : Prop :=
  ¬ y.1.Holds t ∨
    (Aborted logCounts t y → Aborted logCounts t x ∨ lost) ∧
    (Logged .decideCommit t y.1.log → Logged .decideCommit t x.1.log) ∧
    (x.1.Holds t ∨ ¬ Aborted logCounts t x ∧ ¬ Logged .decideCommit t x.1.log)

/-- The effects keep the invariant all the way and end in a conclusion. -/
def Concludes (logCounts lost : Prop) (t : Tid) (x : Manager × List TxMessage)
    (es : List ManagerEffect) : Prop :=
  recorder.Throughout (DecisionInv logCounts lost t) x es ∧ Concluded logCounts lost t x (recorder.exec x es)

/-- The facts about `t` that quiet effects keep. -/
theorem quiet_exec (logCounts : Prop) (x : Manager × List TxMessage) (hes : ∀ e ∈ es, Quiet t e) :
    (Aborted logCounts t (recorder.exec x es) ↔ Aborted logCounts t x) ∧
    (Logged .decideCommit t (recorder.exec x es).1.log ↔ Logged .decideCommit t x.1.log) ∧
    ((recorder.exec x es).1.Holds t → x.1.Holds t) ∧
    (x.1.Begun t → (recorder.exec x es).1.Begun t) := by
  induction es generalizing x with
  | nil => exact ⟨Iff.rfl, Iff.rfl, id, id⟩
  | cons e es ih =>
      have he : Quiet t e := hes e (by simp)
      obtain ⟨ha, hc, hh, hb⟩ := ih (recorder.apply x e) fun e' he' => hes e' (by simp [he'])
      simp only [Process.exec_cons]
      exact ⟨ha.trans he.aborted, hc.trans (he.logged (Or.inl rfl)), fun h => he.holds (hh h),
        fun h => hb (h.apply e)⟩

/-- Quiet effects and sends log no decision. -/
theorem logged_exec (hes : ∀ e ∈ es, Quiet t e ∨ ∃ a m, e = .send a m) :
    Logged .decideCommit t (process.exec s es).log ↔ Logged .decideCommit t s.log := by
  refine Eq.to_iff (Process.exec_unchanged (P := process)
    (fun s : Manager => Logged .decideCommit t s.log) fun s e he => propext ?_)
  rcases hes e he with hq | ⟨a, m, rfl⟩
  · exact hq.logged (Or.inl rfl)
  · exact Iff.rfl

theorem concludes_quiet (h : DecisionInv logCounts lost t x) (hes : ∀ e ∈ es, Quiet t e) :
    Concludes logCounts lost t x es := by
  obtain ⟨ha, hc, hh, -⟩ := quiet_exec logCounts x hes
  refine ⟨h.throughout_quiet hes, ?_⟩
  by_cases hy : (recorder.exec x es).1.Holds t
  · exact Or.inr ⟨fun h => Or.inl (ha.mp h), hc.mp, Or.inl (hh hy)⟩
  · exact Or.inl hy

/-- Quiet effects before others do not matter to the conclusion. -/
theorem Concludes.quiet_append (h : DecisionInv logCounts lost t x) (hes : ∀ e ∈ es, Quiet t e)
    (hfs : DecisionInv logCounts lost t (recorder.exec x es) →
      Concludes logCounts lost t (recorder.exec x es) fs) :
    Concludes logCounts lost t x (es ++ fs) := by
  obtain ⟨ha, hc, hh, -⟩ := quiet_exec logCounts x hes
  have hx := h.throughout_quiet hes
  obtain ⟨hthroughout, hconcluded⟩ := hfs hx.last
  refine ⟨Process.throughout_append.mpr ⟨hx, hthroughout⟩, ?_⟩
  rw [Process.exec_append]
  refine hconcluded.imp_right fun ⟨hab, hco, hstart⟩ =>
    ⟨fun h => (hab h).imp_left ha.mp, fun h => hc.mp (hco h), ?_⟩
  exact hstart.imp hh fun ⟨hna, hnc⟩ => ⟨fun h => hna (ha.mpr h), fun h => hnc (hc.mpr h)⟩

/-- Sends, the clearing of the slot and a possible crash end without a slot. -/
theorem not_holds_exec_closing {pre post : List ManagerEffect} (ht : t ≠ 0)
    (hT : x.1.workerInfo = T) (hpre : ∀ e ∈ pre ++ post, ∀ i t, e ≠ .tid i t)
    (huniq : ∀ i j, (T i).tid = t → (T j).tid = t → i = j) :
    ¬ (recorder.exec x (pre ++ cleanWorkerInfo T t ++ post)).1.Holds t := by
  rw [recorder_exec_fst, Process.exec_append, Process.exec_append]
  have hbefore : ∀ k, ((process.exec x.1 pre).workerInfo k).tid = (T k).tid := fun k =>
    hT ▸ tid_exec (fun e he => hpre e (List.mem_append_left _ he)) k
  have hclean := not_holds_exec_clean ht hbefore huniq
  rintro ⟨k, hk⟩
  exact hclean ⟨k, (tid_exec (fun e he => hpre e (List.mem_append_right _ he)) k).symm.trans hk⟩

/-- **`announce`** logs, tells and clears, in an order that keeps the invariant. -/
theorem announce_concludes (ht : t ≠ 0) (h : DecisionInv logCounts lost t x)
    (hT : x.1.workerInfo = s.workerInfo) (hm : m.tid = t) (hb : x.1.Begun t)
    (hd : d = .decideCommit ∧ ¬ Aborted logCounts t x ∨
      d = .decideAbort ∧ (¬ Logged .decideCommit t x.1.log ∨ ¬ logCounts ∧ ¬ x.1.Holds t)) :
    Concludes logCounts lost t x (s.announce m d) := by
  subst hm
  obtain ⟨pre, post, heq, hrest⟩ := announce_eq s m d
  -- between the record and the end there are quiet effects and sends of `d`
  have htail : ∀ e ∈ pre ++ cleanWorkerInfo s.workerInfo m.tid ++ post,
      Quiet m.tid e ∨ ∃ w ∈ targets s.workerInfo m.tid, ∃ n vc,
        e = .send w.workerAddr (constructMessage d m.tid n vc) := by
    intro e he
    have hsplit : e ∈ cleanWorkerInfo s.workerInfo m.tid ∨ e ∈ pre ++ post := by
      simp only [List.mem_append] at he ⊢
      tauto
    rcases hsplit with he | he
    · exact Or.inl (quiet_cleanWorkerInfo ht he)
    · rcases hrest e he with hb | ⟨i, b, rfl⟩ | rfl | hsend
      · exact Or.inl (quiet_of_isBookkeeping hb)
      · exact Or.inl trivial
      · exact Or.inl trivial
      · exact Or.inr hsend
  have hnotid : ∀ e ∈ pre ++ post, ∀ i t, e ≠ .tid i t := by
    intro e he i t
    rcases hrest e he with hb | ⟨i, b, rfl⟩ | rfl | ⟨w, -, n, vc, rfl⟩
    · rintro rfl
      simp [ManagerEffect.isBookkeeping] at hb
    all_goals simp
  have hend : ¬ (recorder.exec x (s.announce m d)).1.Holds m.tid := by
    rw [heq, Process.exec_cons]
    exact not_holds_exec_closing ht hT hnotid (hT ▸ h.unique)
  refine ⟨?_, Or.inl hend⟩
  rw [heq]
  refine ⟨h, ?_⟩
  rcases hd with ⟨rfl, hna⟩ | ⟨rfl, hnc⟩
  · -- the commit record comes first, then its sends are justified
    refine (h.logCommit hna hb m.nodeId).throughout_commit ?_ ?_
    · exact logged_apply.mpr (Or.inr ⟨_, rfl, rfl, rfl⟩)
    · intro e he
      refine (htail e he).imp_right ?_
      rintro ⟨w, -, n, vc, hsend⟩
      exact ⟨_, _, hsend, rfl⟩
  · have hlogged := h.logAbort (fun hcounts => hnc.elim id fun hn => absurd hcounts hn.1) hb m.nodeId
    rcases hnc with hnc | ⟨-, hno⟩
    · refine hlogged.throughout_abort ⟨?_, ?_, hb.apply _⟩ ?_
      · rw [recorder_apply, logged_apply]
        rintro (hc | ⟨r, hr, hrd, -⟩)
        · exact hnc hc
        · cases hr
          exact absurd hrd (by simp)
      · exact Or.inl (logged_apply.mpr (Or.inr ⟨_, rfl, rfl, rfl⟩))
      · intro e he
        refine (htail e he).imp_right ?_
        rintro ⟨w, -, n, vc, hsend⟩
        exact ⟨_, _, hsend, rfl⟩
    · -- without a slot there is nobody to tell
      refine hlogged.throughout_quiet fun e he => (htail e he).resolve_right ?_
      rintro ⟨w, hw, -⟩
      obtain ⟨i, hi, -⟩ := mem_targets.mp hw
      exact hno ⟨i, hT ▸ hi⟩

/-! ## Votes and polls -/

/-- While all votes are open, a count over at least one participant waits or commits. -/
theorem tally_open {ws : List W} {c : MsgId} (hopen : ∀ w ∈ ws, OpenVote w.voteYes)
    (hsome : (∃ w ∈ ws, w.nodeId ≠ 0) ∨ c = .decideCommit) :
    tally ws c = .wait ∨ tally ws c = .decideCommit := by
  induction ws generalizing c with
  | nil => exact Or.inr (hsome.resolve_left (by simp))
  | cons w ws ih =>
      obtain ⟨hw, hws⟩ := List.forall_mem_cons.mp hopen
      unfold tally
      by_cases hid : w.nodeId = 0
      · rw [if_neg (not_not.mpr hid)]
        refine ih hws (hsome.imp_left ?_)
        rintro ⟨w', hw', hne⟩
        rcases List.mem_cons.mp hw' with rfl | hw'
        · exact absurd hid hne
        · exact ⟨w', hw', hne⟩
      · rw [if_pos hid]
        -- a missing vote waits, an open one is passed over
        rcases hw with hv | hv | hv
        · exact Or.inl (by simp [hv])
        all_goals
          simp only [hv, Option.some.injEq, reduceCtorEq, or_self, if_false]
          exact ih hws (Or.inr rfl)

/-- Some participant other than the entry that the message votes for has not voted. -/
def OthersUnvoted (T : Table) (i : Fin maxTrans) (n : NodeId) : Prop :=
  ∃ j, ((T i).workers j).nodeId ≠ 0 ∧ ((T i).workers j).voteYes = none ∧ ownEntry T i n ≠ some j

instance (T : Table) (i : Fin maxTrans) (n : NodeId) : Decidable (OthersUnvoted T i n) := by
  unfold OthersUnvoted; infer_instance

/-- A commit is logged already, or the count of a slot has come to it. -/
theorem commits_cases {inp : Input} (h : e ∈ s.handle inp) (hc : e.Commits t) :
    ∃ src m u, inp = .message src m u ∧ (m.msgID = .pollDecision ∨ m.msgID = .voteCommit) ∧
      m.tid = t ∧ (Logged .decideCommit t s.log ∨
        ∃ i, (s.workerInfo i).tid = t ∧ ¬ OthersUnvoted s.workerInfo i m.nodeId) := by
  obtain ⟨src, m, u, rfl, hk, htid, hdecision⟩ := commits_handle h hc
  refine ⟨src, m, u, rfl, hk, htid, ?_⟩
  rw [decision_eq] at hdecision
  cases hfind : findSlot s.workerInfo m.tid with
  | none =>
      have hlog : (process.exec s (s.crashFlag m)).log = s.log := by
        refine Process.exec_unchanged Manager.log fun s' e he => ?_
        obtain ⟨i, b, rfl⟩ := mem_crashFlag he
        rfl
      simp only [hfind, hlog] at hdecision
      split at hdecision
      · exact Or.inl (htid ▸ logged_of_isCommit ‹_›)
      · exact absurd hdecision (by simp)
  | some i =>
      refine Or.inr ⟨i, (findSlot_eq_some.mp hfind).1.trans htid, ?_⟩
      -- a participant that has not voted would have made the count wait
      rintro ⟨l, hl, hvote, hown⟩
      simp only [hfind] at hdecision
      have hvoted := voted_of_tally hdecision _ (List.mem_ofFn.mpr ⟨l, rfl⟩)
      rw [counted_workers hfind, if_neg hown] at hvoted
      exact hvoted hl hvote

/-- Effects that end without a slot conclude. -/
theorem concludes_sendAbort (h : DecisionInv logCounts lost t x) (ha : Abortable lost t x.1)
    (hno : ¬ x.1.Holds t)
    (hes : ∀ e ∈ es, e.isBookkeeping ∨ ∃ a m, e = .send a m ∧ m.msgID = .decideAbort) :
    Concludes logCounts lost t x es := by
  refine ⟨h.throughout_abort ha fun e he => (hes e he).imp_left quiet_of_isBookkeeping, Or.inl ?_⟩
  rintro ⟨k, hk⟩
  refine hno ⟨k, ?_⟩
  rw [recorder_exec_fst, workerInfo_exec] at hk
  · exact hk
  · intro e he
    rcases hes e he with hb | ⟨a, m, rfl, -⟩
    · exact isTableWrite_of_isBookkeeping hb
    · rfl

/-- A logged decision to commit can be repeated to one participant. -/
theorem concludes_sendCommit (h : DecisionInv logCounts lost t x) (hc : Logged .decideCommit t x.1.log)
    (hes : ∀ e ∈ es, e.isBookkeeping ∨ ∃ a m, e = .send a m ∧ m.msgID = .decideCommit) :
    Concludes logCounts lost t x es := by
  have hthroughout := h.throughout_commit hc fun e he =>
    (hes e he).imp_left quiet_of_isBookkeeping
  have htable : (recorder.exec x es).1.workerInfo = x.1.workerInfo := by
    rw [recorder_exec_fst, workerInfo_exec]
    intro e he
    rcases hes e he with hb | ⟨a, m, rfl, -⟩
    · exact isTableWrite_of_isBookkeeping hb
    · rfl
  have hlog : Logged .decideCommit t (recorder.exec x es).1.log :=
    Process.exec_invariant (P := recorder) (I := fun x => Logged .decideCommit t x.1.log) hc
      fun _ _ _ hl => logged_apply.mpr (Or.inl hl)
  have hnot := hthroughout.last.exclusive hlog
  by_cases hs : x.1.Holds t
  · exact ⟨hthroughout, Or.inr ⟨fun ha => absurd ha hnot, fun _ => hc, Or.inl hs⟩⟩
  · exact ⟨hthroughout, Or.inl fun ⟨k, hk⟩ => hs ⟨k, htable ▸ hk⟩⟩

/-- **A vote or a poll** for `t` leads to no decision that contradicts an earlier one. -/
theorem handleVote_concludes (ht : t ≠ 0) (h : DecisionInv logCounts lost t x)
    (hT : x.1.workerInfo = s.workerInfo) (hlog : x.1.log = s.log) (hm : m.tid = t)
    (hk : m.msgID = .pollDecision ∨ m.msgID = .voteCommit)
    (hsettled : Aborted logCounts t x → x.1.Holds t → lost) (hb : x.1.Begun t)
    (hseen : s.Holds t ∨ s.CommitSeen t)
    (hslot : ∀ i, (s.workerInfo i).tid = t → (∃ j, ((s.workerInfo i).workers j).nodeId ≠ 0) ∧
      (m.msgID = .pollDecision ∨ lost →
        Logged .decideCommit t s.log ∨ OthersUnvoted s.workerInfo i m.nodeId)) :
    Concludes logCounts lost t x (s.handleVote src m u) := by
  rw [handleVote_eq]
  have hflag : ∀ e ∈ s.crashFlag m ++ ((process.exec s (s.crashFlag m)).collectVote m u.commit).2,
      Quiet t e := by
    intro e he
    rcases List.mem_append.mp he with he | he
    · exact quiet_crashFlag he
    · exact quiet_collectVote hk he
  obtain ⟨hab, hco, hho, hbe⟩ := quiet_exec logCounts x hflag
  refine Concludes.quiet_append h hflag fun hy => ?_
  -- the table in which the votes are counted is the one reached
  have hyT : (recorder.exec x (s.crashFlag m ++
      ((process.exec s (s.crashFlag m)).collectVote m u.commit).2)).1.workerInfo =
      (s.counted m u.commit).workerInfo := by
    rw [recorder_exec_fst, workerInfo_exec_congr hT, Process.exec_append, counted]
  generalize recorder.exec x (s.crashFlag m ++
    ((process.exec s (s.crashFlag m)).collectVote m u.commit).2) = y at *
  have hylog : Logged .decideCommit t y.1.log ↔ Logged .decideCommit t s.log := by rw [hco, hlog]
  have hsend : ∀ k, ∀ e ∈ sendTo s.port (s.receivedClock m) src k m.tid m.nodeId,
      e.isBookkeeping ∨ ∃ a m, e = .send a m ∧ m.msgID = k := by
    intro k e he
    refine (mem_sendTo he).imp_right ?_
    rintro ⟨vc, hs⟩
    exact ⟨_, _, hs, rfl⟩
  rw [decision_eq]
  cases hfind : findSlot s.workerInfo m.tid with
  | none =>
      have hno : ¬ x.1.Holds t := by
        rintro ⟨i, hi⟩
        exact findSlot_eq_none.mp hfind i ((hT ▸ hi).trans hm.symm)
      have hnoy : ¬ y.1.Holds t := fun hs => hno (hho hs)
      have hnos : ¬ s.Holds t := by
        rintro ⟨i, hi⟩
        exact hno ⟨i, hT ▸ hi⟩
      have hseen : s.CommitSeen t := hseen.resolve_left hnos
      have hflaglog : (process.exec s (s.crashFlag m)).log = s.log := by
        refine Process.exec_unchanged Manager.log fun s' e he => ?_
        obtain ⟨i, b, rfl⟩ := mem_crashFlag he
        rfl
      simp only [hflaglog]
      by_cases hcommit : isCommit s.log m.tid = true
      · have hlogged : Logged .decideCommit t y.1.log := hylog.mpr (hm ▸ logged_of_isCommit hcommit)
        simp only [hcommit, if_true]
        split
        · exact concludes_sendCommit hy hlogged (hsend _)
        · exact announce_concludes ht hy hyT hm (hbe hb) (Or.inl ⟨rfl, hy.exclusive hlogged⟩)
      · have hnot : ¬ Logged .decideCommit t y.1.log := by
          rw [hylog, ← hseen.isCommit_iff, ← hm]
          exact hcommit
        simp only [hcommit]
        exact concludes_sendAbort hy ⟨hnot, Or.inr (Or.inl hnoy), hbe hb⟩ hnoy (hsend _)
  | some i =>
      have hi : (s.workerInfo i).tid = t := (findSlot_eq_some.mp hfind).1.trans hm
      have hholds : x.1.Holds t := ⟨i, hT ▸ hi⟩
      obtain ⟨⟨j, hj⟩, hpoll⟩ := hslot i hi
      have hopen : ∀ w ∈ List.ofFn ((s.counted m u.commit).workerInfo i).workers,
          OpenVote w.voteYes := by
        intro w hw
        obtain ⟨l, rfl⟩ := List.mem_ofFn.mp hw
        exact hyT ▸ hy.votes i l
      have hcount := counted_workers (s := s) (m := m) (c := u.commit) hfind
      have hsome : ∃ w ∈ List.ofFn ((s.counted m u.commit).workerInfo i).workers, w.nodeId ≠ 0 := by
        refine ⟨_, List.mem_ofFn.mpr ⟨j, rfl⟩, ?_⟩
        rw [hcount]
        split <;> exact hj
      rcases tally_open (c := u.commit) hopen (Or.inl hsome) with hwait | hdecide
      · simp only [hwait]
        exact concludes_quiet hy (by simp)
      · simp only [hdecide]
        -- another participant without a vote would have made the count wait
        have hlogged : m.msgID = .pollDecision ∨ lost → Logged .decideCommit t y.1.log := by
          intro hp
          rcases hpoll hp with hlogged | ⟨l, hl, hvote, hown⟩
          · exact hylog.mpr hlogged
          · have hvoted := voted_of_tally hdecide _ (List.mem_ofFn.mpr ⟨l, rfl⟩)
            rw [hcount, if_neg hown] at hvoted
            exact absurd hvote (hvoted hl)
        split
        · rename_i hp
          exact concludes_sendCommit hy (hlogged (Or.inl hp)) (hsend _)
        · refine announce_concludes ht hy hyT hm (hbe hb) (Or.inl ⟨rfl, fun ha => ?_⟩)
          -- an abort that has left the slot is no longer followed by a count
          exact hy.exclusive (hlogged (Or.inr (hsettled (hab.mp ha) hholds))) ha

/-! ## The other inputs -/

/-- **The first `BEGIN`** for `t` finds it without a slot and without a decision. -/
theorem handleBegin_concludes (h : DecisionInv logCounts lost t x) (hm : m.tid = t)
    (hk : m.msgID = .begintx) (hno : ¬ x.1.Holds t) (hna : ¬ Aborted logCounts t x)
    (hnc : ¬ Logged .decideCommit t x.1.log) (hb : x.1.Begun t) :
    Concludes logCounts lost t x (s.handleBegin src m u) := by
  subst hm
  -- the reply says nothing about a decision
  have hquiet : ∀ e ∈ [ManagerEffect.clock (tick s.port (s.receivedClock m)), .saveVectorTime] ++
      reply src m (if (saveWorkerInfo s.workerInfo src.port m.tid m.msgID m.nodeId src u.index).1 < 0
        then .beginFail else .beginSuccess) (tick s.port (s.receivedClock m)), Quiet m.tid e := by
    intro e he
    simp only [List.mem_append, List.mem_cons, List.not_mem_nil, or_false] at he
    rcases he with (rfl | rfl) | he
    · trivial
    · trivial
    · refine quiet_reply (fun _ => ?_) he
      split <;> simp
  unfold handleBegin
  simp only [List.append_assoc, hk] at hquiet ⊢
  rcases saveWorkerInfo_begin_list s.workerInfo src.port m.tid m.nodeId src u.index with
    hnil | ⟨i, -, -, hone⟩
  · rw [hnil, List.nil_append]
    exact concludes_quiet h hquiet
  · rw [hone, List.singleton_append]
    -- the slot is taken while nothing about `t` has been decided
    have hrest := concludes_quiet (h.tid hno hna hb i) hquiet
    obtain ⟨ha, hc, -, -⟩ := quiet_exec logCounts
      (recorder.apply x (.tid i m.tid)) hquiet
    refine ⟨⟨h, hrest.1⟩, Or.inr ⟨fun hy => Or.inl ?_, fun hy => hc.mp hy, Or.inr ⟨hna, hnc⟩⟩⟩
    have := aborted_apply.mp (ha.mp hy)
    simpa using this

/-- **A vote timeout** that picks `t` logs the abort before it sends it. -/
theorem voteTimeout_concludes (ht : t ≠ 0) (h : DecisionInv logCounts lost t (s, x.2))
    (hnc : waitingForVotes s.workerInfo s.log = some t → ¬ Logged .decideCommit t s.log)
    (hb : waitingForVotes s.workerInfo s.log = some t → s.Begun t) :
    Concludes logCounts lost t (s, x.2) s.voteTimeout := by
  unfold voteTimeout
  split
  · rename_i t' hwait
    by_cases htt : t' = t
    · subst htt
      have hnot := hnc hwait
      have hbegun := hb hwait
      rw [List.append_assoc, List.cons_append, List.singleton_append]
      have hfirst : ∀ e ∈ [ManagerEffect.abortTid t'], Quiet t' e := by simp [Quiet]
      refine Concludes.quiet_append h hfirst fun hy => ?_
      -- from the record on the transaction is aborted, and only abort messages follow
      have hlogged := hy.logAbort (fun _ => hnot) hbegun s.mem.recNodeId
      have hnotid : ∀ e ∈ s.sendToAllWorkers s.mem.myVectorClock t' 0 .decideAbort ++
          ([] : List ManagerEffect), ∀ i t, e ≠ .tid i t := by
        intro e he i t
        rw [List.append_nil] at he
        rcases mem_sendToAllWorkers he with hbk | ⟨w, -, n, vc, rfl⟩
        · rintro rfl
          simp [ManagerEffect.isBookkeeping] at hbk
        · simp
      refine ⟨⟨hy, hlogged.throughout_abort ⟨?_, ?_, hbegun.apply _⟩ fun e he => ?_⟩, Or.inl ?_⟩
      · rw [recorder_apply, logged_apply]
        rintro (hc | ⟨r, hr, hrd, -⟩)
        · exact hnot hc
        · cases hr
          exact absurd hrd (by simp)
      · exact Or.inl (logged_apply.mpr (Or.inr ⟨_, rfl, rfl, rfl⟩))
      · rcases List.mem_append.mp he with he | he
        · rcases mem_sendToAllWorkers he with hbk | ⟨w, -, n, vc, rfl⟩
          · exact Or.inl (quiet_of_isBookkeeping hbk)
          · exact Or.inr ⟨_, _, rfl, rfl⟩
        · exact Or.inl (quiet_cleanWorkerInfo ht he)
      · rw [Process.exec_cons]
        have hend := not_holds_exec_closing (T := s.workerInfo)
          (x := recorder.apply (recorder.exec (s, x.2) [.abortTid t'])
            (.log { msgID := .decideAbort, tid := t', nodeId := s.mem.recNodeId })) ht rfl hnotid h.unique
        rwa [List.append_nil] at hend
    · -- the timeout aborts another transaction
      refine concludes_quiet h fun e he => ?_
      simp only [List.mem_append, List.mem_cons, List.not_mem_nil, or_false] at he
      rcases he with ((rfl | rfl) | he) | he
      · trivial
      · exact fun hm => absurd hm htt
      · exact quiet_sendToAllWorkers (fun hm => absurd hm htt) he
      · exact quiet_cleanWorkerInfo ht he
  · exact concludes_quiet h (by simp)

/-- Somebody is listed in a slot of `t`, whom the recovery broadcast reaches. -/
def Listed (s : Manager) (t : Tid) : Prop :=
  ∃ i, (s.workerInfo i).tid = t ∧ ∃ j, ((s.workerInfo i).workers j).port ≠ 0

instance (s : Manager) (t : Tid) : Decidable (s.Listed t) := by unfold Listed; infer_instance

/-- What a restart says about `t`: an abort, if the scan finds no commit and somebody is
    listed. -/
theorem restart_quiet_or (he : e ∈ s.restart) :
    Quiet t e ∨ isCommit s.log t = false ∧ s.Listed t ∧ ∃ a m, e = .send a m ∧ m.msgID = .decideAbort := by
  simp only [restart, List.mem_append, List.mem_cons, List.not_mem_nil, or_false] at he
  rcases he with ((rfl | rfl | rfl | rfl) | he) | rfl
  any_goals
    refine Or.inl ?_
    trivial
  rcases mem_sendLoop he with hb | ⟨⟨t', w⟩, hx, n, vc, rfl⟩
  · exact Or.inl (quiet_of_isBookkeeping hb)
  by_cases htt : t' = t
  · subst htt
    simp only [recoveryTargets, List.mem_flatMap, List.mem_finRange, true_and] at hx
    obtain ⟨k, hk⟩ := hx
    split at hk
    · simp at hk
    · rename_i hnot
      obtain ⟨w', hw', heq⟩ := List.mem_map.mp hk
      obtain ⟨rfl, rfl⟩ := Prod.mk.inj heq
      obtain ⟨i, hi, hport, j, rfl⟩ := mem_targets.mp hw'
      exact Or.inr ⟨by simpa using hnot, ⟨i, hi, j, hport⟩, _, _, rfl, rfl⟩
  · exact Or.inl (quiet_send fun h => absurd h htt)

/-- **The recovery broadcast** aborts `t` only while no commit is logged. -/
theorem restart_concludes (h : DecisionInv logCounts lost t x) (hseen : x.1.Holds t → x.1.CommitSeen t)
    (hlost : x.1.Listed t → ¬ Logged .decideCommit t x.1.log → lost) :
    Concludes logCounts lost t x x.1.restart := by
  by_cases hquiet : ∀ e ∈ x.1.restart, Quiet t e
  · exact concludes_quiet h hquiet
  -- some effect is no quiet one, so `t` is aborted here
  obtain ⟨e, he, hnot⟩ : ∃ e ∈ x.1.restart, ¬ Quiet t e := by
    by_contra hno
    exact hquiet fun e he => by_contra fun hn => hno ⟨e, he, hn⟩
  obtain ⟨hscan, hlisted, -⟩ := (restart_quiet_or he).resolve_left hnot
  have hholds : x.1.Holds t := hlisted.imp fun _ hi => hi.1
  have hnc : ¬ Logged .decideCommit t x.1.log := by
    rw [← (hseen hholds).isCommit_iff, hscan]
    simp
  have hl := hlost hlisted hnc
  have heffects : ∀ e ∈ x.1.restart, Quiet t e ∨ ∃ a m, e = .send a m ∧ m.msgID = .decideAbort :=
    fun e he => (restart_quiet_or he).imp_right fun h => h.2.2
  have hend := h.throughout_abort ⟨hnc, Or.inr (Or.inr hl), h.begun (Or.inl hholds)⟩ heffects
  refine ⟨hend, Or.inr ⟨fun _ => Or.inr hl, fun hc => ?_, Or.inl hholds⟩⟩
  rw [recorder_exec_fst] at hc
  exact (logged_exec fun e he => (heffects e he).imp_right fun ⟨a, m, hs, _⟩ => ⟨a, m, hs⟩).mp hc

/-! ## One input -/

/-- The inputs after which no decision on `t` contradicts an earlier one. -/
def Permits (logCounts lost : Prop) (t : Tid) (s : Manager) : Input → Prop
  | .message _ m _ => m.tid = t →
      (m.msgID = .begintx → ¬ s.Begun t) ∧
      (m.msgID = .pollDecision ∨ m.msgID = .voteCommit → s.Begun t ∧ (s.Holds t ∨ s.CommitSeen t) ∧
        ∀ i, (s.workerInfo i).tid = t → (∃ j, ((s.workerInfo i).workers j).nodeId ≠ 0) ∧
          (m.msgID = .pollDecision ∨ lost →
            Logged .decideCommit t s.log ∨ OthersUnvoted s.workerInfo i m.nodeId)) ∧
      (m.msgID = .voteAbort → s.Begun t ∧
        (¬ Logged .decideCommit t s.log ∨ ¬ logCounts ∧ ¬ s.Holds t))
  | .timeout => waitingForVotes s.workerInfo s.log = some t → ¬ Logged .decideCommit t s.log
  | .restart => (s.Holds t → s.CommitSeen t) ∧
      (s.Listed t → ¬ Logged .decideCommit t s.log → lost)

theorem begun_receive (hk : m.msgID = .begintx) :
    (process.exec s (s.receive m)).Begun m.tid := by
  refine ⟨(.message .begintx m.tid false m.nodeId, s.receivedClock m), ?_, rfl, rfl, rfl⟩
  simp [receive, apply, hk]

/-- `waitingForVotes` names a transaction of the table. -/
theorem holds_of_waitingForVotes (h : waitingForVotes s.workerInfo s.log = some t) : s.Holds t := by
  obtain ⟨i, -, hi⟩ := Option.map_eq_some_iff.mp h
  exact ⟨i, hi⟩

/-- **Step law of the decision**: a permitted input keeps the invariant through all its
    effects and concludes. -/
theorem handle_concludes {inp : Input} (ht : t ≠ 0) (h : DecisionInv logCounts lost t x)
    (hsettled : inp ≠ .restart → Aborted logCounts t x → x.1.Holds t → lost)
    (hp : Permits logCounts lost t x.1 inp) : Concludes logCounts lost t x (x.1.handle inp) := by
  cases inp with
  | restart => exact restart_concludes h hp.1 hp.2
  | timeout =>
      exact voteTimeout_concludes ht h hp fun hwait => h.begun (Or.inl (holds_of_waitingForVotes hwait))
  | message src m u =>
      by_cases hm : m.tid = t
      swap
      · exact concludes_quiet h fun e he => quiet_handleWorkerMsg ht hm he
      obtain ⟨hbegin, hvote, habort⟩ := hp hm
      have hsettled := hsettled (by simp)
      simp only [handle, handleWorkerMsg]
      obtain ⟨hab, hco, hho, hbe⟩ := quiet_exec logCounts x
        fun e (he : e ∈ x.1.receive m) => quiet_receive he
      refine Concludes.quiet_append h (fun e he => quiet_receive he) fun hy => ?_
      have hT : (recorder.exec x (x.1.receive m)).1.workerInfo = x.1.workerInfo := by
        rw [recorder_exec_fst]
        exact workerInfo_exec fun e he => isTableWrite_of_isBookkeeping (mem_receive he)
      have hlog : (recorder.exec x (x.1.receive m)).1.log = x.1.log := rfl
      split
      · -- BEGINTX
        rename_i hk
        have hnone := fun hc => hbegin hk (h.begun hc)
        refine handleBegin_concludes hy hm hk (fun hc => hnone (Or.inl (hho hc)))
          (fun hc => hnone (Or.inr (Or.inl (hab.mp hc))))
          (fun hc => hnone (Or.inr (Or.inr (hco.mp hc)))) ?_
        rw [recorder_exec_fst, ← hm]
        exact begun_receive hk
      · exact concludes_quiet hy fun e he => quiet_handleJoin ‹_› he
      · exact concludes_quiet hy fun e he => quiet_handleCommit he
      · -- POLL_DECISION
        rename_i hk
        obtain ⟨hb, hseen, hslot⟩ := hvote (Or.inl hk)
        exact handleVote_concludes ht hy hT hlog hm (Or.inl hk)
          (fun hc hs => hsettled (hab.mp hc) (hho hs)) (hbe hb) hseen hslot
      · -- VOTE_COMMIT
        rename_i hk
        obtain ⟨hb, hseen, hslot⟩ := hvote (Or.inr hk)
        exact handleVote_concludes ht hy hT hlog hm (Or.inr hk)
          (fun hc hs => hsettled (hab.mp hc) (hho hs)) (hbe hb) hseen hslot
      · -- VOTE_ABORT
        rename_i hk
        obtain ⟨hb, hnc⟩ := habort hk
        have hflag : ∀ e ∈ x.1.crashFlag m, Quiet t e := fun e he => quiet_crashFlag he
        obtain ⟨-, hco', hho', hbe'⟩ := quiet_exec logCounts
          (recorder.exec x (x.1.receive m)) hflag
        refine Concludes.quiet_append hy hflag fun hz => ?_
        refine announce_concludes ht hz ?_ hm (hbe' (hbe hb)) (Or.inr ⟨rfl, ?_⟩)
        · rw [recorder_exec_fst]
          exact workerInfo_exec_congr hT _
        · exact hnc.imp (fun hn hc => hn (hco.mp (hco'.mp hc)))
            (And.imp_right fun hn hs => hn (hho (hho' hs)))
      · exact concludes_quiet hy (by simp)

end Manager

end DistributedSystem.Transaction
