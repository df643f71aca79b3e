import DistributedSystem.Transaction.ManagerEffects

/-!
# The manager's decision on one transaction

Four paths of the manager decide a transaction: a vote count, a poll reply, a vote
timeout and the recovery broadcast. They read two persistent sources, the record log and
the table, which are written at different moments. `DecisionInv` relates both to what
has been sent so far, and holds between any two effects of a handler.
-/

namespace DistributedSystem.Transaction

open DistributedSystem.Library

/-- Decision `d` on `t` has been sent. -/
def Sent (d : MsgId) (t : Tid) (sent : List TxMessage) : Prop := ∃ m ∈ sent, m.msgID = d ∧ m.tid = t

instance (d : MsgId) (t : Tid) (sent : List TxMessage) : Decidable (Sent d t sent) := by
  unfold Sent; infer_instance

theorem Sent.append {d : MsgId} {t : Tid} {msgs : List TxMessage} (h : Sent d t msgs) (msgs' : List TxMessage) :
    Sent d t (msgs ++ msgs') := by
  obtain ⟨m, hm, hd⟩ := h
  exact ⟨m, List.mem_append_left _ hm, hd⟩

theorem isCommit_iff_mapped {log : List CoordRecord} {t : Tid} :
    isCommit log t = true ↔ Logged .decideCommit t (mappedCoord log) := by
  simp only [isCommit, List.any_reverse, List.any_eq_true, decidesCommit, decide_eq_true_eq, Logged,
    CoordRecord.logRecord_msgID, CoordRecord.logRecord_tid, and_comm]

/-- What is read as logged is logged, whatever its kind but the zeros behind the page. -/
theorem logged_of_mapped {d : MsgId} {t : Tid} {log : List CoordRecord} (hd : d ≠ .other 0)
    (h : Logged d t (mappedCoord log)) : Logged d t log := by
  obtain ⟨r, hr, hid, htid⟩ := h
  rcases mem_mappedCoord hr with ⟨r', hr', hid', htid'⟩ | rfl
  · exact ⟨r', hr', hid'.symm.trans hid, htid'.symm.trans htid⟩
  · exact absurd hid.symm hd

/-- A commit that is found is in the log. -/
theorem logged_of_isCommit {log : List CoordRecord} {t : Tid} (h : isCommit log t = true) :
    Logged .decideCommit t log := logged_of_mapped (by simp) (isCommit_iff_mapped.mp h)

/-- As long as the log ends on the page, every commit is found. -/
theorem isCommit_iff {log : List CoordRecord} {t : Tid} (h : log.length ≤ mappedCoordRecords) :
    isCommit log t = true ↔ Logged .decideCommit t log := by
  rw [isCommit_iff_mapped, mappedCoord_eq_self h]

/-- The effect logs or sends `DECIDE_COMMIT` for `t`. -/
def ManagerEffect.Commits (t : Tid) : ManagerEffect → Prop
  | .log r => r.msgID = .decideCommit ∧ r.tid = t
  | .send _ m => m.msgID = .decideCommit ∧ m.tid = t
  | _ => False

namespace Manager

/-- Transaction `t` has a slot. -/
def Holds (s : Manager) (t : Tid) : Prop := ∃ i, (s.workerInfo i).tid = t

/-- The line that `receive` writes for a `BEGIN` of `t`. -/
def IsBegin (t : Tid) : ShiVizEvent → Prop
  | .message msgID tid isSend _ => msgID = .begintx ∧ tid = t ∧ isSend = false
  | _ => False

/-- A `BEGIN` for `t` has been received. -/
def Begun (s : Manager) (t : Tid) : Prop := ∃ ev ∈ s.shiviz, IsBegin t ev.1

instance (t : Tid) : ∀ ev, Decidable (IsBegin t ev)
  | .message _ _ _ _ => inferInstanceAs (Decidable (_ ∧ _))
  | .start | .localEvent _ => isFalse id

instance (s : Manager) (t : Tid) : Decidable (s.Holds t) := by unfold Holds; infer_instance

instance (s : Manager) (t : Tid) : Decidable (s.Begun t) := by unfold Begun; infer_instance

/-- A logged commit of `t` lies on the page that the scans read. -/
def CommitSeen (s : Manager) (t : Tid) : Prop :=
  Logged .decideCommit t s.log → Logged .decideCommit t (mappedCoord s.log)

instance (s : Manager) (t : Tid) : Decidable (s.CommitSeen t) := inferInstanceAs (Decidable (_ → _))

/-- `BEGIN` for `t` arrives only when none has been received before. -/
def BegunOnce (t : Tid) (s : Manager) (a : Act Input) : Prop :=
  match a.input with
  | .message _ m _ => m.tid = t → m.msgID = .begintx → ¬ s.Begun t
  | _ => True

instance (t : Tid) (s : Manager) : ∀ a, Decidable (BegunOnce t s a)
  | ⟨.message _ _ _, _⟩ => inferInstanceAs (Decidable (_ → _ → ¬ _))
  | ⟨.timeout, _⟩ | ⟨.restart, _⟩ => isTrue trivial

/-- The votes that can be recorded: none, or the kind of a message that is not a
    `VOTE_ABORT`. -/
def OpenVote (v : Option MsgId) : Prop := v = none ∨ v = some .pollDecision ∨ v = some .voteCommit

/-- The messages sent so far, after one more effect. -/
def noteSent (sent : List TxMessage) : ManagerEffect → List TxMessage
  | .send _ m => sent ++ [m]
  | _ => sent

/-- The manager together with the messages it has sent. -/
def recorder : Process (Manager × List TxMessage) ManagerEffect Input :=
  process.instrument fun _ sent e => noteSent sent e

/-- `t` has been decided to abort. Where `logCounts` does not hold, only a sent decision
    counts, and a record that no participant hears of does not. -/
def Aborted (logCounts : Prop) (t : Tid) (x : Manager × List TxMessage) : Prop :=
  Sent .decideAbort t x.2 ∨ (logCounts ∧ Logged .decideAbort t x.1.log)

/-- What the log, the table and the sent messages say about one transaction. `lost` tells that a
    recovery broadcast has aborted `t` without a record and left its slot. -/
structure DecisionInv (logCounts lost : Prop) (t : Tid) (x : Manager × List TxMessage) : Prop where
  committed : Sent .decideCommit t x.2 → Logged .decideCommit t x.1.log
  exclusive : Logged .decideCommit t x.1.log → ¬ Aborted logCounts t x
  aborted : Aborted logCounts t x → Logged .decideAbort t x.1.log ∨ ¬ x.1.Holds t ∨ lost
  begun : x.1.Holds t ∨ Aborted logCounts t x ∨ Logged .decideCommit t x.1.log → x.1.Begun t
  unique : ∀ i j, (x.1.workerInfo i).tid = t → (x.1.workerInfo j).tid = t → i = j
  votes : ∀ i j, OpenVote ((x.1.workerInfo i).workers j).voteYes

/-- The effects that have no part in a decision on `t`. -/
def Quiet (t : Tid) : ManagerEffect → Prop
  | .log r => r.tid = t → r.msgID ≠ .decideCommit ∧ r.msgID ≠ .decideAbort
  | .send _ m => m.tid = t → m.msgID ≠ .decideCommit ∧ m.msgID ≠ .decideAbort
  | .tid _ t' => t' ≠ t
  | .voteYes _ _ v => OpenVote v
  | _ => True

variable {logCounts lost : Prop} {t : Tid} {x : Manager × List TxMessage} {s : Manager}
  {msgs : List TxMessage} {e : ManagerEffect} {es : List ManagerEffect} {d : MsgId} {m : TxMessage}

/-! ## One effect -/

@[simp] theorem recorder_apply (x : Manager × List TxMessage) (e : ManagerEffect) :
    recorder.apply x e = (x.1.apply e, noteSent x.2 e) := rfl

@[simp] theorem recorder_handler (x : Manager × List TxMessage) (inp : Input) :
    recorder.handler x inp = x.1.handle inp := rfl

@[simp] theorem recorder_crash (inp : Input) : recorder.crash inp = .exit := rfl

theorem recorder_exec_fst (x : Manager × List TxMessage) (es : List ManagerEffect) :
    (recorder.exec x es).1 = process.exec x.1 es :=
  Process.instrument_exec_fst _ x.1 x.2 es

/-- Where a logged commit lies on the page, the scan finds it. -/
theorem CommitSeen.isCommit_iff (h : s.CommitSeen t) :
    isCommit s.log t = true ↔ Logged .decideCommit t s.log :=
  ⟨logged_of_isCommit, fun hc => isCommit_iff_mapped.mpr (h hc)⟩

theorem OnPage.commitSeen (h : s.OnPage) : s.CommitSeen t := fun hc => by rwa [mappedCoord_eq_self h]

theorem logged_apply : Logged d t (s.apply e).log ↔
    Logged d t s.log ∨ ∃ r, e = .log r ∧ r.msgID = d ∧ r.tid = t := by
  rw [log_apply]
  cases e <;> simp [Logged, or_and_right, exists_or]

theorem sent_noteSent : Sent d t (noteSent msgs e) ↔
    Sent d t msgs ∨ ∃ a m, e = .send a m ∧ m.msgID = d ∧ m.tid = t := by
  cases e <;> simp [noteSent, Sent, or_and_right, exists_or]

theorem Begun.apply (h : s.Begun t) (e : ManagerEffect) : (s.apply e).Begun t := by
  obtain ⟨ev, hev, hbegin⟩ := h
  refine ⟨ev, ?_, hbegin⟩
  cases e <;> simp [Manager.apply, withSlot, withEntry, hev]

theorem Begun.exec (h : s.Begun t) (es : List ManagerEffect) : (process.exec s es).Begun t :=
  Process.exec_invariant (P := process) (I := fun s => s.Begun t) h fun _ e _ hs => hs.apply e

theorem aborted_apply : Aborted logCounts t (recorder.apply x e) ↔
    Aborted logCounts t x ∨ (∃ a m, e = .send a m ∧ m.msgID = .decideAbort ∧ m.tid = t) ∨
      (logCounts ∧ ∃ r, e = .log r ∧ r.msgID = .decideAbort ∧ r.tid = t) := by
  simp only [Aborted, recorder_apply, sent_noteSent, logged_apply, and_or_left]
  exact or_or_or_comm

theorem Quiet.logged (h : Quiet t e) (hd : d = .decideCommit ∨ d = .decideAbort) :
    Logged d t (s.apply e).log ↔ Logged d t s.log := by
  rw [logged_apply]
  refine or_iff_left ?_
  rintro ⟨r, rfl, rfl, ht⟩
  exact hd.elim (h ht).1 (h ht).2

theorem Quiet.sent (h : Quiet t e) (hd : d = .decideCommit ∨ d = .decideAbort) :
    Sent d t (noteSent msgs e) ↔ Sent d t msgs := by
  rw [sent_noteSent]
  refine or_iff_left ?_
  rintro ⟨a, m, rfl, rfl, ht⟩
  exact hd.elim (h ht).1 (h ht).2

theorem Quiet.aborted (h : Quiet t e) :
    Aborted logCounts t (recorder.apply x e) ↔ Aborted logCounts t x := by
  simp only [Aborted, recorder_apply, h.sent (Or.inr rfl), h.logged (Or.inr rfl)]

/-- A quiet effect gives `t` no slot. -/
theorem Quiet.tid (h : Quiet t e) {i : Fin maxTrans} (hi : ((s.apply e).workerInfo i).tid = t) :
    (s.workerInfo i).tid = t := by
  rw [tid_apply] at hi
  cases e with
  | tid k t' =>
      by_cases hik : i = k
      · exact absurd (by simpa [hik] using hi) h
      · simpa [hik] using hi
  | _ => exact hi

theorem Quiet.holds (h : Quiet t e) (hs : (s.apply e).Holds t) : s.Holds t :=
  hs.imp fun _ => h.tid

/-- The votes stay open unless a vote is written, and then if that one is. -/
theorem openVote_apply (hs : ∀ i j, OpenVote ((s.workerInfo i).workers j).voteYes)
    (he : ∀ i j v, e = .voteYes i j v → OpenVote v) (i : Fin maxTrans) (j : Fin maxNodes) :
    OpenVote (((s.apply e).workerInfo i).workers j).voteYes := by
  rw [workers_apply]
  cases e with
  | voteYes i' j' v =>
      simp only
      split
      · exact he i' j' v rfl
      · exact hs i j
  | nodeId i' j' n => simp only; split <;> exact hs i j
  | port i' j' p => simp only; split <;> exact hs i j
  | workerAddr i' j' a => simp only; split <;> exact hs i j
  | _ => exact hs i j

/-- Quiet effects preserve the invariant. -/
theorem DecisionInv.quiet (h : DecisionInv logCounts lost t x) (he : Quiet t e) :
    DecisionInv logCounts lost t (recorder.apply x e) where
  committed hc := (he.logged (Or.inl rfl)).mpr (h.committed ((he.sent (Or.inl rfl)).mp hc))
  exclusive hc ha := h.exclusive ((he.logged (Or.inl rfl)).mp hc) (he.aborted.mp ha)
  aborted ha := (h.aborted (he.aborted.mp ha)).imp (he.logged (Or.inr rfl)).mpr
    (Or.imp_left fun hn hs => hn (he.holds hs))
  begun hb := by
    refine (h.begun ?_).apply e
    exact hb.imp he.holds (Or.imp he.aborted.mp (he.logged (Or.inl rfl)).mp)
  unique i j hi hj := h.unique i j (he.tid hi) (he.tid hj)
  votes := openVote_apply h.votes fun i j v hv => by subst hv; exact he

/-- A decision to commit is logged while none to abort has been made. -/
theorem DecisionInv.logCommit (h : DecisionInv logCounts lost t x) (ha : ¬ Aborted logCounts t x)
    (hb : x.1.Begun t) (n : NodeId) :
    DecisionInv logCounts lost t (recorder.apply x (.log { msgID := .decideCommit, tid := t, nodeId := n })) := by
  have hab : ¬ Aborted logCounts t
      (recorder.apply x (.log { msgID := .decideCommit, tid := t, nodeId := n })) := by
    rw [aborted_apply]
    rintro (h | ⟨a, m, h, -⟩ | ⟨-, r, h, hr, -⟩)
    · exact ha h
    · exact absurd h (by simp)
    · cases h
      exact absurd hr (by simp)
  exact
    { committed := fun _ => logged_apply.mpr (Or.inr ⟨_, rfl, rfl, rfl⟩)
      exclusive := fun _ => hab
      aborted := fun hab' => absurd hab' hab
      begun := fun _ => hb.apply _
      unique := h.unique
      votes := h.votes }

/-- A decision to abort is logged while none to commit is, if a record counts at all. -/
theorem DecisionInv.logAbort (h : DecisionInv logCounts lost t x)
    (hc : logCounts → ¬ Logged .decideCommit t x.1.log) (hb : x.1.Begun t) (n : NodeId) :
    DecisionInv logCounts lost t (recorder.apply x (.log { msgID := .decideAbort, tid := t, nodeId := n })) := by
  have hlogged : Logged .decideAbort t
      (x.1.apply (.log { msgID := .decideAbort, tid := t, nodeId := n })).log :=
    logged_apply.mpr (Or.inr ⟨_, rfl, rfl, rfl⟩)
  -- the new record is no commit
  have hcommit : Logged .decideCommit t
      (x.1.apply (.log { msgID := .decideAbort, tid := t, nodeId := n })).log →
      Logged .decideCommit t x.1.log := by
    rw [logged_apply]
    rintro (h | ⟨r, h, hr, -⟩)
    · exact h
    · cases h
      exact absurd hr (by simp)
  refine
    { committed := fun hs => logged_apply.mpr (Or.inl (h.committed hs))
      exclusive := fun hl hab => ?_
      aborted := fun _ => Or.inl hlogged
      begun := fun _ => hb.apply _
      unique := h.unique
      votes := h.votes }
  rcases hab with hab | ⟨hcounts, -⟩
  · exact h.exclusive (hcommit hl) (Or.inl hab)
  · exact hc hcounts (hcommit hl)

/-- A decision to commit is sent only once it is logged. -/
theorem DecisionInv.sendCommit (h : DecisionInv logCounts lost t x) (hc : Logged .decideCommit t x.1.log)
    {a : SockAddr} (hm : m.msgID = .decideCommit) :
    DecisionInv logCounts lost t (recorder.apply x (.send a m)) := by
  have hab : Aborted logCounts t (recorder.apply x (.send a m)) ↔ Aborted logCounts t x := by
    rw [aborted_apply]
    refine or_iff_left ?_
    rintro (⟨a', m', h, hm', -⟩ | ⟨-, r, h, -⟩)
    · cases h
      exact absurd (hm.symm.trans hm') (by simp)
    · exact absurd h (by simp)
  exact
    { committed := fun _ => hc
      exclusive := fun hl hab' => h.exclusive hl (hab.mp hab')
      aborted := fun hab' => h.aborted (hab.mp hab')
      begun := fun hb => h.begun (hb.imp_right (Or.imp_left hab.mp))
      unique := h.unique
      votes := h.votes }

/-- A decision to abort is sent while none to commit is logged. -/
theorem DecisionInv.sendAbort (h : DecisionInv logCounts lost t x) (hc : ¬ Logged .decideCommit t x.1.log)
    (ha : Logged .decideAbort t x.1.log ∨ ¬ x.1.Holds t ∨ lost) (hb : x.1.Begun t) {a : SockAddr}
    (hm : m.msgID = .decideAbort) : DecisionInv logCounts lost t (recorder.apply x (.send a m)) where
  committed hs := by
    rcases (sent_noteSent (e := .send a m)).mp hs with hs | ⟨a', m', h', hm', -⟩
    · exact h.committed hs
    · cases h'
      exact absurd (hm.symm.trans hm') (by simp)
  exclusive hl := absurd hl hc
  aborted _ := ha
  begun _ := hb
  unique := h.unique
  votes := h.votes

/-- A transaction that has neither a slot nor a decision gets a slot. -/
theorem DecisionInv.tid (h : DecisionInv logCounts lost t x) (hs : ¬ x.1.Holds t)
    (ha : ¬ Aborted logCounts t x) (hb : x.1.Begun t) (i : Fin maxTrans) :
    DecisionInv logCounts lost t (recorder.apply x (.tid i t)) := by
  have hab : ¬ Aborted logCounts t (recorder.apply x (.tid i t)) := by
    rw [aborted_apply]
    rintro (h | ⟨a, m, h, -⟩ | ⟨-, r, h, -⟩)
    · exact ha h
    · exact absurd h (by simp)
    · exact absurd h (by simp)
  -- no slot was the one of `t`, so the new one is the only one
  have honly : ∀ k, ((x.1.apply (.tid i t)).workerInfo k).tid = t → k = i := by
    intro k hk
    rw [tid_apply] at hk
    by_contra hne
    simp only [if_neg hne] at hk
    exact hs ⟨k, hk⟩
  exact
    { committed := h.committed
      exclusive := fun _ => hab
      aborted := fun hab' => absurd hab' hab
      begun := fun _ => hb.apply _
      unique := fun k l hk hl => (honly k hk).trans (honly l hl).symm
      votes := openVote_apply (s := x.1) (e := .tid i t) h.votes fun _ _ _ hv => by simp at hv }

/-! ## Where a commit comes from -/

variable {inp : Input}

theorem not_commits_of_isBookkeeping (h : e.isBookkeeping) : ¬ e.Commits t := by
  cases e <;> simp_all [ManagerEffect.isBookkeeping, ManagerEffect.Commits]

theorem not_commits_sendLoop {port n : NodeId} {vc : VClock} {ws : List (Tid × W)}
    (hd : d ≠ .decideCommit) (h : e ∈ sendLoop port d n vc ws) : ¬ e.Commits t := by
  rcases mem_sendLoop h with hb | ⟨x, -, n', vc', rfl⟩
  · exact not_commits_of_isBookkeeping hb
  · exact fun hc => hd hc.1

theorem not_commits_clean {T : Table} {t' : Tid} (h : e ∈ cleanWorkerInfo T t') : ¬ e.Commits t := by
  obtain ⟨i, -, rfl | rfl | ⟨j, rfl | rfl | rfl⟩⟩ := mem_cleanWorkerInfo h <;> exact id

theorem not_commits_reply {src : SockAddr} {vc : VClock} (hd : d ≠ .decideCommit)
    (h : e ∈ reply src m d vc) : ¬ e.Commits t := by
  rcases mem_reply h with hb | rfl
  · exact not_commits_of_isBookkeeping hb
  · exact fun hc => hd hc.1

theorem not_commits_saveWorkerInfo {T : Table} {p : ℕ} {k : MsgId} {n : NodeId} {a : SockAddr}
    {index : ℕ} {t' : Tid} (h : e ∈ (saveWorkerInfo T p t' k n a index).2) : ¬ e.Commits t := by
  rcases mem_saveWorkerInfo h with ⟨-, i, -, -, rfl⟩ | ⟨-, i, j, -, rfl | rfl | rfl⟩ <;> exact id

/-- An announced decision is the one of the message's transaction. -/
theorem commits_announce (h : e ∈ s.announce m d) (hc : e.Commits t) :
    d = .decideCommit ∧ m.tid = t := by
  rcases mem_announce h with rfl | h | h | ⟨i, b, rfl⟩ | rfl | ⟨w, -, n, vc, rfl⟩
  · exact hc
  · exact absurd hc (not_commits_clean h)
  · exact absurd hc (not_commits_of_isBookkeeping h)
  · exact hc.elim
  · exact hc.elim
  · exact hc

theorem commits_vote {src : SockAddr} {u : Uninit}
    (hk : m.msgID = .pollDecision ∨ m.msgID = .voteCommit) (h : e ∈ s.handleVote src m u)
    (hc : e.Commits t) :
    ∃ src' m' u', Input.message src m u = .message src' m' u' ∧
      (m'.msgID = .pollDecision ∨ m'.msgID = .voteCommit) ∧ m'.tid = t ∧
      ((process.exec s (s.crashFlag m')).collectVote m' u'.commit).1 = .decideCommit := by
  rcases mem_handleVote h with ⟨i, b, rfl⟩ | h | ⟨hd, -, h⟩ | ⟨hd, -, h⟩ | ⟨-, h⟩
  · exact hc.elim
  · obtain ⟨i, j, -, -, rfl⟩ := mem_collectVote h
    exact hc.elim
  · refine ⟨src, m, u, rfl, hk, ?_, hd⟩
    rcases mem_sendTo h with hb | ⟨vc, rfl⟩
    · exact absurd hc (not_commits_of_isBookkeeping hb)
    · exact hc.2
  · exact ⟨src, m, u, rfl, hk, (commits_announce h hc).2, hd⟩
  · rcases mem_sendTo h with hb | ⟨vc, rfl⟩
    · exact absurd hc (not_commits_of_isBookkeeping hb)
    · exact absurd hc.1 (by simp [constructMessage])

/-- The only source of a commit is a vote or poll that `collectVote` answers with one. -/
theorem commits_handle (h : e ∈ s.handle inp) (hc : e.Commits t) :
    ∃ src m u, inp = .message src m u ∧ (m.msgID = .pollDecision ∨ m.msgID = .voteCommit) ∧
      m.tid = t ∧ ((process.exec s (s.crashFlag m)).collectVote m u.commit).1 = .decideCommit := by
  cases inp with
  | timeout =>
      simp only [handle, voteTimeout] at h
      split at h
      · simp only [List.mem_append, List.mem_cons, List.not_mem_nil, or_false] at h
        rcases h with ((rfl | rfl) | h) | h
        · exact hc.elim
        · exact absurd hc.1 (by simp)
        · exact absurd hc (not_commits_sendLoop (by simp) h)
        · exact absurd hc (not_commits_clean h)
      · simp at h
  | restart =>
      simp only [handle, restart, List.mem_append, List.mem_cons, List.not_mem_nil, or_false] at h
      rcases h with ((rfl | rfl | rfl | rfl) | h) | rfl
      · exact hc.elim
      · exact hc.elim
      · exact hc.elim
      · exact hc.elim
      · exact absurd hc (not_commits_sendLoop (by simp) h)
      · exact hc.elim
  | message src m u =>
      simp only [handle, handleWorkerMsg, List.mem_append] at h
      rcases h with h | h
      · exact absurd hc (not_commits_of_isBookkeeping (mem_receive h))
      split at h
      · -- BEGINTX
        simp only [handleBegin, List.mem_append, List.mem_cons, List.not_mem_nil, or_false] at h
        rcases h with (h | rfl | rfl) | h
        · exact absurd hc (not_commits_saveWorkerInfo h)
        · exact hc.elim
        · exact hc.elim
        · exact absurd hc (not_commits_reply (by split <;> simp) h)
      · rename_i hk
        -- the record of a `JOINTX` is no decision
        simp only [handleJoin, List.mem_append, List.mem_cons, List.not_mem_nil, or_false] at h
        rcases h with (h | rfl | rfl) | h
        · exact absurd hc (not_commits_saveWorkerInfo h)
        · exact hc.elim
        · exact hc.elim
        · split at h
          · exact absurd hc (not_commits_reply (by simp) h)
          · rcases List.mem_cons.mp h with rfl | h
            · exact absurd (hk.symm.trans hc.1) (by simp)
            · exact absurd hc (not_commits_reply (by simp) h)
      · rcases List.mem_cons.mp h with rfl | h
        · exact absurd hc.1 (by simp)
        · exact absurd hc (not_commits_sendLoop (by simp) h)
      · -- POLL_DECISION and VOTE_COMMIT: the count decides
        exact commits_vote (Or.inl ‹_›) h hc
      · exact commits_vote (Or.inr ‹_›) h hc
      · rcases List.mem_append.mp h with h | h
        · obtain ⟨i, b, rfl⟩ := mem_crashFlag h
          exact hc.elim
        · exact absurd (commits_announce h hc).1 (by simp)
      · simp at h

/-- A commit record is an old one, or an effect has written it. -/
theorem commits_of_logged (h : Logged .decideCommit t (process.exec s es).log) :
    Logged .decideCommit t s.log ∨ ∃ e ∈ es, e.Commits t := by
  revert h
  refine Process.exec_invariant (P := process) (I := fun s' => Logged .decideCommit t s'.log →
    Logged .decideCommit t s.log ∨ ∃ e ∈ es, e.Commits t) Or.inl fun s' e he ih h => ?_
  rcases logged_apply.mp h with h | ⟨r, rfl, hid, htid⟩
  · exact ih h
  · exact Or.inr ⟨_, he, hid, htid⟩

end Manager

end DistributedSystem.Transaction
