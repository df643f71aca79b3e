import DistributedSystem.Transaction.WorkerSteps

/-!
# The vote on a PREPARE_COMMIT

Which vote a worker sends and records, against what it has done about the transaction since
it joined. A ghost collects that history. The record of the vote is a `VOTE_COMMIT` record in
every case, and the vote itself looks at the `ABORT` records of the current transaction and at
the flag `vote`, so the two agree with the history exactly when there is no reason to abort.
In every run the history explains the records and the flag, up to what is older than the join.
-/

namespace DistributedSystem.Transaction

open DistributedSystem.Library

/-- What a worker has done about a transaction. -/
structure VoteHistory where
  joined : Bool := false
  /-- since the join: an `ABORT` or `DECIDE_ABORT` record, a no vote, or a `VOTE_ABORT`
      command while it was the current transaction -/
  against : Bool := false
  /-- such a record before the join, or a `VOTE_ABORT` command before it or while another
      transaction was the current one -/
  earlier : Bool := false
  deriving DecidableEq

/-- A reason to abort has come up, since the join or not. -/
def VoteHistory.note (h : VoteHistory) (since : Bool) : VoteHistory :=
  if since then { h with against := true } else { h with earlier := true }

/-- One effect, in the state before it. -/
def VoteHistory.watch (t : Tid) (w : Worker) (h : VoteHistory) : WorkerEffect → VoteHistory
  | .joined tid => if tid = t then { h with joined := true } else h
  | .log r =>
      if r.tid = t ∧ (r.msgID = .abort ∨ r.msgID = .decideAbort) then h.note h.joined else h
  | .send _ m => if h.joined ∧ m.tid = t ∧ m.msgID = .voteAbort then h.note true else h
  | .vote v => if v = some .voteAbort then h.note (h.joined ∧ w.mem.curTid = t) else h
  | _ => h

/-- The two votes. -/
def MsgId.isVote : MsgId → Bool
  | .voteCommit | .voteAbort => true
  | _ => false

/-- The vote on `t` that an effect sends. -/
def WorkerEffect.sentVote (t : Tid) : WorkerEffect → Option MsgId
  | .send _ m => if m.tid = t ∧ m.msgID.isVote then some m.msgID else none
  | _ => none

/-- The vote on `t` that an effect records. -/
def WorkerEffect.loggedVote (t : Tid) : WorkerEffect → Option MsgId
  | .log r => if r.tid = t ∧ r.msgID.isVote then some r.msgID else none
  | _ => none

def sentVotes (t : Tid) (es : List WorkerEffect) : List MsgId :=
  es.filterMap (WorkerEffect.sentVote t)

def loggedVotes (t : Tid) (es : List WorkerEffect) : List MsgId :=
  es.filterMap (WorkerEffect.loggedVote t)

namespace Worker

/-- The worker with its history about `t`. -/
def withVotes (t : Tid) : Process (Worker × VoteHistory) WorkerEffect Input :=
  process.instrument (VoteHistory.watch t)

/-- The action handles a `PREPARE_COMMIT` for `t`. -/
def HandlesPrepare (t : Tid) (s : Worker × VoteHistory) (a : Act Input) : Prop :=
  a.cut = none ∧ s.1.mem.control = .cmdLoop ∧
    ∃ src m, a.input = .manager src m ∧ m.msgID = .prepareCommit ∧ m.tid = t

/-- The vote law: the vote sent is the vote recorded, and it is `VOTE_ABORT` exactly when the
    history is against the transaction. -/
def VoteLaw (t : Tid) (s : Worker × VoteHistory) (a : Act Input) : Prop :=
  sentVotes t (process.performed s.1 a) = loggedVotes t (process.performed s.1 a) ∧
    ∀ v ∈ sentVotes t (process.performed s.1 a), v = .voteAbort ↔ s.2.against = true

/-- No vote at all, because the process ends before it is sent; or `sendMsg` returns and
    neither the log, nor the flag, nor the history is against the transaction. -/
def NothingAgainst (s : Worker × VoteHistory) : Prop :=
  s.1.mem.delay = -1000 ∨
    (0 ≤ s.1.mem.delay ∧ isLocalAbort s.1.log s.1.mem.curTid = false ∧
      s.1.mem.vote ≠ some .voteAbort ∧ s.2.against = false)

/-- The history alone has nothing against the transaction. -/
def NeverAgainst (s : Worker × VoteHistory) : Prop :=
  s.1.mem.delay = -1000 ∨ (0 ≤ s.1.mem.delay ∧ s.2.against = false)

/-- What the vote looks at is in the history: an `ABORT` record of `t`, and the flag. -/
structure Explained (t : Tid) (s : Worker × VoteHistory) : Prop where
  record : ∀ r ∈ s.1.log, r.tid = t → r.msgID = .abort → s.2.against = true ∨ s.2.earlier = true
  flag : s.1.mem.vote = some .voteAbort → s.2.against = true ∨ s.2.earlier = true

/-- A `VOTE_ABORT` command, and two `PREPARE_COMMIT`s: the first vote is an abort that is
    recorded as a commit, and the second one is a commit. -/
theorem abort_vote_recorded_as_commit :
    let joined := process.machine.after worker40 [deliver .joinSuccess 1, command .voteAbort]
    let voted := process.machine.after joined [deliver .prepareCommit 1, deliver .wait 1]
    process.machine.Along (fun w a => w.accepts a.input) worker40 [deliver .joinSuccess 1,
        command .voteAbort, deliver .prepareCommit 1, deliver .wait 1, deliver .prepareCommit 1] ∧
      sentVotes 1 (process.performed joined (deliver .prepareCommit 1)) = [.voteAbort] ∧
      loggedVotes 1 (process.performed joined (deliver .prepareCommit 1)) = [.voteCommit] ∧
      sentVotes 1 (process.performed voted (deliver .prepareCommit 1)) = [.voteCommit] := by
  decide +kernel

variable {w : Worker} {m : TxMessage} {src : SockAddr} {t : Tid}

theorem voteFor_eq_voteAbort :
    w.voteFor m = .voteAbort ↔ isLocalAbort w.log w.mem.curTid = true ∨ w.mem.vote = some .voteAbort := by
  unfold voteFor
  rw [isLocalAbort_prepare]
  split <;> simp_all

theorem isVote_voteFor : (w.voteFor m).isVote = true := by
  unfold voteFor
  split <;> rfl

theorem sentVotes_sendMsg (w : Worker) (vc : VClock) (dst : SockAddr) (ht : m.tid = t)
    (hv : m.msgID.isVote = true) :
    sentVotes t (w.sendMsg vc dst m) = if w.mem.delay = -1000 then [] else [m.msgID] := by
  simp only [sendMsg]
  split
  · rfl
  · split <;> simp [sentVotes, WorkerEffect.sentVote, ht, hv]

theorem loggedVotes_sendMsg (w : Worker) (vc : VClock) (dst : SockAddr) (m : TxMessage) :
    loggedVotes t (w.sendMsg vc dst m) = [] := by
  simp only [sendMsg]
  split
  · rfl
  · split <;> rfl

/-- The vote that is sent. -/
theorem sentVotes_prepare : sentVotes m.tid (w.receive src m ++ w.handlePrepareCommit src m) =
    if w.mem.delay = -1000 then [] else [w.voteFor m] := by
  have hsend : ∀ vc, sentVotes m.tid (w.sendMsg vc src (w.constructTxMessage (w.voteFor m) m.tid m.nodeId vc)) =
      if w.mem.delay = -1000 then [] else [w.voteFor m] :=
    fun vc => sentVotes_sendMsg w vc src rfl isVote_voteFor
  have hbefore : ∀ c : Prop, [Decidable c] →
      sentVotes m.tid (if c then [.vote none] else []) = [] := by
    intro c _
    split <;> rfl
  have hafter : sentVotes m.tid (if w.mem.delay < 0 then [] else
      [.log { msgID := .voteCommit, tid := m.tid }, .firstTimeWaiting true, .control (.waiting src)]) =
      [] := by
    split <;> rfl
  simp only [sentVotes] at hsend hbefore hafter
  simp only [sentVotes, handlePrepareCommit, List.filterMap_append, hsend, hbefore, hafter]
  split <;> rfl

/-- The vote that is recorded. -/
theorem loggedVotes_prepare : loggedVotes m.tid (w.receive src m ++ w.handlePrepareCommit src m) =
    if w.mem.delay < 0 then [] else [.voteCommit] := by
  have hsend : ∀ vc p, loggedVotes m.tid (w.sendMsg vc src p) = [] :=
    fun vc p => loggedVotes_sendMsg w vc src p
  have hbefore : ∀ c : Prop, [Decidable c] →
      loggedVotes m.tid (if c then [.vote none] else []) = [] := by
    intro c _
    split <;> rfl
  simp only [loggedVotes] at hsend hbefore
  simp only [loggedVotes, handlePrepareCommit, List.filterMap_append, hsend, hbefore]
  have hprepare : (WorkerEffect.log { msgID := .prepareCommit, tid := m.tid }).loggedVote m.tid = none :=
    if_neg (by simp [MsgId.isVote])
  have hvote : (WorkerEffect.log { msgID := .voteCommit, tid := m.tid }).loggedVote m.tid =
      some .voteCommit := if_pos ⟨rfl, rfl⟩
  split
  · rw [List.filterMap_cons_none hprepare]
    rfl
  · rw [List.filterMap_cons_none hprepare, List.filterMap_cons_some hvote]
    rfl

/-- The law for one `PREPARE_COMMIT`. -/
theorem voteLaw_iff {s : Worker × VoteHistory} {a : Act Input} (h : HandlesPrepare t s a) :
    VoteLaw t s a ↔ NothingAgainst s := by
  obtain ⟨hcut, hloop, src, m, hinput, hk, rfl⟩ := h
  have hperf : process.performed s.1 a = s.1.receive src m ++ s.1.handlePrepareCommit src m := by
    simp only [Process.performed, hcut, hinput, process_handler, handle, hloop, handleManagerMsg, hk]
  unfold VoteLaw NothingAgainst
  rw [hperf, sentVotes_prepare, loggedVotes_prepare]
  by_cases hcrash : s.1.mem.delay = -1000
  · -- no vote is sent, and none is recorded
    simp [hcrash]
  by_cases hdelay : s.1.mem.delay < 0
  · -- the vote is sent, but the process ends before it is recorded
    have hneg : ¬ 0 ≤ s.1.mem.delay := not_le.mpr hdelay
    simp [hcrash, hdelay, hneg]
  · -- the record says VOTE_COMMIT, so the vote must be a commit, too
    have hpos : 0 ≤ s.1.mem.delay := not_lt.mp hdelay
    have habort := voteFor_eq_voteAbort (w := s.1) (m := m)
    simp only [hcrash, hdelay, hpos, if_false, false_or, true_and, List.cons.injEq, and_true,
      List.mem_singleton, forall_eq]
    constructor
    · rintro ⟨hcommit, hhistory⟩
      have hno : ¬ s.1.voteFor m = .voteAbort := by
        rw [hcommit]
        decide
      rw [habort, not_or, Bool.not_eq_true] at hno
      refine ⟨hno.1, hno.2, ?_⟩
      rw [← Bool.not_eq_true, ← hhistory, hcommit]
      decide
    · rintro ⟨hlocal, hvote, hhistory⟩
      have hcommit : s.1.voteFor m = .voteCommit := by
        unfold voteFor
        rw [isLocalAbort_prepare]
        simp [hlocal, hvote]
      simp [hcommit, hhistory]

/-! ## The history of a run -/

theorem noted (h : VoteHistory) (since : Bool) :
    (h.note since).against = true ∨ (h.note since).earlier = true := by
  cases since
  · exact Or.inr rfl
  · exact Or.inl rfl

/-- What the history holds stays in it. -/
theorem watch_mono {h : VoteHistory} (e : WorkerEffect) (hold : h.against = true ∨ h.earlier = true) :
    (h.watch t w e).against = true ∨ (h.watch t w e).earlier = true := by
  have hnote : ∀ (P : Prop) [Decidable P] (since : Bool),
      (if P then h.note since else h).against = true ∨
        (if P then h.note since else h).earlier = true := by
    intro P _ since
    split
    · exact noted h since
    · exact hold
  cases e with
  | joined tid =>
      rw [VoteHistory.watch]
      split <;> exact hold
  | log r => exact hnote _ _
  | send dst p => exact hnote _ _
  | vote v => exact hnote _ _
  | _ => exact hold

theorem Explained.apply {s : Worker × VoteHistory} (h : Explained t s) (e : WorkerEffect) :
    Explained t ((withVotes t).apply s e) := by
  have hmono : s.2.against = true ∨ s.2.earlier = true → _ := watch_mono (t := t) (w := s.1) e
  refine ⟨fun r' hr' htid hk => ?_, fun hflag => ?_⟩
  · change r' ∈ (s.1.apply e).log at hr'
    rw [log_apply] at hr'
    cases e with
    | log r =>
        rcases List.mem_append.mp hr' with hr' | hr'
        · exact hmono (h.record r' hr' htid hk)
        · -- the record is written now
          obtain rfl := List.mem_singleton.mp hr'
          show (s.2.watch t s.1 (.log r')).against = true ∨ (s.2.watch t s.1 (.log r')).earlier = true
          rw [VoteHistory.watch, if_pos ⟨htid, Or.inl hk⟩]
          exact noted _ _
    | _ => exact hmono (h.record r' hr' htid hk)
  · change (s.1.apply e).mem.vote = some .voteAbort at hflag
    rw [vote_apply] at hflag
    cases e with
    | vote v =>
        show (s.2.watch t s.1 (.vote v)).against = true ∨ (s.2.watch t s.1 (.vote v)).earlier = true
        rw [VoteHistory.watch, if_pos hflag]
        exact noted _ _
    | exit => cases hflag
    | _ => exact hmono (h.flag hflag)

/-- Where the history explains what the vote looks at, and nothing is older than the join, only
    what came after it counts. -/
theorem nothingAgainst_iff {s : Worker × VoteHistory} (h : Explained t s) (hcur : s.1.mem.curTid = t)
    (hearlier : s.2.earlier = false) : NothingAgainst s ↔ NeverAgainst s := by
  constructor
  · rintro (hcrash | ⟨hdelay, -, -, hno⟩)
    · exact Or.inl hcrash
    · exact Or.inr ⟨hdelay, hno⟩
  · rintro (hcrash | ⟨hdelay, hno⟩)
    · exact Or.inl hcrash
    · -- no reason has come up, so there is no record and no flag
      have hnone : ¬ (s.2.against = true ∨ s.2.earlier = true) := by simp [hno, hearlier]
      have hlocal : ¬ isLocalAbort s.1.log s.1.mem.curTid = true := by
        intro hlocal
        obtain ⟨r, hr, htid, hk⟩ := exists_abort_of_isLocalAbort hlocal
        exact hnone (h.record r hr (htid.trans hcur) hk)
      exact Or.inr ⟨hdelay, Bool.eq_false_iff.mpr hlocal, fun hflag => hnone (h.flag hflag), hno⟩

/-- **The vote law** in every run of a worker: a `PREPARE_COMMIT` is handled as the law says
    exactly when there is nothing against the transaction, or no vote is sent at all. For the
    current transaction, with nothing older than its join, the history alone decides that. -/
theorem vote_law_iff (t : Tid) (nodeId : NodeId) (sys_port : ℕ) (A B : ℤ) (IDstring : String)
    (now : Timeval) (as : List (Act Input))
    (hrun : (withVotes t).machine.Along (fun s a => s.1.accepts a.input)
      (start nodeId sys_port A B IDstring now, {}) as) :
    (withVotes t).machine.Along
      (fun s a => HandlesPrepare t s a → (VoteLaw t s a ↔ NothingAgainst s) ∧
        (s.1.mem.curTid = t → s.2.earlier = false → (VoteLaw t s a ↔ NeverAgainst s)))
      (start nodeId sys_port A B IDstring now, {}) as := by
  have hstart : Explained t (start nodeId sys_port A B IDstring now, {}) :=
    ⟨fun r hr => absurd hr List.not_mem_nil, fun hflag => by cases hflag⟩
  refine hrun.strengthen hstart (fun s a h _ => ?_) fun s a h _ hprepare => ?_
  · exact Process.exec_invariant h fun s' e _ hs' => hs'.apply e
  · have hlaw := voteLaw_iff hprepare
    exact ⟨hlaw, fun hcur hearlier => hlaw.trans (nothingAgainst_iff h hcur hearlier)⟩

/-- A join, an update and the vote. -/
theorem vote_law_iff_commit :
    (withVotes 1).machine.Along
      (fun s a => HandlesPrepare 1 s a → (VoteLaw 1 s a ↔ NothingAgainst s) ∧
        (s.1.mem.curTid = 1 → s.2.earlier = false → (VoteLaw 1 s a ↔ NeverAgainst s))) (worker40, {})
      [deliver .joinSuccess 1, newA 7, deliver .prepareCommit 1] :=
  vote_law_iff 1 40 0 1 2 "id" 0 _ (by decide +kernel)

end Worker

end DistributedSystem.Transaction
