import DistributedSystem.Transaction.DecisionSteps

/-!
# Are the manager's decisions irrevocable?

A run of the manager alone: any messages from anywhere, vote timeouts, and a crash
between any two effects of any handler. The recovery broadcast aborts a transaction
without a record and leaves its slot, poll replies commit one without a record, and
votes and timeouts do not look for an earlier decision. `Past` keeps what has become of
the transaction, and `Consistent` says when a run meets none of these; then no
transaction is ever decided both ways.
-/

namespace DistributedSystem.Transaction

open DistributedSystem.Library

namespace Manager

/-- Decision `d` on `t` has been logged or sent. -/
def Decided (d : MsgId) (t : Tid) (x : Manager × List TxMessage) : Prop :=
  Sent d t x.2 ∨ Logged d t x.1.log

instance (d : MsgId) (t : Tid) (x : Manager × List TxMessage) : Decidable (Decided d t x) := by
  unfold Decided; infer_instance

/-! ## What has become of a transaction -/

/-- What the votes and the restarts have met so far. -/
structure Past where
  /-- a `VOTE_COMMIT` found that every other participant had voted -/
  counted : Bool := false
  /-- a restart found a slot and no commit record, and somebody to tell or an abort record -/
  undecided : Bool := false
  /-- a restart found a slot and a commit record -/
  committed : Bool := false
  deriving DecidableEq

/-- The vote completes the count of a slot of `t`. -/
def Completes (t : Tid) (s : Manager) : Input → Prop
  | .message _ m _ => m.tid = t ∧ m.msgID = .voteCommit ∧
      ∃ i, (s.workerInfo i).tid = t ∧ ¬ OthersUnvoted s.workerInfo i m.nodeId
  | .timeout | .restart => False

/-- There is no commit record, and somebody is listed or there is an abort record. -/
def StillOpen (t : Tid) (s : Manager) : Prop :=
  ¬ Logged .decideCommit t s.log ∧ (s.Listed t ∨ Logged .decideAbort t s.log)

instance (t : Tid) (s : Manager) : ∀ inp, Decidable (Completes t s inp)
  | .message _ _ _ => inferInstanceAs (Decidable (_ ∧ _))
  | .timeout | .restart => isFalse id

instance (t : Tid) (s : Manager) : Decidable (StillOpen t s) := by unfold StillOpen; infer_instance

/-- One step, in the state before it. -/
def Past.note (t : Tid) (x : Manager × List TxMessage) (a : Act Input) (past : Past) : Past where
  counted := past.counted || decide (Completes t x.1 a.input)
  undecided := past.undecided || decide (a.input = .restart ∧ x.1.Holds t ∧ StillOpen t x.1)
  committed := past.committed ||
    decide (a.input = .restart ∧ x.1.Holds t ∧ Logged .decideCommit t x.1.log)

/-- The runs of the manager with what has become of `t`. -/
def remembering (t : Tid) : Machine ((Manager × List TxMessage) × Past) (Act Input) :=
  recorder.machine.watch (Past.note t)

/-- What an input must respect to leave the decision on `t` as it is. Votes and polls come
    after the `BEGIN`, and find a participant if `t` has a slot; a poll, and after a restart
    that broadcast an abort every vote, finds the commit logged or another participant
    without a vote; a vote to abort comes before the count is completed, or after such a
    restart; a timeout picks no transaction that a restart found committed; and where the
    log is scanned for a commit, it is on the page. -/
def Consistent (t : Tid) (x : (Manager × List TxMessage) × Past) (a : Act Input) : Prop :=
  match a.input with
  | .message _ m _ => m.tid = t →
      (m.msgID = .pollDecision ∨ m.msgID = .voteCommit ∨ m.msgID = .voteAbort → x.1.1.Begun t) ∧
      (m.msgID = .pollDecision ∨ m.msgID = .voteCommit → (x.1.1.Holds t ∨ x.1.1.CommitSeen t) ∧
        ∀ i, (x.1.1.workerInfo i).tid = t → (∃ j, ((x.1.1.workerInfo i).workers j).nodeId ≠ 0) ∧
          (m.msgID = .pollDecision ∨ x.2.undecided = true →
            Logged .decideCommit t x.1.1.log ∨ OthersUnvoted x.1.1.workerInfo i m.nodeId)) ∧
      (m.msgID = .voteAbort → x.2.counted = true → x.2.undecided = true)
  | .timeout => waitingForVotes x.1.1.workerInfo x.1.1.log = some t → x.2.committed = false
  | .restart => x.1.1.Holds t → x.1.1.CommitSeen t

instance (t : Tid) (x : (Manager × List TxMessage) × Past) : ∀ a, Decidable (Consistent t x a)
  | ⟨.message _ _ _, _⟩ => inferInstanceAs (Decidable (_ → _ ∧ _))
  | ⟨.timeout, _⟩ => inferInstanceAs (Decidable (_ → _ = _))
  | ⟨.restart, _⟩ => inferInstanceAs (Decidable (_ → _))

instance (x : Manager × List TxMessage) (a : Act Input) : Decidable (recorder.machine.enabled x a) :=
  inferInstanceAs (Decidable (x.1.accepts a.input))

/-! ## The invariant between the inputs -/

variable {t : Tid} {x : Manager × List TxMessage} {past : Past} {a : Act Input} {lost lost' : Prop}

/-- What holds between the inputs. A running manager has no slot for a transaction it has
    decided, but where a restart has left it one. -/
structure Settled (t : Tid) (x : (Manager × List TxMessage) × Past) : Prop where
  decision : DecisionInv True (x.2.undecided = true) t x.1
  aborted : x.1.1.mem.up = true → Aborted True t x.1 → x.1.1.Holds t → x.2.undecided = true
  committed : x.1.1.mem.up = true → Logged .decideCommit t x.1.1.log → x.1.1.Holds t →
    x.2.committed = true
  counted : Logged .decideCommit t x.1.1.log → x.2.counted = true ∧ x.2.undecided = false

theorem settled_start (ht : t ≠ 0) (port : NodeId) : Settled t ((start port, []), {}) := by
  have hno : ¬ (start port).Holds t := by
    rintro ⟨_, hi⟩
    exact ht hi.symm
  have hna : ¬ Aborted True t (start port, []) := by simp [Aborted, Sent, Logged, start]
  have hnl : ¬ Logged .decideCommit t (start port).log := by simp [Logged, start]
  exact
    { decision :=
        { committed := fun hs => absurd hs (by simp [Sent])
          exclusive := fun _ => hna
          aborted := fun ha => absurd ha hna
          begun := fun hb => hb.elim (absurd · hno) fun hb => hb.elim (absurd · hna) (absurd · hnl)
          unique := fun i j hi => absurd ⟨i, hi⟩ hno
          votes := fun _ _ => Or.inl rfl }
      aborted := fun _ _ hs => absurd hs hno
      committed := fun _ hc => absurd hc hnl
      counted := fun hc => absurd hc hnl }

/-- What a restart leaves undone only grows. -/
theorem DecisionInv.mono {logCounts : Prop} (h : DecisionInv logCounts lost t x) (hl : lost → lost') :
    DecisionInv logCounts lost' t x :=
  { h with aborted := fun ha => (h.aborted ha).imp_right (Or.imp_right hl) }

theorem up_of_accepts (hen : x.1.accepts a.input) (hne : a.input ≠ .restart) : x.1.mem.up = true := by
  cases hin : a.input with
  | restart => exact absurd hin hne
  | timeout => simpa [hin, accepts] using hen
  | message src m u => simpa [hin, accepts] using hen

/-- The invariant and the condition exclude the inputs that would contradict a decision. -/
theorem Settled.permits (h : Settled t (x, past)) (hen : x.1.accepts a.input)
    (honce : BegunOnce t x.1 a) (hcons : Consistent t (x, past) a) :
    Permits True ((past.note t x a).undecided = true) t x.1 a.input := by
  unfold BegunOnce at honce
  unfold Consistent at hcons
  cases hin : a.input with
  | restart =>
      simp only [hin] at hcons
      refine ⟨hcons, fun hlisted hnc => ?_⟩
      -- the restart is noted, for somebody is listed
      have hholds : x.1.Holds t := hlisted.imp fun _ hi => hi.1
      have hund : StillOpen t x.1 := ⟨hnc, Or.inl hlisted⟩
      simp [Past.note, hin, hholds, hund]
  | timeout =>
      simp only [hin] at hcons
      intro hwait hc
      have hup := up_of_accepts hen (by simp [hin])
      have hcommitted : past.committed = true := h.committed hup hc (holds_of_waitingForVotes hwait)
      exact absurd (hcons hwait) (by simp [hcommitted])
  | message src m u =>
      simp only [hin] at honce hcons
      have hund : (past.note t x a).undecided = past.undecided := by simp [Past.note, hin]
      intro hm
      obtain ⟨hbegun, hvote, habort⟩ := hcons hm
      rw [hund]
      refine ⟨honce hm, fun hk => ⟨hbegun (hk.imp_right Or.inl), hvote hk⟩, fun hk => ?_⟩
      refine ⟨hbegun (Or.inr (Or.inr hk)), Or.inl fun hc => ?_⟩
      obtain ⟨hcounted, hnot⟩ : past.counted = true ∧ past.undecided = false := h.counted hc
      exact absurd (habort hk hcounted) (by simp [hnot])

/-- A commit record comes from a completed count, or there was one before. -/
theorem Settled.counted_step (h : Settled t (x, past)) (hcons : Consistent t (x, past) a)
    (hc : Logged .decideCommit t (recorder.step x a).1.log) :
    (past.note t x a).counted = true ∧ (past.note t x a).undecided = false := by
  have hcommits : Logged .decideCommit t x.1.log ∨ ∃ e ∈ recorder.performed x a, e.Commits t := by
    unfold Process.step at hc
    rw [recorder_exec_fst] at hc
    exact commits_of_logged hc
  -- a commit that was logged before has been counted before
  have hold : Logged .decideCommit t x.1.log →
      (past.note t x a).counted = true ∧ (past.note t x a).undecided = false := by
    intro hlogged
    obtain ⟨hcounted, hnot⟩ : past.counted = true ∧ past.undecided = false := h.counted hlogged
    simp [Past.note, hcounted, hnot, StillOpen, hlogged]
  rcases hcommits with hlogged | ⟨e, he, hcommit⟩
  · exact hold hlogged
  have hhandle : e ∈ x.1.handle a.input := by
    rcases Process.mem_performed he with he | rfl
    · exact he
    · exact hcommit.elim
  obtain ⟨src, m, u, hin, hk, htid, hlogged | ⟨i, hi, hvoted⟩⟩ := commits_cases hhandle hcommit
  · exact hold hlogged
  unfold Consistent at hcons
  simp only [hin] at hcons
  obtain ⟨-, hvote, -⟩ := hcons htid
  by_cases hlogged : Logged .decideCommit t x.1.log
  · exact hold hlogged
  -- nobody else was missing, so the message is no poll and no restart has aborted
  have hnot : ¬ (m.msgID = .pollDecision ∨ past.undecided = true) :=
    fun hp => (((hvote hk).2 i hi).2 hp).elim hlogged hvoted
  obtain ⟨hpoll, hund⟩ := not_or.mp hnot
  have hcompletes : Completes t x.1 a.input := by
    rw [hin]
    exact ⟨htid, hk.resolve_left hpoll, i, hi, hvoted⟩
  refine ⟨by simp [Past.note, hcompletes], ?_⟩
  simpa [Past.note, hin] using hund

theorem settled_step (ht : t ≠ 0) (h : Settled t (x, past)) (hen : recorder.machine.enabled x a)
    (honce : BegunOnce t x.1 a) (hcons : Consistent t (x, past) a) :
    Settled t ((remembering t).next (x, past) a) := by
  change x.1.accepts a.input at hen
  show Settled t (recorder.step x a, past.note t x a)
  have hgrows : past.undecided = true → (past.note t x a).undecided = true := fun hu => by
    simp [Past.note, hu]
  have hinv := h.decision.mono hgrows
  obtain ⟨hthroughout, hend⟩ := handle_concludes ht hinv
    (fun hne ha hs => hgrows (h.aborted (up_of_accepts hen hne) ha hs)) (h.permits hen honce hcons)
  have hcounted := fun hc => h.counted_step hcons (a := a) hc
  rw [Process.step] at hcounted ⊢
  unfold Process.performed at hcounted ⊢
  cases hcut : a.cut with
  | some k =>
      -- after a crash the manager is down
      simp only [hcut] at hcounted ⊢
      rw [Process.exec_append] at hcounted ⊢
      have hmid := (hthroughout.take k).last.quiet (e := .exit) trivial
      have hdown : ∀ {P : Prop}, (recorder.exec (recorder.exec x ((x.1.handle a.input).take k))
          [ManagerEffect.exit]).1.mem.up = true → P := fun hup => by simp [apply] at hup
      exact ⟨hmid, fun hup => hdown hup, fun hup => hdown hup, hcounted⟩
  | none =>
      simp only [hcut, recorder_handler] at hcounted ⊢
      refine ⟨hthroughout.last, fun _ ha hs => ?_, fun _ hc hs => ?_, hcounted⟩
      · obtain ⟨hab, -, hslot⟩ := hend.resolve_left (not_not.mpr hs)
        rcases hab ha with hax | hlost
        swap
        · exact hlost
        have hholds := hslot.resolve_right fun hn => hn.1 hax
        by_cases hin : a.input = .restart
        · -- an abort that has left the slot is logged, or was noted before
          rcases hinv.aborted hax with hlogged | hno | hlost
          · have hund : StillOpen t x.1 := ⟨fun hc => hinv.exclusive hc hax, Or.inr hlogged⟩
            simp [Past.note, hin, hholds, hund]
          · exact absurd hholds hno
          · exact hlost
        · exact hgrows (h.aborted (up_of_accepts hen hin) hax hholds)
      · obtain ⟨-, hco, hslot⟩ := hend.resolve_left (not_not.mpr hs)
        have hcx := hco hc
        have hholds := hslot.resolve_right fun hn => hn.2 hcx
        by_cases hin : a.input = .restart
        · simp [Past.note, hin, hholds, hcx]
        · have hcommitted : past.committed = true := h.committed (up_of_accepts hen hin) hcx hholds
          simp [Past.note, hcommitted]

/-- **Irrevocability**: in a consistent run a transaction that is begun once is never
    decided both ways. -/
theorem decisions_irrevocable (port : NodeId) (t : Tid) (as : List (Act Input)) (ht : t ≠ 0)
    (hrun : recorder.machine.Along recorder.machine.enabled (start port, []) as)
    (honce : recorder.machine.Along (fun x a => BegunOnce t x.1 a) (start port, []) as)
    (hcons : (remembering t).Along (Consistent t) ((start port, []), {}) as) :
    ¬ (Decided .decideCommit t (recorder.machine.after (start port, []) as) ∧
      Decided .decideAbort t (recorder.machine.after (start port, []) as)) := by
  have hall := Machine.along_and.mpr ⟨Machine.along_watch.mpr hrun,
    Machine.along_and.mpr ⟨Machine.along_watch.mpr honce, hcons⟩⟩
  have hend := Machine.Along.invariant (I := Settled t) hall (settled_start ht port)
    fun x a hx hC => settled_step ht hx hC.1 hC.2.1 hC.2.2
  have hdecision := hend.decision
  rw [Machine.watch_after_fst] at hdecision
  rintro ⟨hcommit, habort⟩
  have hlogged := hcommit.elim hdecision.committed id
  exact hdecision.exclusive hlogged (habort.imp_right fun h => ⟨trivial, h⟩)

/-- Worker 40 speaks to the manager. -/
def fromWorker (msgID : MsgId) (tid : Tid) (cut : Option ℕ := none) : Act Input where
  input := .message ⟨1, 40⟩ { msgID, tid, nodeId := 40, isCrash := false, vectorClock := emptyClock } {}
  cut := cut

/-- The manager dies right after the commit record, restarts and answers a poll. -/
theorem decisions_irrevocable_crash :
    ¬ (Decided .decideCommit 1 (recorder.machine.after (start 7, [])
        [fromWorker .begintx 1, fromWorker .jointx 1, fromWorker .commit 1,
          fromWorker .voteCommit 1 (some 6), ⟨.restart, none⟩, fromWorker .pollDecision 1]) ∧
      Decided .decideAbort 1 (recorder.machine.after (start 7, [])
        [fromWorker .begintx 1, fromWorker .jointx 1, fromWorker .commit 1,
          fromWorker .voteCommit 1 (some 6), ⟨.restart, none⟩, fromWorker .pollDecision 1])) :=
  decisions_irrevocable 7 1 _ (by decide) (by decide +kernel) (by decide +kernel) (by decide +kernel)

/-- The recovery broadcast aborts a joined transaction, and its timeout does so again. -/
example : (remembering 1).Along (Consistent 1) ((start 7, []), {})
    [fromWorker .begintx 1, fromWorker .jointx 1, fromWorker .commit 1, ⟨.timeout, some 0⟩,
      ⟨.restart, none⟩, ⟨.timeout, none⟩, fromWorker .voteCommit 1] := by
  decide +kernel

/-- The manager dies while it waits for the vote, and restarts. -/
def recoveryRun : List (Act Input) :=
  [fromWorker .begintx 1, fromWorker .jointx 1, fromWorker .commit 1, ⟨.timeout, some 0⟩,
    ⟨.restart, none⟩, fromWorker .voteCommit 1]

/-- The recovery broadcast tells the worker to abort, and then its vote is counted. -/
theorem decision_reversed :
    recorder.machine.Along recorder.machine.enabled (start 7, []) recoveryRun ∧
      recorder.machine.Along (fun x a => BegunOnce 1 x.1 a) (start 7, []) recoveryRun ∧
      Decided .decideCommit 1 (recorder.machine.after (start 7, []) recoveryRun) ∧
      Decided .decideAbort 1 (recorder.machine.after (start 7, []) recoveryRun) := by
  decide +kernel

end Manager

end DistributedSystem.Transaction
