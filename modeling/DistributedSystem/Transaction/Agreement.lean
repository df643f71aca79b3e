import DistributedSystem.Transaction.DecisionSteps
import DistributedSystem.Transaction.Participants
import DistributedSystem.Transaction.System

/-!
# Do the participants agree?

Runs of the manager and its workers in which the manager stays up. A worker writes a
decision record only for a decision message, so the workers agree as long as the manager
never sends both. It can send both because a `POLL_DECISION` is counted as a yes vote
and its answer is neither logged nor followed by the clearing of the slot, so a vote
timeout may still abort. `PollsWait` says when that does not happen. Nor may a vote or a poll
behind the decision miss its record (`CommitRead`).
-/

namespace DistributedSystem.Transaction

open DistributedSystem.Library

namespace System

/-- The manager is running after the step. -/
def StaysUp (cfg : Config) (s : System) (a : SystemAct) : Prop := (next cfg s a).manager.mem.up = true

/-- A poll about `t` is handled after its `BEGIN`, and while `t` has a slot, some
    participant other than the one that polls has not voted. -/
def PollsWait (t : Tid) (s : System) (a : Act Manager.Input) : Prop :=
  match a.input with
  | .message _ m _ => m.tid = t → m.msgID = .pollDecision → s.manager.Begun t ∧
      ∀ i, (s.manager.workerInfo i).tid = t →
        Manager.OthersUnvoted s.manager.workerInfo i m.nodeId
  | _ => True

/-- A vote or a poll about `t` that finds no slot finds a logged commit on the page. -/
def CommitRead (t : Tid) (s : System) (a : Act Manager.Input) : Prop :=
  match a.input with
  | .message _ m _ => m.tid = t → m.msgID = .pollDecision ∨ m.msgID = .voteCommit →
      s.manager.Holds t ∨ s.manager.CommitSeen t
  | _ => True

instance (cfg : Config) (s : System) (a : SystemAct) : Decidable (StaysUp cfg s a) := by
  unfold StaysUp; infer_instance

instance (t : Tid) (s : System) : ∀ a, Decidable (PollsWait t s a)
  | ⟨.message _ _ _, _⟩ => inferInstanceAs (Decidable (_ → _ → _ ∧ _))
  | ⟨.timeout, _⟩ | ⟨.restart, _⟩ => isTrue trivial

instance (t : Tid) (s : System) : ∀ a, Decidable (CommitRead t s a)
  | ⟨.message _ _ _, _⟩ => inferInstanceAs (Decidable (_ → _ → _ ∨ _))
  | ⟨.timeout, _⟩ | ⟨.restart, _⟩ => isTrue trivial

/-! ## The joint invariant -/

/-- What the manager's table and log, the net and the workers' logs say about `t`. -/
structure AgreementInv (t : Tid) (s : System) : Prop where
  decision : Manager.DecisionInv False False t (s.manager, told s.net)
  up : s.manager.mem.up = true
  /-- a decision of either kind has taken the slot -/
  closed : Manager.Aborted False t (s.manager, told s.net) ∨ Logged .decideCommit t s.manager.log →
    ¬ s.manager.Holds t
  entries : ∀ i j, ((s.manager.workerInfo i).workers j).port ≠ 0 →
    ((s.manager.workerInfo i).workers j).nodeId ≠ 0
  joins : ∀ src m, .toManager src m ∈ s.net → m.msgID = .jointx → m.nodeId ≠ 0
  nodeIds : ∀ n, (s.workers n).nodeId = n
  /-- who has been asked to prepare is a participant for as long as there is a slot -/
  prepared : Sent .prepareCommit t (told s.net) → s.manager.Begun t ∧
    ∀ i, (s.manager.workerInfo i).tid = t → ∃ j, ((s.manager.workerInfo i).workers j).nodeId ≠ 0
  voted : ∀ src m, .toManager src m ∈ s.net → m.tid = t →
    m.msgID = .voteCommit ∨ m.msgID = .voteAbort → Sent .prepareCommit t (told s.net)
  /-- a worker records only decisions that were sent -/
  heard : ∀ n d, d = .decideCommit ∨ d = .decideAbort → Logged d t (s.workers n).log →
    Sent d t (told s.net)

variable {cfg : Config} {t : Tid} {s : System}

theorem agreementInv_start (ht : t ≠ 0) (cfg : Config) : AgreementInv t (start cfg) := by
  -- no slot holds `t`, nothing has been sent, and the logs are empty
  have hno : ¬ (start cfg).manager.Holds t := by
    rintro ⟨_, hi⟩
    exact ht hi.symm
  have hns : ∀ d, ¬ Sent d t (told (start cfg).net) := by
    intro d
    simp [Sent, start, told]
  have hna : ¬ Manager.Aborted False t ((start cfg).manager, told (start cfg).net) := by
    simp [Manager.Aborted, Sent, start, told]
  have hnl : ∀ d, ¬ Logged d t (start cfg).manager.log := by
    intro d
    simp [Logged, start, Manager.start]
  exact
    { decision :=
        { committed := fun hs => absurd hs (hns _)
          exclusive := fun _ => hna
          aborted := fun ha => absurd ha hna
          begun := fun hb => hb.elim (absurd · hno) fun hb => hb.elim (absurd · hna) (absurd · (hnl _))
          unique := fun i j hi => absurd ⟨i, hi⟩ hno
          votes := fun _ _ => Or.inl rfl }
      up := rfl
      closed := fun _ => hno
      entries := fun _ _ hp => absurd rfl hp
      joins := fun _ _ hm => absurd hm (by simp [start])
      nodeIds := fun _ => rfl
      prepared := fun hs => absurd hs (hns _)
      voted := fun _ _ hm => absurd hm (by simp [start])
      heard := fun _ _ _ hr => absurd hr (by simp [Logged, start, Worker.start]) }

/-- A worker's step, crashed or not, changes neither the manager nor what it has told. -/
theorem AgreementInv.workerStep (h : AgreementInv t s) {n : NodeId} {st : WorkerStimulus}
    {cut : Option ℕ} {input : Worker.Input} (hn : n ≠ 0)
    (hin : workerInput cfg n s.net st = some input) :
    AgreementInv t (workerStep cfg s n ⟨input, cut⟩) := by
  have htold : told (System.workerStep cfg s n ⟨input, cut⟩).net = told s.net := by
    simp [System.workerStep]
  have hsent : ∀ src m, .toManager src m ∈ (System.workerStep cfg s n ⟨input, cut⟩).net →
      .toManager src m ∈ s.net ∨ (s.workers n).SendsFor input m := by
    intro src m hm
    rcases List.mem_append.mp hm with hm | hm
    · exact Or.inl hm
    · obtain ⟨-, dst, hsend⟩ := toManager_mem_workerPacket hm
      exact Or.inr (Worker.accounted_performed hsend)
  refine
    { decision := htold.symm ▸ h.decision
      up := h.up
      closed := htold.symm ▸ h.closed
      entries := h.entries
      joins := ?_
      nodeIds := ?_
      prepared := htold.symm ▸ h.prepared
      voted := ?_
      heard := ?_ }
  · intro src m hm hk
    rcases hsent src m hm with hm | ⟨hid, -⟩ | ⟨_, _, -, -, -, -, hvote, -⟩
    · exact h.joins src m hm hk
    · rw [hid, h.nodeIds]
      exact hn
    · -- a vote is no join
      rw [hk, Worker.voteFor] at hvote
      split at hvote <;> simp at hvote
  · intro n'
    by_cases hne : n' = n
    · subst hne
      simp only [System.workerStep, Function.update_self]
      exact (Worker.nodeId_exec _ _).trans (h.nodeIds n')
    · simpa [System.workerStep, Function.update_of_ne hne] using h.nodeIds n'
  · intro src m hm htid hk
    rw [htold]
    rcases hsent src m hm with hm | ⟨-, hnc, hna⟩ | ⟨src', p, rfl, hp, htp, -, -⟩
    · exact h.voted src m hm htid hk
    · exact (hk.elim hnc hna).elim
    · exact ⟨p, mem_told.mpr ⟨_, mem_net_of_workerInput hin⟩, hp, htp.symm.trans htid⟩
  · intro n' d hd hrec
    rw [htold]
    by_cases hne : n' = n
    · subst hne
      simp only [System.workerStep, Function.update_self] at hrec
      obtain ⟨r, hr, hrd, hrt⟩ := hrec
      rcases Worker.mem_log_exec hr with hr | hr
      · exact h.heard n' d hd ⟨r, hr, hrd, hrt⟩
      · obtain ⟨htid, ⟨hnc, hna⟩ | ⟨src, m, hinput, hk⟩, -⟩ := Worker.accounted_performed hr
        · exact (hd.elim (fun hd => hnc (hrd.trans hd)) fun hd => hna (hrd.trans hd)).elim
        · cases hinput
          exact ⟨m, mem_told.mpr ⟨_, mem_net_of_workerInput hin⟩, hk.trans hrd, htid.symm.trans hrt⟩
    · refine h.heard n' d hd ?_
      simpa [System.workerStep, Function.update_of_ne hne] using hrec

/-! ## Steps of the manager -/

/-- The recorder follows the manager in the system. -/
theorem recorder_exec_told (x : Manager) (net : List Packet) (es : List ManagerEffect) :
    Manager.recorder.exec (x, told net) es =
      (Manager.process.exec x es, told (net ++ es.filterMap managerPacket)) := by
  induction es generalizing x net with
  | nil => simp [told]
  | cons e es ih =>
      have hone : Manager.noteSent (told net) e = told (net ++ [e].filterMap managerPacket) := by
        cases e <;> simp [Manager.noteSent, managerPacket, told]
      rw [Process.exec_cons, Manager.recorder_apply, hone, ih]
      rw [List.append_assoc, ← List.filterMap_append]
      rfl

/-- A manager that is up after a step has handled its input completely. -/
theorem cut_eq_none {input : Manager.Input} {cut : Option ℕ}
    (hup : (s.managerStep ⟨input, cut⟩).manager.mem.up = true) : cut = none :=
  Manager.cut_eq_none (a := ⟨input, cut⟩) hup

/-- The invariant excludes the inputs that would contradict a decision. -/
theorem AgreementInv.permits (h : AgreementInv t s) {st : ManagerStimulus} {cut : Option ℕ}
    {input : Manager.Input} (hin : managerInput s.net st = some input)
    (hacc : s.manager.accepts input) (honce : Manager.BegunOnce t s.manager ⟨input, cut⟩)
    (hpoll : PollsWait t s ⟨input, cut⟩) (hread : CommitRead t s ⟨input, cut⟩) :
    Manager.Permits False False t s.manager input := by
  cases input with
  | restart => exact absurd (hacc.symm.trans h.up) (by simp)
  | timeout =>
      intro hwait hc
      exact h.closed (Or.inr hc) (Manager.holds_of_waitingForVotes hwait)
  | message src m u =>
      intro hm
      have hnet := mem_net_of_managerInput hin
      refine ⟨honce hm, fun hk => ?_, fun hk => ?_⟩
      · rcases hk with hk | hk
        · -- a poll is allowed by the condition
          obtain ⟨hb, hothers⟩ := hpoll hm hk
          refine ⟨hb, hread hm (Or.inl hk), fun i hi => ?_⟩
          obtain ⟨j, hj, -, -⟩ := hothers i hi
          exact ⟨⟨j, hj⟩, fun _ => Or.inr (hothers i hi)⟩
        · -- a vote answers a PREPARE_COMMIT
          obtain ⟨hb, hsome⟩ := h.prepared (h.voted src m hnet hm (Or.inl hk))
          refine ⟨hb, hread hm (Or.inr hk), fun i hi => ⟨hsome i hi, fun hp => ?_⟩⟩
          exact hp.elim (fun hp => absurd (hk.symm.trans hp) (by simp)) False.elim
      · obtain ⟨hb, -⟩ := h.prepared (h.voted src m hnet hm (Or.inr hk))
        refine ⟨hb, ?_⟩
        by_cases hc : Logged .decideCommit t s.manager.log
        · exact Or.inr ⟨id, h.closed (Or.inr hc)⟩
        · exact Or.inl hc

/-- The manager handles an input. -/
theorem AgreementInv.managerStep (ht : t ≠ 0) (h : AgreementInv t s) {st : ManagerStimulus}
    {cut : Option ℕ} {input : Manager.Input} (hin : managerInput s.net st = some input)
    (hacc : s.manager.accepts input) (hup : (s.managerStep ⟨input, cut⟩).manager.mem.up = true)
    (honce : Manager.BegunOnce t s.manager ⟨input, cut⟩) (hpoll : PollsWait t s ⟨input, cut⟩)
    (hread : CommitRead t s ⟨input, cut⟩) : AgreementInv t (s.managerStep ⟨input, cut⟩) := by
  obtain rfl := cut_eq_none hup
  have hconcludes := Manager.handle_concludes ht h.decision
    (fun _ ha hs => h.closed (Or.inl ha) hs) (h.permits hin hacc honce hpoll hread)
  have hexec := recorder_exec_told s.manager s.net (s.manager.handle input)
  obtain ⟨hthroughout, hend⟩ := hconcludes
  have hdecision := hthroughout.last
  rw [hexec] at hdecision hend
  have hslot := Manager.slotStep_handle s.manager input
  have hnew : ∀ src m, .toManager src m ∈ (System.managerStep s ⟨input, none⟩).net →
      .toManager src m ∈ s.net := by
    intro src m hm
    exact (List.mem_append.mp hm).resolve_right toManager_notMem_managerPacket
  have htold : told (System.managerStep s ⟨input, none⟩).net =
      told s.net ++ told ((s.manager.handle input).filterMap managerPacket) := told_append _ _
  have hjoined : ∀ {src m u}, input = .message src m u → m.msgID = .jointx → m.nodeId ≠ 0 := by
    rintro src m u rfl hk
    exact h.joins src m (mem_net_of_managerInput hin) hk
  -- a participant stays one for as long as its slot is not cleared
  have hstays : ∀ i j, ((System.managerStep s ⟨input, none⟩).manager.workerInfo i).tid ≠ 0 →
      ((s.manager.workerInfo i).workers j).nodeId ≠ 0 →
      (((System.managerStep s ⟨input, none⟩).manager.workerInfo i).workers j).nodeId ≠ 0 := by
    intro i j htid hj
    cases hslot i with
    | cleared hc => exact absurd hc.1 htid
    | begun _ hw => exact (congrFun hw j).symm ▸ hj
    | kept _ hw =>
        rcases hw j with hsame | ⟨src, m, u, hinput, hk, -, -, hw⟩ | ⟨src, m, u, -, -, -, -, hw⟩
        · exact hsame.symm ▸ hj
        · exact hw.symm ▸ hjoined hinput hk
        · exact hw.symm ▸ hj
  refine
    { decision := hdecision
      up := hup
      closed := fun hc hs => ?_
      entries := fun i j hp => ?_
      joins := fun src m hm => h.joins src m (hnew src m hm)
      nodeIds := h.nodeIds
      prepared := fun hp => ?_
      voted := fun src m hm htid hk => ?_
      heard := fun n d hd hrec => ?_ }
  · rcases hend with hno | ⟨hab, hco, hslots⟩
    · exact hno hs
    · have hbefore := hc.imp (fun ha => (hab ha).resolve_right id) hco
      rcases hslots with hs' | ⟨hna, hnc⟩
      · exact h.closed hbefore hs'
      · exact hbefore.elim hna hnc
  · cases hslot i with
    | cleared hc => exact absurd (hc.2 j).2.1 hp
    | begun _ hw =>
        have hw := congrFun hw j
        exact hw.symm ▸ h.entries i j (hw ▸ hp)
    | kept _ hw =>
        rcases hw j with hsame | ⟨src, m, u, hinput, hk, -, -, hw⟩ | ⟨src, m, u, -, -, -, -, hw⟩
        · exact hsame.symm ▸ h.entries i j (hsame ▸ hp)
        · exact hw.symm ▸ hjoined hinput hk
        · have hp' := hw ▸ hp
          exact hw.symm ▸ h.entries i j hp'
  · -- who was asked before, or is asked now, is a participant
    have hbefore : s.manager.Begun t ∧ ∀ i, (s.manager.workerInfo i).tid = t →
        ∃ j, ((s.manager.workerInfo i).workers j).nodeId ≠ 0 := by
      obtain ⟨p, hp, hk, htid⟩ := hp
      rw [htold, List.mem_append] at hp
      rcases hp with hp | hp
      · exact h.prepared ⟨p, hp, hk, htid⟩
      · obtain ⟨dst, hp⟩ := mem_told.mp hp
        obtain ⟨src, m, u, -, -, hpt, w, hw, -, -⟩ :=
          Manager.prepare_mem_handle (toWorker_mem_managerPacket hp) hk
        obtain ⟨i₀, hi₀, hport, j, rfl⟩ := Manager.mem_targets.mp hw
        have hit : (s.manager.workerInfo i₀).tid = t := hi₀.trans (hpt.symm.trans htid)
        refine ⟨h.decision.begun (Or.inl ⟨i₀, hit⟩), fun i hi => ?_⟩
        obtain rfl := h.decision.unique i i₀ hi hit
        exact ⟨j, h.entries i j hport⟩
    refine ⟨hbefore.1.exec _, fun i hi => ?_⟩
    have hi0 : ((System.managerStep s ⟨input, none⟩).manager.workerInfo i).tid ≠ 0 :=
      fun h0 => ht (hi.symm.trans h0)
    cases hslot i with
    | cleared hc => exact absurd hc.1 hi0
    | begun hb _ =>
        obtain ⟨src, m, u, rfl, hk, hm, -⟩ := hb
        exact absurd hbefore.1 (honce (hm.trans hi) hk)
    | kept htid _ =>
        obtain ⟨j, hj⟩ := hbefore.2 i (htid.symm.trans hi)
        exact ⟨j, hstays i j hi0 hj⟩
  · rw [htold]
    exact (h.voted src m (hnew src m hm) htid hk).append _
  · rw [htold]
    exact (h.heard n d hd hrec).append _

/-! ## The runs -/

theorem agreementInv_step (ht : t ≠ 0) {a : SystemAct} (h : AgreementInv t s)
    (hrun : enabled cfg s a) (hup : StaysUp cfg s a)
    (honce : OnManager (fun s => Manager.BegunOnce t s.manager) s a)
    (hpoll : OnManager (PollsWait t) s a) (hread : OnManager (CommitRead t) s a) :
    AgreementInv t (next cfg s a) := by
  cases a with
  | manager a =>
      obtain ⟨input, hin, hacc⟩ := hrun
      rw [StaysUp, next_manager hin] at hup
      rw [next_manager hin]
      exact h.managerStep ht hin hacc hup (honce input hin) (hpoll input hin)
        (hread input hin)
  | worker n a =>
      obtain ⟨hn, input, hin, -⟩ := hrun
      rw [next_worker hin]
      exact h.workerStep hn hin

/-- **Agreement**: with a manager that stays up and polls that leave the decision open, no
    two workers record opposite decisions on a transaction that is begun once. -/
theorem agreement (cfg : Config) (t : Tid) (as : List SystemAct) (ht : t ≠ 0)
    (hrun : (machine cfg).Along (enabled cfg) (start cfg) as)
    (hup : (machine cfg).Along (StaysUp cfg) (start cfg) as)
    (honce : (machine cfg).Along (OnManager fun s => Manager.BegunOnce t s.manager) (start cfg) as)
    (hpoll : (machine cfg).Along (OnManager (PollsWait t)) (start cfg) as)
    (hread : (machine cfg).Along (OnManager (CommitRead t)) (start cfg) as) (n n' : NodeId) :
    ¬ (Logged .decideCommit t (((machine cfg).after (start cfg) as).workers n).log ∧
      Logged .decideAbort t (((machine cfg).after (start cfg) as).workers n').log) := by
  have hall := Machine.along_and.mpr ⟨hrun, Machine.along_and.mpr ⟨hup,
    Machine.along_and.mpr ⟨honce, Machine.along_and.mpr ⟨hpoll, hread⟩⟩⟩⟩
  have hend := hall.invariant (agreementInv_start ht cfg) fun s a hs hC =>
    agreementInv_step ht hs hC.1 hC.2.1 hC.2.2.1 hC.2.2.2.1 hC.2.2.2.2
  rintro ⟨hcommit, habort⟩
  have hsentCommit := hend.heard n _ (Or.inl rfl) hcommit
  have hsentAbort := hend.heard n' _ (Or.inr rfl) habort
  exact hend.decision.exclusive (hend.decision.committed hsentCommit) (Or.inl hsentAbort)

/-- Workers 40 and 50 join transaction 1 and vote to commit it; their votes are the
    datagrams 9 and 10. -/
def votingRun : List SystemAct :=
  [command 40 .begintx, toManager 0, command 40 .jointx, toManager 2, command 50 .jointx, toManager 4,
    toWorker 40 3, toWorker 50 5, command 40 .commit, toManager 6, toWorker 40 7, toWorker 50 8]

/-- Worker 50 polls before any vote has arrived, then both votes do. -/
theorem agreement_after_poll :
    ¬ (Logged .decideCommit 1 (((machine smallConfig).after (start smallConfig)
        (votingRun ++ [.worker 50 ⟨.pollTimeout, none⟩, toManager 11, toManager 9, toManager 10,
          toWorker 40 12, toWorker 50 13])).workers 40).log ∧
      Logged .decideAbort 1 (((machine smallConfig).after (start smallConfig)
        (votingRun ++ [.worker 50 ⟨.pollTimeout, none⟩, toManager 11, toManager 9, toManager 10,
          toWorker 40 12, toWorker 50 13])).workers 50).log) :=
  agreement smallConfig 1 _ (by decide) (by decide +kernel) (by decide +kernel) (by decide +kernel)
    (by decide +kernel) (by decide +kernel) 40 50

/-- The vote of worker 50 is lost, its poll is answered, and the manager times out. -/
def lostVoteRun : List SystemAct :=
  votingRun ++ [toManager 9, .worker 50 ⟨.pollTimeout, none⟩, toManager 11, toWorker 50 12,
    .manager ⟨.timeout, none⟩, toWorker 40 13]

/-- Worker 50 has committed and worker 40 has aborted. -/
theorem disagreement :
    (machine smallConfig).Along (enabled smallConfig) (start smallConfig) lostVoteRun ∧
      (machine smallConfig).Along (StaysUp smallConfig) (start smallConfig) lostVoteRun ∧
      (machine smallConfig).Along (OnManager fun s => Manager.BegunOnce 1 s.manager) (start smallConfig) lostVoteRun ∧
      Logged .decideCommit 1
        (((machine smallConfig).after (start smallConfig) lostVoteRun).workers 50).log ∧
      Logged .decideAbort 1
        (((machine smallConfig).after (start smallConfig) lostVoteRun).workers 40).log := by
  decide +kernel

end System

end DistributedSystem.Transaction
