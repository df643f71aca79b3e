import DistributedSystem.Transaction.Addressing
import DistributedSystem.Transaction.Decision

/-!
# Are commits backed by votes?

`collectVote` records the kind of whatever message it is given as the vote of its
sender, polls included, and a restarted worker polls about transactions it has aborted.
The conditions below say when that, a transaction begun into a second slot, a vote that
misses an abort, and an abort behind a vote do not occur; then every commit is backed by a
`VOTE_COMMIT` of every worker in the slot, and none of them has locally aborted.
-/

namespace DistributedSystem.Transaction

open DistributedSystem.Library

namespace System

/-- The datagram is the `VOTE_COMMIT` of worker `n` for `t`. -/
def IsVoteOf (cfg : Config) (t : Tid) (n : NodeId) : Packet → Prop
  | .toManager src m => src = cfg.workerAddr n ∧ m.msgID = .voteCommit ∧ m.tid = t ∧ m.nodeId = n
  | .toWorker _ _ => False

/-- Worker `n` has sent `VOTE_COMMIT` for `t`. -/
def HasVoted (cfg : Config) (net : List Packet) (t : Tid) (n : NodeId) : Prop :=
  ∃ p ∈ net, IsVoteOf cfg t n p

instance (cfg : Config) (t : Tid) (n : NodeId) : ∀ p, Decidable (IsVoteOf cfg t n p)
  | .toManager _ _ => inferInstanceAs (Decidable (_ ∧ _))
  | .toWorker _ _ => isFalse id

instance (cfg : Config) (net : List Packet) (t : Tid) (n : NodeId) :
    Decidable (HasVoted cfg net t n) := by
  unfold HasVoted; infer_instance

theorem HasVoted.append {cfg : Config} {net : List Packet} {t : Tid} {n : NodeId}
    (h : HasVoted cfg net t n) (net' : List Packet) : HasVoted cfg (net ++ net') t n := by
  obtain ⟨p, hp, hv⟩ := h
  exact ⟨p, List.mem_append_left _ hp, hv⟩

/-! ## The law and its conditions -/

/-- The workers whose `VOTE_COMMIT` for `t` is on the net. -/
def voters (net : List Packet) (t : Tid) : List NodeId :=
  net.filterMap fun
    | .toManager _ m => if m.msgID = .voteCommit ∧ m.tid = t then some m.nodeId else none
    | .toWorker _ _ => none

/-- The law for a step of the manager: a commit is backed by a vote of every worker in the
    slot, none of which has locally aborted, or repeats a logged one when there is no slot; and
    an entry without a vote gets one from a `VOTE_COMMIT` only. -/
def ValidDecision (cfg : Config) (s : System) (a : Act Manager.Input) : Prop :=
  (∀ t, (∃ e ∈ Manager.process.performed s.manager a, e.Commits t) →
    (∀ i, (s.manager.workerInfo i).tid = t → ∀ j, ((s.manager.workerInfo i).workers j).nodeId ≠ 0 →
      HasVoted cfg s.net t ((s.manager.workerInfo i).workers j).nodeId ∧
        ¬ Logged .abort t (s.workers ((s.manager.workerInfo i).workers j).nodeId).log) ∧
    (s.manager.Holds t ∨ Logged .decideCommit t s.manager.log)) ∧
  ∀ i j, ((s.manager.workerInfo i).workers j).voteYes = none →
    (((s.managerStep a).manager.workerInfo i).workers j).voteYes ≠ none →
      ∃ src m u, a.input = .message src m u ∧ m.msgID = .voteCommit

/-- The law for a step of a worker: one that has locally aborted does not vote to commit. -/
def ValidVote (s : System) (n : NodeId) (a : Act Worker.Input) : Prop :=
  ∀ dst m, .send dst m ∈ Worker.process.performed (s.workers n) a → m.msgID = .voteCommit →
    ¬ Logged .abort m.tid (s.workers n).log

/-- The manager does not die while it handles an input. -/
def Whole (_ : System) (a : Act Manager.Input) : Prop := a.cut = none ∨ a.cut = some 0

/-- A poll of a participant comes after its vote has been recorded, no `JOIN` carries tid
    0, and no `BEGIN` arrives for a transaction whose slot lies behind an empty one. -/
def CountsVotes (s : System) (a : Act Manager.Input) : Prop :=
  (match a.input with
    | .message _ m _ =>
        (m.msgID = .pollDecision → ∀ i, (s.manager.workerInfo i).tid = m.tid → ∀ j,
          Manager.ownEntry s.manager.workerInfo i m.nodeId = some j →
          ((s.manager.workerInfo i).workers j).voteYes ≠ none) ∧
        (m.msgID = .jointx → m.tid ≠ 0)
    | _ => True) ∧ s.manager.NoGapBegin a

/-- A `BEGIN` arrives for a transaction that no worker has both voted to commit and aborted. -/
def BeginsUnvoted (s : System) (a : Act Manager.Input) : Prop :=
  match a.input with
  | .message _ m _ => m.msgID = .begintx → ∀ n ∈ voters s.net m.tid, ¬ Logged .abort m.tid (s.workers n).log
  | _ => True

/-- A worker that votes on a transaction it has aborted finds an abort on the page, or has been
    told to vote against. -/
def SeesAbort (s : System) (n : NodeId) (a : Act Worker.Input) : Prop :=
  match a.input with
  | .manager _ m => (s.workers n).Votes a.input → Logged .abort m.tid (s.workers n).log →
      isLocalAbort (s.workers n).log (s.workers n).mem.curTid = true ∨
        (s.workers n).mem.vote = some .voteAbort
  | _ => True

/-- A worker that has voted to commit does not abort by itself while the transaction has a slot,
    by an `ABORT` command or a restart, or it crashes before it writes a record about that. -/
def StandsByVote (s : System) (n : NodeId) (a : Act Worker.Input) : Prop :=
  let t := (s.workers n).recordTid a.input
  (s.workers n).AbortsAlone a.input → t ≠ 0 → s.manager.Holds t → n ∈ voters s.net t →
    (Worker.process.performed (s.workers n) a).filterMap WorkerEffect.record = []

instance (s : System) (a : Act Manager.Input) : Decidable (Whole s a) := by
  unfold Whole; infer_instance

instance (s : System) : ∀ a, Decidable (CountsVotes s a)
  | ⟨.message _ _ _, _⟩ => inferInstanceAs (Decidable ((_ ∧ _) ∧ _))
  | ⟨.timeout, _⟩ | ⟨.restart, _⟩ => inferInstanceAs (Decidable (True ∧ _))

instance (s : System) : ∀ a, Decidable (BeginsUnvoted s a)
  | ⟨.message _ _ _, _⟩ => inferInstanceAs (Decidable (_ → ∀ _ ∈ _, _))
  | ⟨.timeout, _⟩ | ⟨.restart, _⟩ => isTrue trivial

instance (s : System) (n : NodeId) : ∀ a, Decidable (SeesAbort s n a)
  | ⟨.manager _ _, _⟩ => inferInstanceAs (Decidable (_ → _ → _ ∨ _))
  | ⟨.cmd _ _, _⟩ | ⟨.pollTimeout, _⟩ | ⟨.restart, _⟩ => isTrue trivial

instance (s : System) (n : NodeId) (a : Act Worker.Input) : Decidable (StandsByVote s n a) :=
  inferInstanceAs (Decidable (_ → _ → _ → _ → _))

/-! ## The invariant -/

/-- What the table and the net say about votes. -/
structure VoteInv (cfg : Config) (s : System) : Prop where
  unique : s.manager.TableUnique
  entries : ∀ i j, EntryOf cfg ((s.manager.workerInfo i).workers j)
  emptySlots : ∀ i, (s.manager.workerInfo i).tid = 0 →
    ∀ j, W.Empty ((s.manager.workerInfo i).workers j)
  votes : ∀ i j, ((s.manager.workerInfo i).workers j).voteYes ≠ none →
    HasVoted cfg s.net (s.manager.workerInfo i).tid ((s.manager.workerInfo i).workers j).nodeId
  senders : ∀ src m, .toManager src m ∈ s.net → m.nodeId ≠ 0 ∧ src = cfg.workerAddr m.nodeId
  prepares : ∀ dst m, .toWorker dst m ∈ s.net → m.msgID = .prepareCommit →
    m.nodeId ≠ 0 ∧ dst = cfg.workerAddr m.nodeId
  nodeIds : ∀ n, (s.workers n).nodeId = n
  /-- nobody has voted to commit what has a slot and aborted it -/
  uncontested : ∀ t, t ≠ 0 → s.manager.Holds t → ∀ n, HasVoted cfg s.net t n →
    ¬ Logged .abort t (s.workers n).log

variable {cfg : Config} {s : System}

theorem mem_voters {net : List Packet} {t : Tid} {n : NodeId} :
    n ∈ voters net t ↔ ∃ src m, .toManager src m ∈ net ∧ m.msgID = .voteCommit ∧ m.tid = t ∧ m.nodeId = n := by
  simp only [voters, List.mem_filterMap]
  constructor
  · rintro ⟨p, hp, hn⟩
    cases p with
    | toWorker dst m => simp at hn
    | toManager src m =>
        simp only [Option.ite_none_right_eq_some, Option.some.injEq] at hn
        exact ⟨src, m, hp, hn.1.1, hn.1.2, hn.2⟩
  · rintro ⟨src, m, hp, hk, htid, rfl⟩
    exact ⟨_, hp, by simp [hk, htid]⟩

theorem HasVoted.mem_voters {t : Tid} {n : NodeId} (h : HasVoted cfg s.net t n) : n ∈ voters s.net t := by
  obtain ⟨p, hp, hv⟩ := h
  cases p with
  | toWorker dst m => exact hv.elim
  | toManager src m => exact System.mem_voters.mpr ⟨src, m, hp, hv.2⟩

theorem VoteInv.addressed (h : VoteInv cfg s) : Addressed cfg s :=
  ⟨h.entries, h.senders, h.prepares, h.nodeIds⟩

theorem voteInv_start (cfg : Config) : VoteInv cfg (start cfg) where
  unique := Manager.tableUnique_start _
  entries _ _ := Or.inl ⟨rfl, rfl, rfl⟩
  emptySlots _ _ _ := ⟨rfl, rfl, rfl⟩
  votes _ _ h := absurd rfl h
  senders _ _ h := absurd h (by simp [start])
  prepares _ _ h := absurd h (by simp [start])
  nodeIds _ := rfl
  uncontested _ _ _ _ hv := absurd hv (by simp [HasVoted, start])

/-- A vote to commit comes from a worker that has not aborted. -/
theorem validVote {n : NodeId} {a : Act Worker.Input} (hacc : (s.workers n).accepts a.input)
    (hsees : SeesAbort s n a) : ValidVote s n a := by
  intro dst m hsend hk habort
  rcases Worker.accounted_performed hsend with ⟨-, hnot, -⟩ |
    ⟨src, p, hinput, hp, htid, -, hvote, hcontrol⟩
  · exact hnot hk
  -- the vote is given in the command loop
  rw [hinput] at hacc
  have hloop : (s.workers n).mem.control = .cmdLoop := by
    cases hc : (s.workers n).mem.control with
    | cmdLoop => rfl
    | waiting a => exact absurd hc (hcontrol a)
    | down => exact absurd hc hacc
  simp only [SeesAbort, hinput] at hsees
  have hagainst := hsees ⟨hp, hloop⟩ (htid ▸ habort)
  rw [Worker.voteFor, isLocalAbort_prepare, if_pos hagainst] at hvote
  exact absurd (hk.symm.trans hvote) (by simp)

/-- A worker sends under its own node id and address, votes included. -/
theorem VoteInv.workerStep (h : VoteInv cfg s) {n : NodeId} {st : WorkerStimulus}
    {cut : Option ℕ} {input : Worker.Input} (hn : n ≠ 0)
    (hin : workerInput cfg n s.net st = some input) (hacc : (s.workers n).accepts input)
    (hsees : SeesAbort s n ⟨input, cut⟩) (hstands : StandsByVote s n ⟨input, cut⟩) :
    VoteInv cfg (workerStep cfg s n ⟨input, cut⟩) where
  unique := h.unique
  entries := h.entries
  emptySlots := h.emptySlots
  votes i j hv := (h.votes i j hv).append _
  senders := (h.addressed.workerStep hn hin).senders
  prepares := (h.addressed.workerStep hn hin).prepares
  nodeIds := (h.addressed.workerStep hn hin).nodeIds
  uncontested t ht hholds n' hvoted habort := by
    -- a vote that this step sends is the one of worker `n`
    have hnew : HasVoted cfg s.net t n' ∨ n' = n ∧ ∃ dst m,
        .send dst m ∈ Worker.process.performed (s.workers n) ⟨input, cut⟩ ∧ m.msgID = .voteCommit ∧
          m.tid = t := by
      obtain ⟨p, hp, hv⟩ := hvoted
      rcases List.mem_append.mp hp with hp | hp
      · exact Or.inl ⟨p, hp, hv⟩
      cases p with
      | toWorker dst m => exact hv.elim
      | toManager src m =>
          obtain ⟨rfl, dst, hsend⟩ := toManager_mem_workerPacket hp
          exact Or.inr ⟨(cfg.workerAddr_injective hv.1).symm, dst, m, hsend, hv.2.1, hv.2.2.1⟩
    by_cases hne : n' = n
    swap
    · -- the log of another worker stays as it is
      have hold := hnew.resolve_right fun hn => hne hn.1
      simp only [System.workerStep, Function.update_of_ne hne] at habort
      exact h.uncontested t ht hholds n' hold habort
    subst hne
    simp only [System.workerStep, Function.update_self] at habort
    rw [Process.step, Worker.log_exec] at habort
    obtain ⟨r, hr, hid, htid⟩ := habort
    rcases List.mem_append.mp hr with hr | hr
    · -- an old abort excludes the old votes and the new ones
      rcases hnew with hold | ⟨-, dst, m, hsend, hk, rfl⟩
      · exact h.uncontested t ht hholds n' hold ⟨r, hr, hid, htid⟩
      · exact validVote hacc hsees dst m hsend hk ⟨r, hr, hid, htid⟩
    · -- a new abort is one of the worker alone
      obtain ⟨e, he, hrec⟩ := List.mem_filterMap.mp hr
      have hlog : e = .log r := by cases e <;> simp_all [WorkerEffect.record]
      subst hlog
      obtain ⟨htid', -, hkind⟩ := Worker.accounted_performed he
      have halone := hkind hid
      rcases hnew with hold | ⟨-, dst, m, hsend, hk, rfl⟩
      · obtain rfl : r.tid = t := htid
        have hnone := hstands halone (htid' ▸ ht) (htid' ▸ hholds) (htid' ▸ hold.mem_voters)
        exact absurd (hnone ▸ hr) List.not_mem_nil
      · -- the step that votes handles a datagram
        rcases Worker.accounted_performed hsend with ⟨-, hnot, -⟩ | ⟨src, p, hinput, -⟩
        · exact hnot hk
        · rw [hinput] at halone
          exact halone

/-- The manager sends no votes. -/
theorem hasVoted_managerStep {a : Act Manager.Input} {t : Tid} {n : NodeId} :
    HasVoted cfg (s.managerStep a).net t n ↔ HasVoted cfg s.net t n := by
  refine ⟨fun ⟨p, hp, hv⟩ => ⟨p, ?_, hv⟩, fun h => h.append _⟩
  refine (List.mem_append.mp hp).resolve_right fun hp => ?_
  cases p with
  | toWorker dst m => exact hv.elim
  | toManager src m => exact toManager_notMem_managerPacket hp

/-- The manager dies before it handles anything. -/
theorem VoteInv.crash (h : VoteInv cfg s) (input : Manager.Input) :
    VoteInv cfg (s.managerStep ⟨input, some 0⟩) where
  unique := h.unique
  entries := h.entries
  emptySlots := h.emptySlots
  votes i j hv := (h.votes i j hv).append _
  senders := (h.addressed.crash input).senders
  prepares := (h.addressed.crash input).prepares
  nodeIds := h.nodeIds
  uncontested t ht hholds n hvoted := h.uncontested t ht hholds n (hasVoted_managerStep.mp hvoted)

/-- The manager handles an input to its end. -/
theorem VoteInv.managerStep (h : VoteInv cfg s) {st : ManagerStimulus} {input : Manager.Input}
    (hin : managerInput s.net st = some input) (hcounts : CountsVotes s ⟨input, none⟩)
    (hbegins : BeginsUnvoted s ⟨input, none⟩) : VoteInv cfg (s.managerStep ⟨input, none⟩) := by
  have hslot : ∀ k, Manager.SlotStep s.manager input k (System.managerStep s ⟨input, none⟩).manager :=
    Manager.slotStep_handle s.manager input
  have hsender : ∀ {src m u}, input = .message src m u →
      .toManager src m ∈ s.net ∧ m.nodeId ≠ 0 ∧ src = cfg.workerAddr m.nodeId := by
    rintro src m u rfl
    have hnet := mem_net_of_managerInput hin
    exact ⟨hnet, h.senders src m hnet⟩
  refine
    { unique := Manager.tableUnique_step h.unique hcounts.2
      entries := (h.addressed.managerStep hin).entries
      emptySlots := fun i hi j => ?_
      votes := fun i j hv => ?_
      senders := (h.addressed.managerStep hin).senders
      prepares := (h.addressed.managerStep hin).prepares
      nodeIds := h.nodeIds
      uncontested := fun t ht hholds n hvoted habort => ?_ }
  · cases hslot i with
    | cleared hc => exact hc.2 j
    | begun hb _ => exact absurd hi hb.empty.2
    | kept htid hw =>
        have hempty := h.emptySlots i (htid.symm.trans hi)
        rcases hw j with hsame | ⟨src, m, u, rfl, hk, -, hslots, -⟩ | ⟨src, m, u, hinput, -, -, hown, -⟩
        · exact hsame.symm ▸ hempty j
        · rcases hslots with hslots | hfull
          · exact absurd (hslots.symm.trans (htid.symm.trans hi)) (hcounts.1.2 hk)
          · exact absurd (htid.symm.trans hi) (hfull i)
        · have hown := Manager.nodeId_of_ownEntry hown
          exact absurd (hown.symm.trans (hempty j).1) (hsender hinput).2.1
  · refine HasVoted.append ?_ _
    cases hslot i with
    | cleared hc => exact absurd (hc.2 j).2.2 hv
    | begun hb hw =>
        rw [congrFun hw j] at hv
        exact absurd (h.emptySlots i hb.empty.1 j).2.2 hv
    | kept htid hw =>
        rw [htid]
        rcases hw j with hsame | ⟨src, m, u, -, -, hport, -, hw⟩ | ⟨src, m, u, rfl, hk, hfind, hown, hw⟩
        · rw [hsame] at hv ⊢
          exact h.votes i j hv
        · -- a free entry has no vote
          rw [hw] at hv
          rcases h.entries i j with hempty | hfull
          · exact absurd hempty.2.2 hv
          · exact absurd hport hfull.1
        · obtain ⟨hnet, -, hsrc⟩ := hsender rfl
          have hid := Manager.nodeId_of_ownEntry hown
          have hmtid := (Manager.findSlot_eq_some.mp hfind).1
          rw [hw]
          rcases hk with hk | hk
          · exact h.votes i j (hcounts.1.1 hk i hmtid j hown)
          · exact ⟨_, hnet, hid.symm ▸ hsrc, hk, hmtid.symm, hid.symm⟩
  · have hbefore : HasVoted cfg s.net t n := hasVoted_managerStep.mp hvoted
    obtain ⟨i, hi⟩ := hholds
    cases hslot i with
    | cleared hc => exact ht (hi.symm.trans hc.1)
    | begun hb _ =>
        obtain ⟨src, m, u, rfl, hk, hm, -⟩ := hb
        have htid : m.tid = t := hm.trans hi
        subst htid
        exact hbegins hk n hbefore.mem_voters habort
    | kept htid _ => exact h.uncontested t ht ⟨i, htid.symm.trans hi⟩ n hbefore habort

/-! ## The law -/

/-- A commit of a whole step is backed by votes. -/
theorem VoteInv.validDecision (h : VoteInv cfg s) {st : ManagerStimulus} {input : Manager.Input}
    {cut : Option ℕ} (hin : managerInput s.net st = some input) (hwhole : Whole s ⟨input, cut⟩)
    (hcounts : CountsVotes s ⟨input, cut⟩) : ValidDecision cfg s ⟨input, cut⟩ := by
  rcases hwhole with hcut | hcut
  all_goals simp only at hcut; subst hcut
  swap
  · -- a manager that dies at once decides nothing
    refine ⟨?_, fun i j hnone hsome => absurd hnone hsome⟩
    rintro t ⟨e, he, hc⟩
    simp only [Process.performed, List.take_zero, List.nil_append, List.mem_singleton] at he
    subst he
    exact hc.elim
  refine ⟨?_, fun i j hnone hsome => ?_⟩
  · rintro t ⟨e, he, hc⟩
    obtain ⟨src, m, u, rfl, hk, rfl, hdecision⟩ := Manager.commits_handle he hc
    have hnet := mem_net_of_managerInput hin
    have hsrc := h.senders src m hnet
    rw [Manager.decision_eq] at hdecision
    cases hfind : Manager.findSlot s.manager.workerInfo m.tid with
    | none =>
        have hno := Manager.findSlot_eq_none.mp hfind
        refine ⟨fun i hi => absurd hi (hno i), Or.inr ?_⟩
        have hlog : (Manager.process.exec s.manager (s.manager.crashFlag m)).log = s.manager.log := by
          refine Process.exec_unchanged Manager.log fun s' e he => ?_
          obtain ⟨i, b, rfl⟩ := Manager.mem_crashFlag he
          rfl
        simp only [hfind, hlog] at hdecision
        split at hdecision
        · exact logged_of_isCommit ‹_›
        · exact absurd hdecision (by simp)
    | some k =>
        have hkt := (Manager.findSlot_eq_some.mp hfind).1
        refine ⟨fun i hi j hid => ?_, Or.inl ⟨k, hkt⟩⟩
        by_cases h0 : m.tid = 0
        · exact absurd (h.emptySlots i (hi.trans h0) j).1 hid
        obtain rfl := h.unique i k (hi ▸ h0) (hi.trans hkt.symm)
        simp only [hfind] at hdecision
        have hback : HasVoted cfg s.net m.tid ((s.manager.workerInfo i).workers j).nodeId →
            HasVoted cfg s.net m.tid ((s.manager.workerInfo i).workers j).nodeId ∧
              ¬ Logged .abort m.tid (s.workers ((s.manager.workerInfo i).workers j).nodeId).log :=
          fun hv => ⟨hv, h.uncontested m.tid h0 ⟨i, hi⟩ _ hv⟩
        refine hback ?_
        have hvoted := Manager.voted_of_tally hdecision _ (List.mem_ofFn.mpr ⟨j, rfl⟩)
        rw [Manager.counted_workers hfind] at hvoted
        split at hvoted
        · -- the sender of the message, a vote or a poll after a recorded vote
          rename_i hown
          have hsender := Manager.nodeId_of_ownEntry hown
          rcases hk with hk | hk
          · exact hi ▸ h.votes i j (hcounts.1.1 hk i hi j hown)
          · exact ⟨_, hnet, hsender.symm ▸ hsrc.2, hk, rfl, hsender.symm⟩
        · exact hi ▸ h.votes i j (hvoted hid)
  · have hslot := Manager.slotStep_handle s.manager input i
    change (((Manager.process.exec s.manager (s.manager.handle input)).workerInfo i).workers j).voteYes
      ≠ none at hsome
    cases hslot with
    | cleared hc => exact absurd (hc.2 j).2.2 hsome
    | begun _ hw => exact absurd ((congrFun hw j).symm ▸ hnone) hsome
    | kept _ hw =>
        rcases hw j with hsame | ⟨src, m, u, -, -, -, -, hw⟩ | ⟨src, m, u, rfl, hk, hfind, hown, hw⟩
        · exact absurd (hsame ▸ hnone) hsome
        · exact absurd (hw ▸ hnone) hsome
        · rcases hk with hk | hk
          · have hmtid := (Manager.findSlot_eq_some.mp hfind).1
            exact absurd hnone (hcounts.1.1 hk i hmtid j hown)
          · exact ⟨src, m, u, rfl, hk⟩

theorem voteInv_step {a : SystemAct} (h : VoteInv cfg s) (hrun : enabled cfg s a)
    (hwhole : OnManager Whole s a) (hcounts : OnManager CountsVotes s a)
    (hbegins : OnManager BeginsUnvoted s a) (hsees : OnWorker cfg SeesAbort s a)
    (hstands : OnWorker cfg StandsByVote s a) : VoteInv cfg (next cfg s a) := by
  cases a with
  | manager a =>
      obtain ⟨input, hin, -⟩ := hrun
      rw [next_manager hin]
      have hcounts := hcounts input hin
      have hbegins := hbegins input hin
      rcases hwhole input hin with hcut | hcut
      all_goals simp only at hcut; simp only [hcut] at hcounts hbegins ⊢
      · exact h.managerStep hin hcounts hbegins
      · exact h.crash input
  | worker n a =>
      obtain ⟨hn, input, hin, hacc⟩ := hrun
      rw [next_worker hin]
      exact h.workerStep hn hin hacc (hsees input hin) (hstands input hin)

/-- **Commit validity**: where the conditions hold along a run, every commit is backed by
    the votes of all registered workers, none of which has locally aborted, and no vote comes
    from a poll or from a worker that has locally aborted. -/
theorem commits_are_valid (cfg : Config) (as : List SystemAct)
    (hrun : (machine cfg).Along (enabled cfg) (start cfg) as)
    (hwhole : (machine cfg).Along (OnManager Whole) (start cfg) as)
    (hcounts : (machine cfg).Along (OnManager CountsVotes) (start cfg) as)
    (hbegins : (machine cfg).Along (OnManager BeginsUnvoted) (start cfg) as)
    (hsees : (machine cfg).Along (OnWorker cfg SeesAbort) (start cfg) as)
    (hstands : (machine cfg).Along (OnWorker cfg StandsByVote) (start cfg) as) :
    (machine cfg).Along (fun s a => OnManager (ValidDecision cfg) s a ∧ OnWorker cfg ValidVote s a)
      (start cfg) as := by
  have hall := Machine.along_and.mpr ⟨hrun, Machine.along_and.mpr ⟨hwhole,
    Machine.along_and.mpr ⟨hcounts, Machine.along_and.mpr ⟨hbegins,
    Machine.along_and.mpr ⟨hsees, hstands⟩⟩⟩⟩⟩
  refine hall.strengthen (voteInv_start cfg) (fun s a hs hC => ?_) fun s a hs hC => ?_
  · obtain ⟨hrun, hwhole, hcounts, hbegins, hsees, hstands⟩ := hC
    exact voteInv_step hs hrun hwhole hcounts hbegins hsees hstands
  · cases a with
    | manager a =>
        refine ⟨fun input hin => ?_, trivial⟩
        exact hs.validDecision hin (hC.2.1 input hin) (hC.2.2.1 input hin)
    | worker n a =>
        obtain ⟨-, input, hin, hacc⟩ := hC.1
        refine ⟨trivial, fun input' hin' => ?_⟩
        obtain rfl : input' = input := Option.some.inj (hin'.symm.trans hin)
        exact validVote hacc (hC.2.2.2.2.1 input' hin')

/-- Worker 40 joins transaction 1, votes to commit it, and polls while the vote is counted. -/
theorem commits_are_valid_one :
    (machine smallConfig).Along
      (fun s a => OnManager (ValidDecision smallConfig) s a ∧ OnWorker smallConfig ValidVote s a)
      (start smallConfig)
      [command 40 .begintx, toManager 0, command 40 .jointx, toManager 2, toWorker 40 3,
        command 40 .commit, toManager 4, toWorker 40 5, .worker 40 ⟨.pollTimeout, none⟩, toManager 6,
        toManager 7, toWorker 40 8] :=
  commits_are_valid smallConfig _ (by decide +kernel) (by decide +kernel) (by decide +kernel)
    (by decide +kernel) (by decide +kernel) (by decide +kernel)

/-- Worker 40 asks for the commit, dies twice before it can vote, and polls. -/
def crashedVoterRun : List SystemAct :=
  [command 40 .begintx, toManager 0, command 40 .jointx, toManager 2, toWorker 40 3,
    command 40 .commit, toManager 4, command 40 .crash, .worker 40 ⟨.restart, none⟩,
    command 40 .crash, .worker 40 ⟨.restart, none⟩, .worker 40 ⟨.pollTimeout, none⟩, toManager 6]

/-- The poll of a worker that has aborted transaction 1 and never voted commits it. -/
theorem poll_counts_as_vote :
    (machine smallConfig).Along (enabled smallConfig) (start smallConfig) crashedVoterRun ∧
      (machine smallConfig).Along (OnManager Whole) (start smallConfig) crashedVoterRun ∧
      Sent .decideCommit 1 (told ((machine smallConfig).after (start smallConfig) crashedVoterRun).net) ∧
      (∃ i, (((machine smallConfig).after (start smallConfig) crashedVoterRun).manager.workerInfo
          i).tid = 1 ∧
        ∃ j, ((((machine smallConfig).after (start smallConfig) crashedVoterRun).manager.workerInfo
          i).workers j).nodeId = 40) ∧
      ¬ HasVoted smallConfig ((machine smallConfig).after (start smallConfig) crashedVoterRun).net 1 40 ∧
      ∃ r ∈ (((machine smallConfig).after (start smallConfig) crashedVoterRun).workers 40).log,
        r.msgID = .abort ∧ r.tid = 1 := by
  decide +kernel

end System

end DistributedSystem.Transaction
