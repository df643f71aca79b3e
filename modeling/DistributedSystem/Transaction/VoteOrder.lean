import DistributedSystem.Transaction.DecisionSteps
import DistributedSystem.Transaction.Tally

/-!
# The order of the votes

One `VOTE_COMMIT` of each participant of a transaction, in any order and mixed with votes for
other transactions: the manager decides at the last of them, once, and touches no other
transaction. The count stops at the first participant without a vote, so every vote but the
last waits; the writes of a vote are those of its own slot, so the other slots go through the
same states as in a run without the transaction.
-/

namespace DistributedSystem.Transaction

open DistributedSystem.Library

namespace Manager

/-- A `VOTE_COMMIT` that does not ask for a crash, and what the manager finds with it. -/
structure CommitVote where
  src : SockAddr
  tid : Tid
  nodeId : NodeId
  vectorClock : VClock
  u : Uninit := {}
  deriving DecidableEq

namespace CommitVote

/-- The message. -/
def message (v : CommitVote) : TxMessage :=
  { msgID := .voteCommit, tid := v.tid, nodeId := v.nodeId, isCrash := false,
    vectorClock := v.vectorClock }

/-- The vote, handled to its end. -/
def act (v : CommitVote) : Act Input := ⟨.message v.src v.message v.u, none⟩

end CommitVote

variable {s x y : Manager} {e : ManagerEffect} {es fs : List ManagerEffect} {T : Table} {t : Tid}
  {m : TxMessage} {d : MsgId} {i k : Fin maxTrans} {v : CommitVote} {votes : List CommitVote}

/-! ## The effects of one vote -/

/-- A vote is entered and counted, and the count decides what follows. -/
theorem performed_vote (s : Manager) (v : CommitVote) :
    process.performed s v.act = s.receive v.message ++
      ((s.collectVote v.message v.u.commit).2 ++
        match (s.collectVote v.message v.u.commit).1 with
        | .decideCommit => (process.exec s (s.collectVote v.message v.u.commit).2).announce
            v.message .decideCommit
        | .decideAbort => sendTo s.port (s.receivedClock v.message) v.src .decideAbort v.tid v.nodeId
        | _ => []) := by
  show s.receive v.message ++ s.handleVote v.src v.message v.u = _
  rw [handleVote_eq]
  have hflag : s.crashFlag v.message = [] := rfl
  simp only [counted, hflag, Process.exec_nil, List.nil_append]
  rfl

/-- The writes to the slots. -/
def slotWrites (es : List ManagerEffect) : List ManagerEffect := es.filter (·.isSlotWrite)

theorem slotWrites_append (es fs : List ManagerEffect) :
    slotWrites (es ++ fs) = slotWrites es ++ slotWrites fs := List.filter_append ..

theorem slotWrites_eq_nil (h : ∀ e ∈ es, e.isSlotWrite = false) : slotWrites es = [] :=
  List.filter_eq_nil_iff.mpr fun e he => by simp [h e he]

theorem slotWrites_eq_self (h : ∀ e ∈ es, e.isSlotWrite = true) : slotWrites es = es :=
  List.filter_eq_self.mpr h

theorem slotWrites_announce (s : Manager) (m : TxMessage) (d : MsgId) :
    slotWrites (s.announce m d) = slotWrites (cleanWorkerInfo s.workerInfo m.tid) := by
  obtain ⟨pre, post, heq, hrest⟩ := announce_eq s m d
  have hplain : ∀ e ∈ pre ++ post, e.isSlotWrite = false := by
    intro e he
    rcases hrest e he with hb | ⟨i, b, rfl⟩ | rfl | ⟨w, -, n, vc, rfl⟩
    · exact isSlotWrite_of_isBookkeeping hb
    all_goals rfl
  have hpre : slotWrites pre = [] :=
    slotWrites_eq_nil fun e he => hplain e (List.mem_append_left _ he)
  have hpost : slotWrites post = [] :=
    slotWrites_eq_nil fun e he => hplain e (List.mem_append_right _ he)
  rw [heq]
  show slotWrites (pre ++ cleanWorkerInfo s.workerInfo m.tid ++ post) = _
  rw [slotWrites_append, slotWrites_append, hpre, hpost, List.nil_append, List.append_nil]

theorem cleanWorkerInfo_congr {T' : Table} (h : findSlot T t = findSlot T' t) :
    cleanWorkerInfo T t = cleanWorkerInfo T' t := by
  simp only [cleanWorkerInfo, h]

/-- What the votes of slot `i` come to when `v` has been entered. -/
def countWith (s : Manager) (i : Fin maxTrans) (v : CommitVote) : MsgId :=
  tally (List.ofFn ((process.exec s (recordVote s.workerInfo i v.message)).workerInfo i).workers)
    v.u.commit

/-- **The writes of a vote**: its entry, and the clearing of its slot if the count commits. -/
theorem slotWrites_vote (s : Manager) (v : CommitVote) :
    slotWrites (process.performed s v.act) =
      match findSlot s.workerInfo v.tid with
      | some i => recordVote s.workerInfo i v.message ++
          if s.countWith i v = .decideCommit then slotWrites (cleanWorkerInfo s.workerInfo v.tid)
          else []
      | none => [] := by
  have hreceive : slotWrites (s.receive v.message) = [] :=
    slotWrites_eq_nil fun e he => isSlotWrite_of_isBookkeeping (mem_receive he)
  have hsend : ∀ vc, slotWrites (sendTo s.port vc v.src .decideAbort v.tid v.nodeId) = [] :=
    fun vc => slotWrites_eq_nil fun e he => isSlotWrite_sendTo he
  rw [performed_vote, slotWrites_append, slotWrites_append, hreceive, List.nil_append]
  cases hfind : findSlot s.workerInfo v.tid with
  | none =>
    -- no slot: whether the log decides or not, nothing of the table is written
    have hfind' : findSlot s.workerInfo v.message.tid = none := hfind
    have hclean : cleanWorkerInfo s.workerInfo v.message.tid = [] := by
      simp only [cleanWorkerInfo, hfind']
    by_cases hlog : isCommit s.log v.message.tid = true
    · simp only [collectVote, hfind', hlog, if_true, Process.exec_nil, slotWrites_announce, hclean]
      rfl
    · simp only [collectVote, hfind', if_neg hlog, hsend]
      rfl
  | some i =>
    -- the entry is a write; what follows it writes only where the count commits
    have hfind' : findSlot s.workerInfo v.message.tid = some i := hfind
    have hrecord : slotWrites (recordVote s.workerInfo i v.message) =
        recordVote s.workerInfo i v.message := by
      refine slotWrites_eq_self fun e he => ?_
      obtain ⟨j, -, rfl⟩ := mem_recordVote he
      rfl
    have hdecision : (s.collectVote v.message v.u.commit).1 = s.countWith i v :=
      collectVote_decision hfind'
    rw [collectVote_effects hfind', hdecision, hrecord]
    congr 1
    by_cases hcount : s.countWith i v = .decideCommit
    · rw [if_pos hcount, hcount]
      show slotWrites (announce _ _ _) = _
      rw [slotWrites_announce]
      exact congrArg slotWrites
        (cleanWorkerInfo_congr (findSlot_congr (fun k => tid_exec_recordVote k) _))
    · rw [if_neg hcount]
      split
      · exact absurd ‹_› hcount
      · exact hsend _
      · rfl

/-! ## The slots after a vote -/

theorem SameSlot.symm (h : x.SameSlot y k) : y.SameSlot x k := ⟨h.1.symm, h.2.symm⟩

/-- One effect does the same to two slots that are the same. -/
theorem SameSlot.apply (h : x.SameSlot y k) (e : ManagerEffect) :
    (x.apply e).SameSlot (y.apply e) k := by
  constructor
  · rw [tid_apply, tid_apply, h.1]
  · funext l
    rw [workers_apply, workers_apply, h.2]

theorem SameSlot.exec (h : x.SameSlot y k) (es : List ManagerEffect) :
    (process.exec x es).SameSlot (process.exec y es) k := by
  induction es generalizing x y with
  | nil => exact h
  | cons e es ih => exact ih (h.apply e)

/-- The effects that are no writes do not matter to the slots. -/
theorem sameSlot_slotWrites (s : Manager) (es : List ManagerEffect) (k : Fin maxTrans) :
    (process.exec s (slotWrites es)).SameSlot (process.exec s es) k := by
  induction es generalizing s with
  | nil => exact ⟨rfl, rfl⟩
  | cons e es ih =>
    rw [Process.exec_cons]
    cases he : e.isSlotWrite with
    | true =>
      -- both sides perform the write
      rw [slotWrites, List.filter_cons_of_pos he, Process.exec_cons]
      exact ih _
    | false =>
      -- only the right side performs it, and its slot stays the same
      rw [slotWrites, List.filter_cons_of_neg (by simp [he])]
      exact ((sameSlot_apply he k).exec _).trans (ih _)

/-- The state after a vote. -/
def afterVote (s : Manager) (v : CommitVote) : Manager := process.step s v.act

theorem sameSlot_afterVote (s : Manager) (v : CommitVote) (k : Fin maxTrans) :
    (process.exec s (slotWrites (process.performed s v.act))).SameSlot (s.afterVote v) k :=
  sameSlot_slotWrites s _ k

/-- A vote leaves the slots of other transactions alone. -/
theorem sameSlot_of_other (h : (s.workerInfo k).tid ≠ v.tid) : s.SameSlot (s.afterVote v) k := by
  refine SameSlot.trans ?_ (sameSlot_afterVote s v k)
  rw [slotWrites_vote]
  cases hfind : findSlot s.workerInfo v.tid with
  | none => exact ⟨rfl, rfl⟩
  | some i =>
    -- `k` belongs to another transaction, so it is not the slot found
    have hki : ¬ k = i := by
      rintro rfl
      exact h (findSlot_eq_some.mp hfind).1
    have hrecord : s.SameSlot (process.exec s (recordVote s.workerInfo i v.message)) k := by
      refine Process.exec_invariant (I := fun x : Manager => s.SameSlot x k) ⟨rfl, rfl⟩
        fun x e he hx => hx.trans ?_
      obtain ⟨j, -, rfl⟩ := mem_recordVote he
      exact ⟨by simp [tid_apply], by funext l; simp [workers_apply, hki]⟩
    simp only [Process.exec_append]
    split
    · rcases exec_cleanWorkerInfo (process.exec s (recordVote s.workerInfo i v.message))
        s.workerInfo v.tid k with ⟨hfind', -⟩ | ⟨-, hsame⟩
      · exact absurd (Option.some.inj (hfind'.symm.trans hfind)) hki
      · exact (hrecord.trans hsame).trans (sameSlot_slotWrites _ _ k).symm
    · exact hrecord

/-- A vote that finds its slot and does not decide is entered there. -/
theorem afterVote_waits (hfind : findSlot s.workerInfo v.tid = some i)
    (hcount : s.countWith i v ≠ .decideCommit) (k : Fin maxTrans) :
    (process.exec s (recordVote s.workerInfo i v.message)).SameSlot (s.afterVote v) k := by
  have h := sameSlot_afterVote s v k
  rw [slotWrites_vote] at h
  simpa only [hfind, if_neg hcount, List.append_nil] using h

/-- A vote that decides clears its slot. -/
theorem afterVote_commits (hfind : findSlot s.workerInfo v.tid = some i)
    (hcount : s.countWith i v = .decideCommit) : (s.afterVote v).Cleared i := by
  have h := sameSlot_afterVote s v i
  rw [slotWrites_vote] at h
  simp only [hfind, if_pos hcount, Process.exec_append] at h
  -- `cleanWorkerInfo` clears the slot it finds, and the vote has found `i`
  rcases exec_cleanWorkerInfo (process.exec s (recordVote s.workerInfo i v.message))
    s.workerInfo v.tid i with ⟨-, hclear⟩ | ⟨hno, -⟩
  · have hsame := (sameSlot_slotWrites (process.exec s (recordVote s.workerInfo i v.message))
      (cleanWorkerInfo s.workerInfo v.tid) i).symm.trans h
    exact ⟨hsame.1.trans hclear.1, hsame.2 ▸ hclear.2⟩
  · exact absurd hfind hno

/-- A vote takes no slot for a transaction. -/
theorem tid_afterVote (s : Manager) (v : CommitVote) (k : Fin maxTrans) :
    ((s.afterVote v).workerInfo k).tid = 0 ∨
      ((s.afterVote v).workerInfo k).tid = (s.workerInfo k).tid := by
  rcases tid_step s v.act k with h | h | ⟨src, m, u, hinput, hk, -⟩
  · exact Or.inl h
  · exact Or.inr h
  · cases hinput
    cases hk

/-! ## Without the transaction -/

/-- Votes for other transactions do the same to a slot that is the same, whatever the slot
    of `t` holds. -/
theorem SameSlot.afterVote (hk : ∀ k, k ≠ i → x.SameSlot y k) (hx : (x.workerInfo i).tid ≠ v.tid)
    (hy : (y.workerInfo i).tid ≠ v.tid) (hki : k ≠ i) : (x.afterVote v).SameSlot (y.afterVote v) k := by
  -- slot `i` holds the id of the vote on neither side, so the search ends alike
  have hfind : findSlot x.workerInfo v.tid = findSlot y.workerInfo v.tid := by
    unfold findSlot
    congr 1
    funext l
    by_cases hl : l = i
    · rw [hl, decide_eq_false hx, decide_eq_false hy]
    · rw [(hk l hl).1]
  -- what is written is read off the slot found, which is the same on both sides
  have hwrites : slotWrites (process.performed x v.act) = slotWrites (process.performed y v.act) := by
    rw [slotWrites_vote, slotWrites_vote, cleanWorkerInfo_congr hfind, ← hfind]
    cases hslot : findSlot x.workerInfo v.tid with
    | none => rfl
    | some l =>
      have hli : l ≠ i := by
        rintro rfl
        exact hx (findSlot_eq_some.mp hslot).1
      have hrecord : recordVote x.workerInfo l v.message = recordVote y.workerInfo l v.message := by
        simp only [recordVote, (hk l hli).2]
      have hcount : x.countWith l v = y.countWith l v := by
        unfold countWith
        rw [hrecord, (((hk l hli).exec _).2)]
      simp only [hrecord, hcount]
  refine (sameSlot_afterVote x v k).symm.trans (SameSlot.trans ?_ (sameSlot_afterVote y v k))
  rw [hwrites]
  exact (hk k hki).exec _

/-- The state after some votes. -/
def afterVotes (s : Manager) (votes : List CommitVote) : Manager :=
  process.machine.after s (votes.map CommitVote.act)

@[simp] theorem afterVotes_nil (s : Manager) : s.afterVotes [] = s := rfl

@[simp] theorem afterVotes_cons (s : Manager) (v : CommitVote) (votes : List CommitVote) :
    s.afterVotes (v :: votes) = (s.afterVote v).afterVotes votes := rfl

theorem afterVotes_append (s : Manager) (us vs : List CommitVote) :
    s.afterVotes (us ++ vs) = (s.afterVotes us).afterVotes vs := by
  simp only [afterVotes, List.map_append, Machine.after_append]

/-- The same state with an empty slot `i`. -/
def without (s : Manager) (i : Fin maxTrans) : Manager := s.withSlot i fun _ => {}

/-- **Frame**: the slots of the other transactions after all votes are what they are after the
    other votes alone, whatever `t` did in its own slot. -/
theorem sameSlot_afterVotes (ht : t ≠ 0) (hactive : ∀ v ∈ votes, v.tid ≠ 0)
    (hsame : ∀ k, k ≠ i → y.SameSlot x k) (hothers : ∀ k, k ≠ i → (x.workerInfo k).tid ≠ t)
    (hx : (x.workerInfo i).tid = t ∨ (x.workerInfo i).tid = 0) (hy : (y.workerInfo i).tid = 0)
    (hk : k ≠ i) :
    (y.afterVotes (votes.filter (·.tid ≠ t))).SameSlot (x.afterVotes votes) k := by
  induction votes generalizing x y with
  | nil => exact hsame k hk
  | cons v votes ih =>
    have hv : v.tid ≠ 0 := hactive v (by simp)
    -- a vote takes no slot, so the hypotheses on the slot ids are kept
    have hothers' : ∀ k, k ≠ i → ((x.afterVote v).workerInfo k).tid ≠ t := by
      intro k hk
      rcases tid_afterVote x v k with h | h
      · rw [h]
        exact ht.symm
      · rw [h]
        exact hothers k hk
    have hx' : ((x.afterVote v).workerInfo i).tid = t ∨ ((x.afterVote v).workerInfo i).tid = 0 := by
      rcases tid_afterVote x v i with h | h
      · exact Or.inr h
      · rwa [h]
    have hactive' : ∀ v ∈ votes, v.tid ≠ 0 := fun v hv => hactive v (List.mem_cons_of_mem _ hv)
    rw [afterVotes_cons]
    by_cases hvt : v.tid = t
    · -- a vote for `t` moves the left run only
      rw [List.filter_cons_of_neg (by simp [hvt])]
      refine ih hactive' (fun k hk => (hsame k hk).trans (sameSlot_of_other ?_)) hothers' hx' hy
      rw [hvt]
      exact hothers k hk
    · -- any other vote is taken by both runs, and finds no slot `i`
      rw [List.filter_cons_of_pos (by simp [hvt]), afterVotes_cons]
      have hyv : (y.workerInfo i).tid ≠ v.tid := by
        rw [hy]
        exact hv.symm
      have hxv : (x.workerInfo i).tid ≠ v.tid := by
        rcases hx with h | h
        · rw [h]
          exact fun h => hvt h.symm
        · rw [h]
          exact hv.symm
      refine ih hactive' (fun k hk => SameSlot.afterVote hsame hyv hxv hk) hothers' hx' ?_
      rcases tid_afterVote y v i with h | h
      · exact h
      · rw [h, hy]

/-! ## No crash -/

/-- No slot of a transaction that is voted on has its crash flag set. -/
def FlagsOff (votes : List CommitVote) (s : Manager) : Prop :=
  ∀ v ∈ votes, ∀ k, (s.workerInfo k).tid = v.tid → (s.workerInfo k).isCrash = false

theorem isCrash_apply (s : Manager) (e : ManagerEffect) (k : Fin maxTrans) :
    ((s.apply e).workerInfo k).isCrash = match e with
      | .isCrash i b => if k = i then b else (s.workerInfo k).isCrash
      | _ => (s.workerInfo k).isCrash := by
  cases e <;> simp only [apply, withEntry, withSlot_workerInfo] <;> split <;> rfl

/-- Without the crash flag, `announce` logs, tells the participants and clears the slot. -/
theorem announce_of_flag_off (h : getCrash s.workerInfo m = false) :
    s.announce m d = .log { msgID := d, tid := m.tid, nodeId := m.nodeId } ::
      (s.sendToAllWorkers (s.receivedClock m) m.tid m.nodeId d ++ cleanWorkerInfo s.workerInfo m.tid) := by
  unfold announce
  rw [h]
  rfl

/-- The effect neither ends the process nor sets a crash flag nor takes a slot. -/
def Calm : ManagerEffect → Prop
  | .exit => False
  | .isCrash _ b => b = false
  | .tid _ t => t = 0
  | _ => True

theorem calm_of_isBookkeeping (h : e.isBookkeeping) : Calm e := by
  cases e <;> simp_all [ManagerEffect.isBookkeeping, Calm]

theorem getCrash_eq_false (h : ∀ k, (T k).tid = m.tid → (T k).isCrash = false) :
    getCrash T m = false := by
  unfold getCrash
  split
  · exact h _ (findSlot_eq_some.mp ‹_›).1
  · rfl

/-- Entering a vote changes neither ids nor crash flags. -/
theorem flags_exec_collectVote (s : Manager) (m : TxMessage) (c : MsgId) (k : Fin maxTrans) :
    ((process.exec s (s.collectVote m c).2).workerInfo k).tid = (s.workerInfo k).tid ∧
      ((process.exec s (s.collectVote m c).2).workerInfo k).isCrash = (s.workerInfo k).isCrash := by
  constructor
  · refine Process.exec_unchanged (fun x : Manager => (x.workerInfo k).tid) fun x e he => ?_
    obtain ⟨i, j, -, -, rfl⟩ := mem_collectVote he
    rw [process_apply, tid_apply]
  · refine Process.exec_unchanged (fun x : Manager => (x.workerInfo k).isCrash) fun x e he => ?_
    obtain ⟨i, j, -, -, rfl⟩ := mem_collectVote he
    rw [process_apply, isCrash_apply]

theorem calm_vote (hflag : ∀ k, (s.workerInfo k).tid = v.tid → (s.workerInfo k).isCrash = false)
    (he : e ∈ process.performed s v.act) : Calm e := by
  rw [performed_vote] at he
  simp only [List.mem_append] at he
  -- the merge, the entry of the vote, what the decision asks for
  rcases he with he | he | he
  · exact calm_of_isBookkeeping (mem_receive he)
  · obtain ⟨i, j, -, -, rfl⟩ := mem_collectVote he
    trivial
  · split at he
    · -- entering the vote has set no flag
      have hflag' : getCrash (process.exec s (s.collectVote v.message v.u.commit).2).workerInfo
          v.message = false := by
        refine getCrash_eq_false fun k hk => ?_
        obtain ⟨htid, hcrash⟩ := flags_exec_collectVote s v.message v.u.commit k
        rw [hcrash]
        exact hflag k (htid.symm.trans hk)
      rw [announce_of_flag_off hflag'] at he
      simp only [List.mem_cons, List.mem_append] at he
      rcases he with rfl | he | he
      · trivial
      · rcases mem_sendToAllWorkers he with hb | ⟨w, -, n, vc, rfl⟩
        · exact calm_of_isBookkeeping hb
        · trivial
      · obtain ⟨i, -, rfl | rfl | ⟨j, rfl | rfl | rfl⟩⟩ := mem_cleanWorkerInfo he
        · rfl
        · rfl
        all_goals trivial
    · rcases mem_sendTo he with hb | ⟨vc, rfl⟩
      · exact calm_of_isBookkeeping hb
      · trivial
    · simp at he

/-- A vote on a transaction without the crash flag leaves the manager running. -/
theorem flagsOff_afterVote (hup : s.mem.up = true) (hactive : ∀ v ∈ votes, v.tid ≠ 0)
    (hoff : FlagsOff votes s) (hv : v ∈ votes) :
    (s.afterVote v).mem.up = true ∧ FlagsOff votes (s.afterVote v) := by
  refine Process.exec_invariant (P := process) (I := fun x : Manager => x.mem.up = true ∧
    FlagsOff votes x) ⟨hup, hoff⟩ fun x e he hx => ?_
  have hcalm : Calm e := calm_vote (hoff v hv) he
  rw [process_apply]
  refine ⟨?_, fun w hw k hk => ?_⟩
  · cases e with
    | exit => exact hcalm.elim
    | up => rfl
    | _ => exact hx.1
  · rw [tid_apply] at hk
    rw [isCrash_apply]
    cases e with
    | tid i t' =>
      -- a slot can only be freed, and id 0 is not voted on
      simp only at hk ⊢
      by_cases hki : k = i
      · rw [if_pos hki] at hk
        exact absurd (hk.symm.trans hcalm) (hactive w hw)
      · rw [if_neg hki] at hk
        exact hx.2 w hw k hk
    | isCrash i b =>
      simp only at hk ⊢
      split
      · exact hcalm
      · exact hx.2 w hw k hk
    | _ => exact hx.2 w hw k hk

/-- The manager takes all the votes. -/
theorem enabled_votes (vs : List CommitVote) (hup : s.mem.up = true) (hactive : ∀ v ∈ votes, v.tid ≠ 0)
    (hoff : FlagsOff votes s) (hvs : ∀ v ∈ vs, v ∈ votes) :
    process.machine.Along process.machine.enabled s (vs.map CommitVote.act) ∧
      (s.afterVotes vs).mem.up = true ∧ FlagsOff votes (s.afterVotes vs) := by
  induction vs generalizing s with
  | nil => exact ⟨trivial, hup, hoff⟩
  | cons v vs ih =>
    obtain ⟨hup', hoff'⟩ := flagsOff_afterVote hup hactive hoff (hvs v (by simp))
    obtain ⟨hrest, hlast⟩ := ih hup' hoff' fun w hw => hvs w (List.mem_cons_of_mem _ hw)
    exact ⟨⟨hup, hrest⟩, hlast⟩

/-! ## The decision -/

/-- The records of a decision to commit `t`. -/
def commitRecords (t : Tid) (es : List ManagerEffect) : List CoordRecord :=
  es.filterMap fun
    | .log r => if r.msgID = .decideCommit ∧ r.tid = t then some r else none
    | _ => none

/-- Who is sent a decision to commit `t`. -/
def commitSends (t : Tid) (es : List ManagerEffect) : List SockAddr :=
  es.filterMap fun
    | .send dst m => if m.msgID = .decideCommit ∧ m.tid = t then some dst else none
    | _ => none

/-- The addresses of the participants of slot `i`. -/
def recipients (T : Table) (i : Fin maxTrans) : List SockAddr :=
  ((List.finRange maxNodes).filter fun j => ((T i).workers j).port ≠ 0).map
    fun j => ((T i).workers j).workerAddr

/-- The node ids that are counted in slot `i`. -/
def voters (T : Table) (i : Fin maxTrans) : List NodeId :=
  ((List.finRange maxNodes).map fun j => ((T i).workers j).nodeId).filter (· ≠ 0)

theorem commitRecords_append (es fs : List ManagerEffect) :
    commitRecords t (es ++ fs) = commitRecords t es ++ commitRecords t fs := List.filterMap_append ..

theorem commitSends_append (es fs : List ManagerEffect) :
    commitSends t (es ++ fs) = commitSends t es ++ commitSends t fs := List.filterMap_append ..

theorem commitRecords_of_quiet (h : ∀ e ∈ es, Quiet t e) : commitRecords t es = [] := by
  refine List.filterMap_eq_nil_iff.mpr fun e he => ?_
  cases e with
  | log r =>
    have hquiet : r.tid = t → r.msgID ≠ .decideCommit ∧ r.msgID ≠ .decideAbort := h _ he
    exact if_neg fun ⟨hd, hr⟩ => (hquiet hr).1 hd
  | _ => rfl

theorem commitSends_of_quiet (h : ∀ e ∈ es, Quiet t e) : commitSends t es = [] := by
  refine List.filterMap_eq_nil_iff.mpr fun e he => ?_
  cases e with
  | send dst m =>
    have hquiet : m.tid = t → m.msgID ≠ .decideCommit ∧ m.msgID ≠ .decideAbort := h _ he
    exact if_neg fun ⟨hd, hm⟩ => (hquiet hm).1 hd
  | _ => rfl

theorem commitSends_sendLoop (port r : NodeId) (vc : VClock) (ws : List W) :
    commitSends t (sendLoop port .decideCommit r vc (ws.map fun w => (t, w))) =
      ws.map (·.workerAddr) := by
  induction ws generalizing vc with
  | nil => rfl
  | cons w ws ih =>
    rw [List.map_cons, sendLoop, commitSends_append, ih]
    simp [commitSends, sendTo, constructMessage]

theorem commitRecords_sendLoop (port r : NodeId) (vc : VClock) (c : MsgId) (ws : List (Tid × W)) :
    commitRecords t (sendLoop port c r vc ws) = [] := by
  refine List.filterMap_eq_nil_iff.mpr fun e he => ?_
  rcases mem_sendLoop he with hb | ⟨w, -, n, vc', rfl⟩
  · cases e with
    | log => cases hb
    | _ => rfl
  · rfl

/-- With one slot for `t`, `sendToAllWorkers` goes through the participants of that slot. -/
theorem map_targets (h : ∀ k, (T k).tid = t ↔ k = i) :
    (targets T t).map (·.workerAddr) = recipients T i := by
  have htargets : targets T t = (List.ofFn (T i).workers).filter (fun w => w.port ≠ 0) := by
    unfold targets
    rw [flatMap_finRange_of_unique (i := i) fun k hk => if_neg fun hkt => hk ((h k).mp hkt)]
    exact if_pos ((h i).mpr rfl)
  rw [htargets, recipients, List.ofFn_eq_map, List.filter_map, List.map_map]
  rfl

theorem mem_voters {n : NodeId} : n ∈ voters T i ↔ Voter T i n := by
  simp only [voters, Voter, List.mem_filter, List.mem_map, List.mem_finRange, true_and,
    decide_eq_true_eq, and_comm]

theorem nodup_voters (h : ListedOnce T i) : (voters T i).Nodup := by
  rw [voters, List.filter_map]
  refine List.Nodup.map_on (fun j hj j' _ hjj' => ?_) ((List.nodup_finRange _).filter _)
  refine h j j' hjj' ?_
  simpa using (List.mem_filter.mp hj).2

/-! ## The vote of a participant -/

/-- The node ids that have voted for `t`. -/
def votersOf (t : Tid) (votes : List CommitVote) : List NodeId :=
  (votes.filter (·.tid = t)).map (·.nodeId)

theorem votersOf_append (us vs : List CommitVote) :
    votersOf t (us ++ vs) = votersOf t us ++ votersOf t vs := by
  simp only [votersOf, List.filter_append, List.map_append]

theorem votersOf_singleton (h : v.tid = t) : votersOf t [v] = [v.nodeId] := by
  simp [votersOf, h]

theorem votersOf_singleton_other (h : v.tid ≠ t) : votersOf t [v] = [] := by
  simp [votersOf, h]

theorem quiet_recordVote (he : e ∈ recordVote T i v.message) : Quiet t e := by
  obtain ⟨j, -, rfl⟩ := mem_recordVote he
  exact Or.inr (Or.inr rfl)

/-- A vote that waits has no part in a decision. -/
theorem quiet_waiting (hfind : findSlot s.workerInfo v.tid = some i) (hcount : s.countWith i v = .wait)
    (he : e ∈ process.performed s v.act) : Quiet t e := by
  have hfind' : findSlot s.workerInfo v.message.tid = some i := hfind
  have hdecision : (s.collectVote v.message v.u.commit).1 = .wait :=
    (collectVote_decision hfind').trans hcount
  rw [performed_vote, collectVote_effects hfind', hdecision] at he
  simp only [List.append_nil, List.mem_append] at he
  rcases he with he | he
  · exact quiet_receive he
  · exact quiet_recordVote he

/-- Nor has a vote for another transaction. -/
theorem quiet_other (ht : t ≠ 0) (hv : v.tid ≠ t) (he : e ∈ process.performed s v.act) :
    Quiet t e := by
  have hhandle : e ∈ s.handleWorkerMsg v.src v.message v.u := he
  exact quiet_handleWorkerMsg ht hv hhandle

/-- The slot of `t` while its votes come in: `t` has no other slot, and the slot carries the
    votes so far. -/
structure Collecting (T₀ : Table) (t : Tid) (i : Fin maxTrans) (ns : List NodeId) (s : Manager) :
    Prop where
  slot : ∀ k, (s.workerInfo k).tid = t ↔ k = i
  voted : VotedBy T₀ s.workerInfo i ns

theorem Collecting.found {T₀ : Table} {ns : List NodeId} (h : Collecting T₀ t i ns s) :
    findSlot s.workerInfo t = some i :=
  findSlot_eq_some.mpr ⟨(h.slot i).mpr rfl, fun k hk hkt => hk.ne ((h.slot k).mp hkt)⟩

/-- **Step lemma**: as long as the vote of a participant is missing, a vote is entered and
    nothing else happens to `t`. -/
theorem Collecting.vote {T₀ : Table} {ns : List NodeId} (h : Collecting T₀ t i ns s) (ht : t ≠ 0)
    (honce : ListedOnce T₀ i)
    (hnew : ∀ j, ((T₀ i).workers j).nodeId ≠ 0 → ((T₀ i).workers j).voteYes = none)
    (hmissing : ∃ n, Voter T₀ i n ∧ n ∉ ns ++ votersOf t [v]) :
    Collecting T₀ t i (ns ++ votersOf t [v]) (s.afterVote v) ∧
      ∀ e ∈ process.performed s v.act, Quiet t e := by
  by_cases hv : v.tid = t
  · subst hv
    -- a vote for `t`: it is entered, and the count stops at the missing one
    rw [votersOf_singleton rfl] at hmissing ⊢
    have hrecord := h.voted.record (m := v.message) honce rfl
    have hcount : s.countWith i v = .wait := hrecord.waits hnew hmissing
    have hsame := afterVote_waits h.found (by simp [hcount])
    refine ⟨⟨fun k => ?_, ?_⟩, fun e he => quiet_waiting h.found hcount he⟩
    · rw [(hsame k).1, tid_exec_recordVote]
      exact h.slot k
    · exact hrecord.congr (hsame i).2
  · -- a vote for another transaction leaves the slot alone
    rw [votersOf_singleton_other hv, List.append_nil]
    have hi : (s.workerInfo i).tid = t := (h.slot i).mpr rfl
    have hsame : s.SameSlot (s.afterVote v) i :=
      sameSlot_of_other (by rw [hi]; exact fun h => hv h.symm)
    refine ⟨⟨fun k => ⟨fun hk => ?_, ?_⟩, ?_⟩, fun e he => quiet_other ht hv he⟩
    · -- no other slot is taken for `t`
      rcases tid_afterVote s v k with hzero | hold
      · exact absurd (hk.symm.trans hzero) ht
      · exact (h.slot k).mp (hold.symm.trans hk)
    · rintro rfl
      rw [hsame.1, hi]
    · exact h.voted.congr hsame.2

/-- Run lemma. -/
theorem Collecting.run {T₀ : Table} {ns : List NodeId} (h : Collecting T₀ t i ns s) (ht : t ≠ 0)
    (honce : ListedOnce T₀ i)
    (hnew : ∀ j, ((T₀ i).workers j).nodeId ≠ 0 → ((T₀ i).workers j).voteYes = none)
    (hmissing : ∃ n, Voter T₀ i n ∧ n ∉ ns ++ votersOf t votes) :
    Collecting T₀ t i (ns ++ votersOf t votes) (s.afterVotes votes) ∧
      ∀ e ∈ process.trace s (votes.map CommitVote.act), Quiet t e := by
  induction votes generalizing s ns with
  | nil =>
    refine ⟨?_, by simp [Process.trace]⟩
    simpa [votersOf] using h
  | cons v votes ih =>
    have hsplit : votersOf t (v :: votes) = votersOf t [v] ++ votersOf t votes :=
      votersOf_append [v] votes
    rw [hsplit, ← List.append_assoc] at hmissing ⊢
    -- the participant that is missing at the end is missing all the way
    obtain ⟨n, hn, hno⟩ := hmissing
    obtain ⟨hfirst, hquiet⟩ := h.vote ht honce hnew
      ⟨n, hn, fun hmem => hno (List.mem_append_left _ hmem)⟩
    obtain ⟨hrest, hquiet'⟩ := ih hfirst ⟨n, hn, hno⟩
    refine ⟨hrest, fun e he => ?_⟩
    rcases List.mem_append.mp he with he | he
    · exact hquiet e he
    · exact hquiet' e he

/-- The vote of the last participant decides: one record, one message to each participant. -/
theorem Collecting.decides {T₀ : Table} {ns : List NodeId} (h : Collecting T₀ t i ns s) (ht : t ≠ 0)
    (honce : ListedOnce T₀ i) (hv : v.tid = t) (hall : ∀ n, Voter T₀ i n → n ∈ ns ++ [v.nodeId])
    (hsome : ∃ n, Voter T₀ i n) (hflag : (s.workerInfo i).isCrash = false) :
    commitRecords t (process.performed s v.act) = [⟨.decideCommit, t, v.nodeId⟩] ∧
      commitSends t (process.performed s v.act) = recipients T₀ i ∧ (s.afterVote v).Cleared i := by
  subst hv
  have hfind : findSlot s.workerInfo v.message.tid = some i := h.found
  have hrecord := h.voted.record (m := v.message) honce rfl
  have hcount : s.countWith i v = .decideCommit := hrecord.commits hall hsome
  -- `x` is the state in which the decision is announced
  obtain ⟨x, hx⟩ : ∃ x, x = process.exec s (recordVote s.workerInfo i v.message) := ⟨_, rfl⟩
  rw [← hx] at hrecord
  have htid : ∀ k, (x.workerInfo k).tid = v.tid ↔ k = i := by
    intro k
    rw [hx, tid_exec_recordVote]
    exact h.slot k
  -- the flag that `announce` reads was off before the vote was entered
  have hflag' : getCrash x.workerInfo v.message = false := by
    refine getCrash_eq_false fun k hk => ?_
    obtain rfl := (htid k).mp hk
    rw [← hflag, hx]
    refine Process.exec_unchanged (fun x : Manager => (x.workerInfo k).isCrash) fun x e he => ?_
    obtain ⟨j, -, rfl⟩ := mem_recordVote he
    rw [process_apply, isCrash_apply]
  -- with the flag off the vote is followed by the whole announcement
  have hperformed : process.performed s v.act = (s.receive v.message ++
      recordVote s.workerInfo i v.message) ++ ([.log ⟨.decideCommit, v.tid, v.nodeId⟩] ++
        (x.sendToAllWorkers (x.receivedClock v.message) v.tid v.nodeId .decideCommit ++
          cleanWorkerInfo x.workerInfo v.tid)) := by
    have hdecision : (s.collectVote v.message v.u.commit).1 = .decideCommit :=
      (collectVote_decision hfind).trans hcount
    rw [performed_vote, collectVote_effects hfind, hdecision, ← hx, List.append_assoc]
    show _ ++ (_ ++ x.announce v.message .decideCommit) = _
    rw [announce_of_flag_off hflag']
    rfl
  -- everything but the record and the loop over the participants is quiet about `t`
  have hreceive : ∀ e ∈ s.receive v.message, Quiet v.tid e := fun e he => quiet_receive he
  have hentered : ∀ e ∈ recordVote s.workerInfo i v.message, Quiet v.tid e :=
    fun e he => quiet_recordVote he
  have hclean : ∀ e ∈ cleanWorkerInfo x.workerInfo v.tid, Quiet v.tid e :=
    fun e he => quiet_cleanWorkerInfo ht he
  refine ⟨?_, ?_, afterVote_commits h.found hcount⟩
  · simp only [hperformed, commitRecords_append, commitRecords_of_quiet hreceive,
      commitRecords_of_quiet hentered, commitRecords_of_quiet hclean, sendToAllWorkers,
      commitRecords_sendLoop]
    simp [commitRecords]
  · have hsends : commitSends v.tid (x.sendToAllWorkers (x.receivedClock v.message) v.tid v.nodeId
        .decideCommit) = recipients T₀ i := by
      rw [sendToAllWorkers, commitSends_sendLoop, map_targets htid]
      simp only [recipients, hrecord.port, hrecord.workerAddr]
    simp only [hperformed, commitSends_append, commitSends_of_quiet hreceive,
      commitSends_of_quiet hentered, commitSends_of_quiet hclean, hsends]
    simp [commitSends]

/-- Votes for other transactions have no part in the decision, and leave a cleared slot alone. -/
theorem cleared_afterVotes (votes : List CommitVote) (ht : t ≠ 0) (hclear : s.Cleared i)
    (hvotes : ∀ v ∈ votes, v.tid ≠ 0 ∧ v.tid ≠ t) :
    (s.afterVotes votes).Cleared i ∧ ∀ e ∈ process.trace s (votes.map CommitVote.act), Quiet t e := by
  induction votes generalizing s with
  | nil => exact ⟨hclear, by simp [Process.trace]⟩
  | cons v votes ih =>
    obtain ⟨hzero, hne⟩ := hvotes v (by simp)
    -- the id of a vote is not 0, so it does not find the cleared slot
    have hsame : s.SameSlot (s.afterVote v) i := by
      refine sameSlot_of_other ?_
      rw [hclear.1]
      exact hzero.symm
    have hclear' : (s.afterVote v).Cleared i := by
      refine ⟨hsame.1.trans hclear.1, fun j => ?_⟩
      rw [hsame.2]
      exact hclear.2 j
    obtain ⟨hrest, hquiet⟩ := ih hclear' fun w hw => hvotes w (List.mem_cons_of_mem _ hw)
    refine ⟨hrest, fun e he => ?_⟩
    rcases List.mem_append.mp he with he | he
    · exact quiet_other ht hne he
    · exact hquiet e he

/-! ## All votes -/

/-- Transaction `t` is active in slot `i` and in no other; its participants have distinct node
    ids, there is at least one, and none has voted. -/
structure Awaiting (s : Manager) (t : Tid) (i : Fin maxTrans) : Prop where
  ne_zero : t ≠ 0
  slot : ∀ k, (s.workerInfo k).tid = t ↔ k = i
  once : ListedOnce s.workerInfo i
  unvoted : ∀ j, ((s.workerInfo i).workers j).nodeId ≠ 0 → ((s.workerInfo i).workers j).voteYes = none
  someone : ∃ n, Voter s.workerInfo i n

/-- `last` is the last vote for `t`, and the only one that has it decided: there the decision is
    logged once and sent once to each participant. -/
structure DecidesAt (s : Manager) (t : Tid) (i : Fin maxTrans) (before : List CommitVote)
    (last : CommitVote) (after : List CommitVote) : Prop where
  isLast : last.tid = t ∧ ∀ v ∈ after, v.tid ≠ t
  notBefore : commitRecords t (process.trace s (before.map CommitVote.act)) = [] ∧
    commitSends t (process.trace s (before.map CommitVote.act)) = []
  logged : commitRecords t (process.performed (s.afterVotes before) last.act) =
    [⟨.decideCommit, t, last.nodeId⟩]
  sent : commitSends t (process.performed (s.afterVotes before) last.act) = recipients s.workerInfo i
  notAfter :
    commitRecords t (process.trace (s.afterVotes (before ++ [last])) (after.map CommitVote.act)) = [] ∧
    commitSends t (process.trace (s.afterVotes (before ++ [last])) (after.map CommitVote.act)) = []

/-- What the votes come to: the manager takes them all, decides `t` at its last vote and only
    there, and ends with the slot of `t` cleared and every other slot as it would be without `t`. -/
structure VotesDecide (s : Manager) (t : Tid) (i : Fin maxTrans) (votes : List CommitVote) : Prop where
  taken : process.machine.Along process.machine.enabled s (votes.map CommitVote.act)
  decides : ∃ before last after, votes = before ++ last :: after ∧ s.DecidesAt t i before last after
  cleared : (s.afterVotes votes).Cleared i
  others : ∀ k, k ≠ i → ((s.without i).afterVotes (votes.filter (·.tid ≠ t))).SameSlot
    (s.afterVotes votes) k

/-- With a single vote, that is the one that decides. -/
theorem VotesDecide.sent_of_single (h : s.VotesDecide t i [v]) :
    commitSends t (process.performed s v.act) = recipients s.workerInfo i := by
  obtain ⟨before, last, after, heq, hdecides⟩ := h.decides
  cases before with
  | nil =>
    obtain ⟨rfl, rfl⟩ := List.cons.inj heq
    exact hdecides.sent
  | cons w before => simp at heq

/-- One vote of each participant, in any order and mixed with votes for other transactions,
    decides the transaction once, at the last of them. -/
theorem votes_decide_once (s : Manager) (t : Tid) (i : Fin maxTrans) (votes : List CommitVote)
    (hup : s.mem.up = true) (hs : s.Awaiting t i)
    (hperm : (votersOf t votes).Perm (voters s.workerInfo i)) (hactive : ∀ v ∈ votes, v.tid ≠ 0)
    (hoff : FlagsOff votes s) : s.VotesDecide t i votes := by
  have hi : (s.workerInfo i).tid = t := (hs.slot i).mpr rfl
  -- the last vote for `t`
  obtain ⟨n, hn⟩ := hs.someone
  have hmem : n ∈ votersOf t votes := hperm.mem_iff.mpr (mem_voters.mpr hn)
  obtain ⟨w, hw, -⟩ := List.mem_map.mp hmem
  obtain ⟨hw, hwt⟩ := List.mem_filter.mp hw
  obtain ⟨before, last, after, rfl, hlast, hafter⟩ :=
    unanswered_self (p := fun v : CommitVote => v.tid = t) ⟨w, hw, of_decide_eq_true hwt⟩
  have hnone : votersOf t after = [] := by
    simp only [votersOf, List.map_eq_nil_iff, List.filter_eq_nil_iff]
    exact fun v hv => by simpa using hafter v hv
  have hvoters : votersOf t (before ++ last :: after) = votersOf t before ++ [last.nodeId] := by
    have hsplit : before ++ last :: after = before ++ ([last] ++ after) := rfl
    rw [hsplit, votersOf_append, votersOf_append, votersOf_singleton hlast, hnone, List.append_nil]
  rw [hvoters] at hperm
  -- the votes before it wait for its voter
  have hmissing : ∃ n, Voter s.workerInfo i n ∧ n ∉ [] ++ votersOf t before := by
    refine ⟨last.nodeId, mem_voters.mp (hperm.mem_iff.mp (by simp)), ?_⟩
    have hnodup := hperm.nodup_iff.mpr (nodup_voters hs.once)
    rw [List.nil_append]
    exact fun hmem => List.disjoint_of_nodup_append hnodup hmem (by simp)
  have hstart : Collecting s.workerInfo t i [] s := ⟨hs.slot, VotedBy.refl _ _⟩
  obtain ⟨hcollecting, hquiet⟩ := hstart.run hs.ne_zero hs.once hs.unvoted hmissing
  obtain ⟨-, -, hoff'⟩ := enabled_votes before hup hactive hoff fun v hv => by simp [hv]
  have hflag : ((s.afterVotes before).workerInfo i).isCrash = false := by
    refine hoff' last (by simp) i ?_
    rw [(hcollecting.slot i).mpr rfl, hlast]
  -- it decides
  obtain ⟨hlogged, hsent, hcleared⟩ := hcollecting.decides hs.ne_zero hs.once hlast
    (fun n hn => hperm.mem_iff.mpr (mem_voters.mpr hn)) ⟨n, hn⟩ hflag
  have hconcat : s.afterVotes (before ++ [last]) = (s.afterVotes before).afterVote last :=
    afterVotes_append s before [last]
  obtain ⟨hend, hquiet'⟩ := cleared_afterVotes after hs.ne_zero hcleared fun v hv =>
    ⟨hactive v (by simp [hv]), hafter v hv⟩
  refine ⟨(enabled_votes _ hup hactive hoff fun v hv => hv).1,
    ⟨before, last, after, rfl, ⟨hlast, hafter⟩, ⟨commitRecords_of_quiet hquiet,
      commitSends_of_quiet hquiet⟩, hlogged, hsent, ?_⟩, ?_, fun k hk => ?_⟩
  · rw [hconcat]
    exact ⟨commitRecords_of_quiet hquiet', commitSends_of_quiet hquiet'⟩
  · rw [afterVotes_append]
    exact hend
  · refine sameSlot_afterVotes hs.ne_zero hactive (fun k hk => ?_) (fun k hk hkt => hk ((hs.slot k).mp hkt))
      (Or.inl hi) ?_ hk
    · rw [without]
      constructor
      · rw [withSlot_workerInfo, if_neg hk]
      · rw [withSlot_workerInfo, if_neg hk]
    · rw [without, withSlot_workerInfo, if_pos rfl]

/-- A message of worker `n`, handled to its end. -/
def fromNode (n : NodeId) (msgID : MsgId) (tid : Tid) (isCrash : Bool := false) : Act Input :=
  ⟨.message ⟨0, n⟩ { msgID, tid, nodeId := n, isCrash, vectorClock := emptyClock } {}, none⟩

/-- The vote of worker `n`. -/
def voteOf (n : NodeId) (tid : Tid) : CommitVote :=
  { src := ⟨0, n⟩, tid, nodeId := n, vectorClock := emptyClock }

/-- Workers 1 and 2 join transaction 5, worker 3 joins transaction 6. -/
def twoTransactions : Manager :=
  process.machine.after (start 7) [fromNode 1 .begintx 5, fromNode 3 .begintx 6, fromNode 1 .jointx 5,
    fromNode 3 .jointx 6, fromNode 2 .jointx 5]

/-- The votes of transaction 5 around that of transaction 6. -/
theorem votes_decide_once_two :
    twoTransactions.VotesDecide 5 0 [voteOf 2 5, voteOf 3 6, voteOf 1 5] := by
  refine votes_decide_once _ 5 0 _ (by decide +kernel) ⟨by decide, by decide +kernel,
    by decide +kernel, by decide +kernel, 1, by decide, 0, by decide +kernel⟩ (by decide +kernel)
    (by decide +kernel) ?_
  unfold FlagsOff
  decide +kernel

/-- Worker 2, which is no participant, votes for transaction 5 and asks for a crash. -/
def flaggedRun : List (Act Input) :=
  [fromNode 1 .begintx 5, fromNode 1 .jointx 5, fromNode 2 .voteCommit 5 true]

/-- With the crash flag set, the decision is logged and nobody is told. -/
theorem votes_not_decide :
    process.machine.Along process.machine.enabled (start 7) flaggedRun ∧
      (process.machine.after (start 7) flaggedRun).Awaiting 5 0 ∧
      (votersOf 5 [voteOf 1 5]).Perm
        (voters (process.machine.after (start 7) flaggedRun).workerInfo 0) ∧
      ¬ (process.machine.after (start 7) flaggedRun).VotesDecide 5 0 [voteOf 1 5] := by
  refine ⟨by decide +kernel, ⟨by decide, by decide +kernel, by decide +kernel, by decide +kernel,
    1, by decide, 0, by decide +kernel⟩, by decide +kernel, fun h => ?_⟩
  -- the vote has the decision logged, and `exit` comes before the first message
  have hnobody : commitSends 5 (process.performed (process.machine.after (start 7) flaggedRun)
      (voteOf 1 5).act) = [] := by
    decide +kernel
  have hsomebody : recipients (process.machine.after (start 7) flaggedRun).workerInfo 0 ≠ [] := by
    decide +kernel
  exact hsomebody (h.sent_of_single.symm.trans hnobody)

end Manager

end DistributedSystem.Transaction
