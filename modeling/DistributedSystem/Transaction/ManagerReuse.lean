import DistributedSystem.Transaction.Decision
import DistributedSystem.Transaction.ManagerRenaming
import DistributedSystem.Transaction.TableMap
import Mathlib.Logic.Equiv.Basic

/-!
# A transaction id used again at the manager

A transaction `t` has finished, and `t` is used for a second one. The manager's run is
compared with the run in which the second transaction is called `u`, a name nobody has
used. By the symmetry of the process that run is, up to the names, one in which the records
of the first transaction are about `u`, so the two differ only where a scan of the log meets
the records of the first transaction.
-/

namespace DistributedSystem.Transaction

open DistributedSystem.Library

/-- Exchange two names. -/
def swapTid (t u : Tid) : Tid → Tid := Equiv.swap t u

theorem renaming_swapTid {t u : Tid} (ht : t ≠ 0) (hu : u ≠ 0) : Renaming (swapTid t u) where
  injective := (Equiv.swap t u).injective
  zero := Equiv.swap_apply_of_ne_of_ne ht.symm hu.symm

variable {t u x : Tid}

@[simp] theorem swapTid_left : swapTid t u t = u := Equiv.swap_apply_left t u

@[simp] theorem swapTid_right : swapTid t u u = t := Equiv.swap_apply_right t u

theorem swapTid_of_ne (ht : x ≠ t) (hu : x ≠ u) : swapTid t u x = x :=
  Equiv.swap_apply_of_ne_of_ne ht hu

@[simp] theorem swapTid_swapTid : swapTid t u (swapTid t u x) = x := Equiv.swap_apply_self t u x

@[simp] theorem ShiVizEvent.rename_rename_swapTid (e : ShiVizEvent) :
    (e.rename (swapTid t u)).rename (swapTid t u) = e := by
  cases e <;> simp [ShiVizEvent.rename]

namespace Manager

/-- `u` is used by nobody yet, and `t` occupies no slot. -/
def Reusable (t u : Tid) (s : Manager) : Prop :=
  (∀ i, (s.workerInfo i).tid ≠ t ∧ (s.workerInfo i).tid ≠ u) ∧ ∀ r ∈ s.log, r.tid ≠ u

instance (t u : Tid) (s : Manager) : Decidable (s.Reusable t u) := inferInstanceAs (Decidable (_ ∧ _))

/-- The input is not about `u`. -/
def NotAbout (u : Tid) : Input → Prop
  | .message _ m _ => m.tid ≠ u
  | _ => True

instance (u : Tid) : ∀ inp, Decidable (NotAbout u inp)
  | .message _ _ _ => inferInstanceAs (Decidable (_ ≠ _))
  | .timeout | .restart => isTrue trivial

/-- The records of the first transaction, in the log `past`, do not decide what the manager
    does about the second one: where the log is read for it, it ends on the page; a poll or vote
    that finds no slot, and a restart with `t` in a slot, meet a commit record of the first only
    if the second has one, too; and a timeout with `t` in a slot meets a commit request of the
    first only if the second has one. -/
def PastDoesNotMatter (t : Tid) (past : List CoordRecord) (s : Manager) : Input → Prop
  | .message _ m _ =>
      m.tid = t → m.msgID = .pollDecision ∨ m.msgID = .voteCommit → findSlot s.workerInfo t = none →
        s.OnPage ∧ (isCommit past t = true → isCommit (s.log.drop past.length) t = true)
  | .timeout =>
      (∃ i, (s.workerInfo i).tid = t) →
        s.OnPage ∧ (waitingLoop t past.reverse = true →
          waitingLoop t (s.log.drop past.length).reverse = true)
  | .restart =>
      (∃ i, (s.workerInfo i).tid = t) →
        s.OnPage ∧ (isCommit past t = true → isCommit (s.log.drop past.length) t = true)

instance (t : Tid) (past : List CoordRecord) (s : Manager) :
    ∀ inp, Decidable (PastDoesNotMatter t past s inp)
  | .message _ _ _ => inferInstanceAs (Decidable (_ → _ → _ → _ ∧ _))
  | .timeout | .restart => inferInstanceAs (Decidable (_ → _ ∧ _))

/-! ## Another past -/

/-- The same state with other old records. -/
def withPast (s : Manager) (log : List CoordRecord) (shiviz : List (ShiVizEvent × VClock))
    (abortTid : Tid) : Manager :=
  { s with log, shiviz, mem := { s.mem with abortTid } }

/-- The states differ only in the records before the reuse, where `s'` has `u` for `t`. -/
def SamePresent (t u : Tid) (past : List CoordRecord) (s s' : Manager) : Prop :=
  (∀ i, (s.workerInfo i).tid ≠ u) ∧ ∃ present shiviz abortTid, s.log = past ++ present ∧
    s' = s.withPast (past.map (CoordRecord.rename (swapTid t u)) ++ present) shiviz abortTid

variable {s s' : Manager} {past present log log' : List CoordRecord} {e : ManagerEffect}
  {m : TxMessage} {shiviz : List (ShiVizEvent × VClock)} {abortTid : Tid}

/-- The scans for `x` see no difference between two records. -/
def SeenAlike (x : Tid) (r r' : CoordRecord) : Prop := (r'.tid = x ↔ r.tid = x) ∧ r'.msgID = r.msgID

theorem seenAlike_mappedCoord (h : List.Forall₂ (SeenAlike x) log log') :
    List.Forall₂ (SeenAlike x) (mappedCoord log) (mappedCoord log') :=
  forall₂_window (fun _ _ h => h) ⟨Iff.rfl, rfl⟩ h

theorem isCommit_congr (h : List.Forall₂ (SeenAlike x) log log') : isCommit log' x = isCommit log x := by
  have hany : ∀ {rs rs' : List CoordRecord}, List.Forall₂ (SeenAlike x) rs rs' →
      rs'.any (decidesCommit x) = rs.any (decidesCommit x) := by
    intro rs rs' h
    induction h with
    | nil => rfl
    | cons hr _ ih =>
        rw [List.any_cons, List.any_cons, ih]
        simp only [decidesCommit, hr.1, hr.2]
  unfold isCommit
  exact hany (List.forall₂_reverse_iff.mpr (seenAlike_mappedCoord h))

theorem waitingLoop_congr {rs rs' : List CoordRecord} (h : List.Forall₂ (SeenAlike x) rs rs') :
    waitingLoop x rs' = waitingLoop x rs := by
  induction h with
  | nil => rfl
  | cons hr _ ih => simp only [waitingLoop, hr.1, hr.2, ih]

/-- For other transactions the renamed past is the past. -/
theorem seenAlike_past (ht : x ≠ t) (hu : x ≠ u) : List.Forall₂ (SeenAlike x) (past ++ present)
    (past.map (CoordRecord.rename (swapTid t u)) ++ present) := by
  refine List.rel_append (List.forall₂_map_right_iff.mpr (List.forall₂_same.mpr fun r _ => ⟨?_, rfl⟩))
    (List.forall₂_same.mpr fun r _ => ⟨Iff.rfl, rfl⟩)
  show swapTid t u r.tid = x ↔ r.tid = x
  constructor
  · intro h
    rw [← swapTid_swapTid (t := t) (u := u) (x := r.tid), h, swapTid_of_ne ht hu]
  · rintro rfl
    exact swapTid_of_ne ht hu

theorem isCommit_append (h : (log ++ log').length ≤ mappedCoordRecords) :
    isCommit (log ++ log') x = (isCommit log x || isCommit log' x) := by
  rw [List.length_append] at h
  unfold isCommit
  rw [mappedCoord_eq_self (by rwa [List.length_append]), mappedCoord_eq_self (by omega),
    mappedCoord_eq_self (by omega), List.reverse_append, List.any_append, Bool.or_comm]

/-- A renamed past has no commit of the transaction. -/
theorem isCommit_renamed (hf : Renaming (swapTid t u)) (hfresh : ∀ r ∈ past, r.tid ≠ u) :
    isCommit (past.map (CoordRecord.rename (swapTid t u))) t = false := by
  have hrename := isCommit_rename hf past u
  rw [swapTid_right] at hrename
  rw [hrename, ← Bool.not_eq_true]
  intro hcommit
  obtain ⟨r, hr, -, htid⟩ := logged_of_isCommit hcommit
  exact hfresh r hr htid

/-- Only the records of `t` change their meaning. -/
theorem isCommit_past (hf : Renaming (swapTid t u)) (hfresh : ∀ r ∈ past, r.tid ≠ u) (hu : x ≠ u)
    (ht : x = t → (past ++ present).length ≤ mappedCoordRecords ∧
      (isCommit past t = true → isCommit present t = true)) :
    isCommit (past.map (CoordRecord.rename (swapTid t u)) ++ present) x =
      isCommit (past ++ present) x := by
  by_cases hx : x = t
  · subst hx
    obtain ⟨hpage, hpresent⟩ := ht rfl
    rw [isCommit_append hpage, isCommit_append (by simpa using hpage), isCommit_renamed hf hfresh,
      Bool.false_or]
    cases hpast : isCommit past x with
    | false => rfl
    | true => exact hpresent hpast
  · exact isCommit_congr (seenAlike_past hx hu)

theorem waitingLoop_append_congr {rs old old' : List CoordRecord}
    (h : waitingLoop x old = waitingLoop x old') :
    waitingLoop x (rs ++ old) = waitingLoop x (rs ++ old') := by
  induction rs with
  | nil => exact h
  | cons r rs ih => simp only [List.cons_append, waitingLoop, ih]

theorem waitingLoop_append_of_true {rs old : List CoordRecord} (h : waitingLoop x rs = true) :
    waitingLoop x (rs ++ old) = true := by
  induction rs with
  | nil => simp [waitingLoop] at h
  | cons r rs ih =>
      simp only [List.cons_append, waitingLoop] at h ⊢
      by_cases hr : r.tid = x
      · by_cases hdecided : r.msgID = .other 1
        · simp [hr, hdecided] at h
        · by_cases hreq : r.msgID = .commitReq
          · simp [hr, hreq]
          · simp only [hr, hdecided, hreq, if_true, if_false] at h ⊢
            exact ih h
      · simp only [hr, if_false] at h ⊢
        exact ih h

theorem waitingLoop_of_ne {rs : List CoordRecord} (h : ∀ r ∈ rs, r.tid ≠ x) : waitingLoop x rs = false := by
  induction rs with
  | nil => rfl
  | cons r rs ih =>
      rw [waitingLoop, if_neg (h r (by simp))]
      exact ih fun r' hr' => h r' (by simp [hr'])

theorem waitingLoop_past (hf : Renaming (swapTid t u)) (hfresh : ∀ r ∈ past, r.tid ≠ u) (hu : x ≠ u)
    (ht : x = t → (past ++ present).length ≤ mappedCoordRecords ∧
      (waitingLoop t past.reverse = true → waitingLoop t present.reverse = true)) :
    waitingLoop x (mappedCoord (past.map (CoordRecord.rename (swapTid t u)) ++ present)).reverse =
      waitingLoop x (mappedCoord (past ++ present)).reverse := by
  by_cases hx : x = t
  · subst hx
    obtain ⟨hpage, hpresent⟩ := ht rfl
    rw [mappedCoord_eq_self hpage, mappedCoord_eq_self (by simpa using hpage), List.reverse_append,
      List.reverse_append, ← List.map_reverse]
    have hnone : waitingLoop x (past.reverse.map (CoordRecord.rename (swapTid x u))) = false := by
      have hrename := waitingLoop_rename hf past.reverse u
      rw [swapTid_right] at hrename
      rw [hrename]
      exact waitingLoop_of_ne fun r hr => hfresh r (List.mem_reverse.mp hr)
    cases hpast : waitingLoop x past.reverse with
    | false => exact waitingLoop_append_congr (hnone.trans hpast.symm)
    | true =>
        -- the second transaction has a commit request of its own
        rw [waitingLoop_append_of_true (hpresent hpast), waitingLoop_append_of_true (hpresent hpast)]
  · exact waitingLoop_congr (List.forall₂_reverse_iff.mpr (seenAlike_mappedCoord (seenAlike_past hx hu)))

/-! ## The handlers -/

/-- The table writes leave the past alone. -/
theorem foldl_withPast {es : List ManagerEffect} (h : ∀ e ∈ es, e.isTableWrite = true) :
    es.foldl apply (s.withPast log shiviz abortTid) =
      (es.foldl apply s).withPast log shiviz abortTid := by
  induction es generalizing s with
  | nil => rfl
  | cons e es ih =>
      have happly : (s.withPast log shiviz abortTid).apply e =
          (s.apply e).withPast log shiviz abortTid := by
        have he := h e (by simp)
        cases e <;> first | rfl | simp [ManagerEffect.isTableWrite] at he
      rw [List.foldl_cons, happly, ih fun e' he' => h e' (by simp [he'])]
      rfl

theorem isTableWrite_crashFlag (h : e ∈ s.crashFlag m) : e.isTableWrite = true := by
  obtain ⟨i, b, rfl⟩ := mem_crashFlag h
  rfl

theorem isTableWrite_collectVote {c : MsgId} (h : e ∈ (s.collectVote m c).2) :
    e.isTableWrite = true := by
  obtain ⟨i, j, -, -, rfl⟩ := mem_collectVote h
  rfl

theorem collectVote_withPast {c : MsgId}
    (h : findSlot s.workerInfo m.tid = none → isCommit log m.tid = isCommit s.log m.tid) :
    (s.withPast log shiviz abortTid).collectVote m c = s.collectVote m c := by
  have htable : (s.withPast log shiviz abortTid).workerInfo = s.workerInfo := rfl
  unfold collectVote
  rw [htable]
  cases hslot : findSlot s.workerInfo m.tid with
  | none =>
      dsimp only
      rw [← h hslot]
      rfl
  | some i =>
      have hvote : ∀ e ∈ recordVote s.workerInfo i m, e.isTableWrite = true := by
        intro e he
        obtain ⟨j, -, rfl⟩ := mem_recordVote he
        rfl
      dsimp only
      rw [foldl_withPast hvote]
      rfl

theorem handleVote_withPast {src : SockAddr} {v : Uninit}
    (h : findSlot s.workerInfo m.tid = none → isCommit log m.tid = isCommit s.log m.tid) :
    (s.withPast log shiviz abortTid).handleVote src m v = s.handleVote src m v := by
  have hflag : (s.withPast log shiviz abortTid).crashFlag m = s.crashFlag m := rfl
  -- the crash flag changes neither the log nor the ids in the table
  have hlog : ((s.crashFlag m).foldl apply s).log = s.log := by
    refine Process.exec_unchanged (P := process) Manager.log fun s' e he => ?_
    obtain ⟨i, b, rfl⟩ := mem_crashFlag he
    rfl
  have htids : findSlot ((s.crashFlag m).foldl apply s).workerInfo m.tid = findSlot s.workerInfo m.tid :=
    findSlot_congr (fun k => (exec_crashFlag s m k).1) m.tid
  have hvotes : (((s.crashFlag m).foldl apply s).withPast log shiviz abortTid).collectVote m v.commit =
      ((s.crashFlag m).foldl apply s).collectVote m v.commit :=
    collectVote_withPast (by rw [htids, hlog]; exact h)
  have hboth : ∀ e ∈ s.crashFlag m ++ (collectVote ((s.crashFlag m).foldl apply s) m v.commit).2,
      e.isTableWrite = true := by
    intro e he
    rcases List.mem_append.mp he with he | he
    · exact isTableWrite_crashFlag he
    · exact isTableWrite_collectVote he
  dsimp only [handleVote]
  rw [hflag, foldl_withPast fun e he => isTableWrite_crashFlag he, hvotes, foldl_withPast hboth]
  rfl

/-- **The manager does not see the past** where it does not matter. -/
theorem handle_samePresent {inp : Input} (hf : Renaming (swapTid t u))
    (hfresh : ∀ r ∈ past, r.tid ≠ u) (h : SamePresent t u past s s') (hnot : NotAbout u inp)
    (hpast : PastDoesNotMatter t past s inp) : s'.handle inp = s.handle inp := by
  obtain ⟨htable, present, shiviz, abortTid, hlog, rfl⟩ := h
  have hpresent : s.log.drop past.length = present := by rw [hlog, List.drop_left]
  unfold PastDoesNotMatter at hpast
  rw [hpresent] at hpast
  cases inp with
  | message src m v =>
      -- a vote reads the log where its slot is gone
      have hvote : m.msgID = .pollDecision ∨ m.msgID = .voteCommit →
          (s.withPast (past.map (CoordRecord.rename (swapTid t u)) ++ present) shiviz
            abortTid).handleVote src m v = s.handleVote src m v := by
        intro hk
        refine handleVote_withPast fun hslot => ?_
        rw [hlog]
        refine isCommit_past hf hfresh hnot fun ht => ?_
        rw [← hlog]
        exact hpast ht hk (ht ▸ hslot)
      simp only [handle, handleWorkerMsg]
      congr 1
      split
      · rfl
      · rfl
      · rfl
      · exact hvote (Or.inl ‹_›)
      · exact hvote (Or.inr ‹_›)
      · simp only [handleVoteAbort]
        have hflag : ∀ e ∈ s.crashFlag m, e.isTableWrite = true := fun e he => isTableWrite_crashFlag he
        have hsame : (s.withPast (past.map (CoordRecord.rename (swapTid t u)) ++ present) shiviz
            abortTid).crashFlag m = s.crashFlag m := rfl
        rw [hsame, foldl_withPast hflag]
        rfl
      · rfl
  | timeout =>
      -- the timeout reads it for the transactions of the table
      have hwaiting : waitingForVotes s.workerInfo
          (past.map (CoordRecord.rename (swapTid t u)) ++ present) =
          waitingForVotes s.workerInfo s.log := by
        unfold waitingForVotes
        congr 2
        funext i
        rw [hlog]
        refine waitingLoop_past hf hfresh (htable i) fun ht => ?_
        rw [← hlog]
        exact hpast ⟨i, ht⟩
      have htimeout : ∀ log, waitingForVotes s.workerInfo log = waitingForVotes s.workerInfo s.log →
          (s.withPast log shiviz abortTid).voteTimeout = s.voteTimeout := by
        intro log hsame
        unfold voteTimeout
        rw [← hsame]
        rfl
      exact htimeout _ hwaiting
  | restart =>
      -- so does the broadcast of the restart
      have htargets : recoveryTargets s.workerInfo
          (past.map (CoordRecord.rename (swapTid t u)) ++ present) =
          recoveryTargets s.workerInfo s.log := by
        unfold recoveryTargets
        congr 1
        funext k
        rw [hlog, isCommit_past hf hfresh (htable k) fun ht => ?_]
        rw [← hlog]
        exact hpast ⟨k, ht⟩
      have hrestart : ∀ log, recoveryTargets s.workerInfo log = recoveryTargets s.workerInfo s.log →
          (s.withPast log shiviz abortTid).restart = s.restart := by
        intro log hsame
        unfold restart
        rw [← hsame]
        rfl
      exact hrestart _ htargets

theorem SamePresent.apply (h : SamePresent t u past s s') (he : ∀ i x, e = .tid i x → x ≠ u) :
    SamePresent t u past (s.apply e) (s'.apply e) := by
  obtain ⟨htable, present, shiviz, abortTid, hlog, rfl⟩ := h
  refine ⟨fun k => ?_, ?_⟩
  · rw [tid_apply]
    split
    · split
      · exact he _ _ rfl
      · exact htable k
    · exact htable k
  · cases e with
    | log r =>
        refine ⟨present ++ [r], shiviz, abortTid, ?_, ?_⟩
        · rw [Manager.apply, hlog, List.append_assoc]
        · simp [Manager.apply, withPast]
    | shiviz e => exact ⟨present, shiviz ++ [(e, s.mem.myVectorClock)], abortTid, hlog, rfl⟩
    | abortTid x => exact ⟨present, shiviz, x, hlog, rfl⟩
    | exit => exact ⟨present, shiviz, 0, hlog, rfl⟩
    | _ => exact ⟨present, shiviz, abortTid, hlog, rfl⟩

/-- Exchanging the names twice gives the state back. -/
theorem rename_rename_swapTid (s : Manager) : (s.rename (swapTid t u)).rename (swapTid t u) = s := by
  simp [rename, Info.rename, CoordRecord.rename, Function.comp_def]

/-- Where `t` and `u` occupy no slot, exchanging the names changes only the past. -/
theorem Reusable.samePresent (h : s.Reusable t u) :
    SamePresent t u s.log s (s.rename (swapTid t u)) := by
  have htable : (fun i => (s.workerInfo i).rename (swapTid t u)) = s.workerInfo := by
    funext i
    rw [Info.rename, swapTid_of_ne (h.1 i).1 (h.1 i).2]
  refine ⟨fun i => (h.1 i).2, [], s.shiviz.map fun x => (x.1.rename (swapTid t u), x.2),
    swapTid t u s.mem.abortTid, by simp, ?_⟩
  simp [rename, withPast, htable]

/-- **The second transaction at the manager**: the run in which it is called `u` is the run
    in which it is called `t`, up to the name. -/
theorem trace_swap {as : List (Act Input)} (ht : t ≠ 0) (hu : u ≠ 0) (h : s.Reusable t u)
    (hrun : process.machine.Along (fun s' a => NotAbout u a.input ∧
      PastDoesNotMatter t s.log s' a.input) s as) :
    process.trace s (as.map fun a => a.map (Input.rename (swapTid t u))) =
      (process.trace s as).map (ManagerEffect.rename (swapTid t u)) := by
  have hf := renaming_swapTid ht hu
  have hsym : process.trace ((s.rename (swapTid t u)).rename (swapTid t u))
      (as.map fun a => a.map (Input.rename (swapTid t u))) =
      (process.trace (s.rename (swapTid t u)) as).map (ManagerEffect.rename (swapTid t u)) :=
    (symmetry (swapTid t u) hf).trace (s.rename (swapTid t u)) as
  have hsame : process.trace (s.rename (swapTid t u)) as = process.trace s as := by
    refine Process.trace_eq hrun h.samePresent (fun s s' a hR hC => ?_)
      fun s s' a hR hC r r' e he hr => ?_
    · exact handle_samePresent hf h.2 hR hC.1 hC.2
    · refine hr.apply fun i x hx => ?_
      subst hx
      rcases Process.mem_performed he with he | he
      · -- a slot is emptied or taken for the transaction of the message
        rcases tid_mem_handle he with rfl | ⟨src, m, v, hinput, -, rfl, -⟩
        · exact hu.symm
        · have hnot := hC.1
          rw [hinput] at hnot
          exact hnot
      · exact absurd he (by simp)
  rw [rename_rename_swapTid, hsame] at hsym
  exact hsym

end Manager

end DistributedSystem.Transaction
