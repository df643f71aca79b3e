import DistributedSystem.Transaction.ManagerReuse
import DistributedSystem.Transaction.WorkerRenaming
import DistributedSystem.Transaction.WorkerSteps
import Mathlib.Data.List.TakeWhile

/-!
# A transaction id used again at a worker

The counterpart for the worker of the comparison at the manager. The second transaction
starts with the `JOIN_SUCCESS` for it. Up to the names, the run in which it is called `u`
is one in which some of the older records about `t` are about `u`: those of the first
transaction. A scan that stops at the join does not notice.
-/

namespace DistributedSystem.Transaction

open DistributedSystem.Library

variable {t u x : Tid} {log log' past past' present : List Record} {r r' : Record}

/-! ## Renamed records -/

/-- `r'` is `r`, or `r` is about `t` and `r'` is the same record about `u`. -/
def Fades (t u : Tid) (r r' : Record) : Prop :=
  r' = r ∨ r.tid = t ∧ r' = r.rename (swapTid t u)

theorem Fades.eq_of_tid (h : Fades t u r r') (hu : r'.tid ≠ u) : r' = r := by
  rcases h with h | ⟨ht, rfl⟩
  · exact h
  · exact absurd (by simp [Record.rename, ht]) hu

theorem Fades.tid_eq (h : Fades t u r r') (ht : r.tid ≠ t) : r' = r := by
  rcases h with h | ⟨htid, -⟩
  · exact h
  · exact absurd htid ht

theorem Fades.rename (h : Fades t u r r') (hr : r.tid ≠ u) :
    Fades t u r (r'.rename (swapTid t u)) := by
  rcases h with rfl | ⟨ht, rfl⟩
  · by_cases ht : r'.tid = t
    · exact Or.inr ⟨ht, rfl⟩
    · exact Or.inl (by rw [Record.rename, swapTid_of_ne ht hr])
  · exact Or.inl (by simp [Record.rename])

/-- Records of a log, some of them renamed. -/
theorem fades_rename (h : List.Forall₂ (Fades t u) log log') (hfresh : ∀ r ∈ log, r.tid ≠ u) :
    List.Forall₂ (Fades t u) log (log'.map (Record.rename (swapTid t u))) := by
  induction h with
  | nil => exact .nil
  | cons h _ ih =>
      exact .cons (h.rename (hfresh _ (by simp))) (ih fun r hr => hfresh r (by simp [hr]))

/-- A record that is still there and not about `u` was there before. -/
theorem mem_of_fades (h : List.Forall₂ (Fades t u) log log') (hr : r ∈ log') (hu : r.tid ≠ u) :
    r ∈ log := by
  induction h with
  | nil => exact hr
  | cons h _ ih =>
      rcases List.mem_cons.mp hr with rfl | hr
      · rw [h.eq_of_tid hu]
        exact List.mem_cons_self
      · exact List.mem_cons_of_mem _ (ih hr)

/-- A record of another transaction stays. -/
theorem mem_of_mem_fades (h : List.Forall₂ (Fades t u) log log') (hr : r ∈ log) (ht : r.tid ≠ t) :
    r ∈ log' := by
  induction h with
  | nil => exact hr
  | cons h _ ih =>
      rcases List.mem_cons.mp hr with rfl | hr
      · rw [h.tid_eq ht]
        exact List.mem_cons_self
      · exact List.mem_cons_of_mem _ (ih hr)

/-! ## The scans -/

theorem isLocalAbort_append (h : (log ++ log').length ≤ mappedRecords) :
    isLocalAbort (log ++ log') x = (isLocalAbort log x || isLocalAbort log' x) := by
  rw [List.length_append] at h
  rw [Bool.eq_iff_iff, Bool.or_eq_true, isLocalAbort_iff (by rwa [List.length_append]),
    isLocalAbort_iff (by omega), isLocalAbort_iff (by omega)]
  simp only [List.mem_append, or_and_right, exists_or]

/-- An `ABORT` record that has not faded was there before. -/
theorem isLocalAbort_of_fades (h : List.Forall₂ (Fades t u) past past')
    (hpage : past.length ≤ mappedRecords) (hu : x ≠ u) (habort : isLocalAbort past' x = true) :
    isLocalAbort past x = true := by
  obtain ⟨r, hr, htid, hkind⟩ := exists_abort_of_isLocalAbort habort
  exact (isLocalAbort_iff hpage).mpr ⟨r, mem_of_fades h hr (htid ▸ hu), htid, hkind⟩

/-- `isLocalAbort` asks only for the records of one transaction. -/
theorem isLocalAbort_fades (h : List.Forall₂ (Fades t u) past past')
    (hpage : past.length ≤ mappedRecords) (ht : x ≠ t) (hu : x ≠ u) :
    isLocalAbort past' x = isLocalAbort past x := by
  refine Bool.eq_iff_iff.mpr ⟨isLocalAbort_of_fades h hpage hu, fun habort => ?_⟩
  obtain ⟨r, hr, htid, hkind⟩ := exists_abort_of_isLocalAbort habort
  exact (isLocalAbort_iff (h.length_eq ▸ hpage)).mpr ⟨r, mem_of_mem_fades h hr (htid ▸ ht), htid, hkind⟩

/-- A scan for the vote, with the flag `vote` of the worker in `b`. -/
theorem isLocalAbort_or_fades {b : Prop} (h : List.Forall₂ (Fades t u) past past') (hu : x ≠ u)
    (hpage : (past ++ present).length ≤ mappedRecords)
    (hpast : x = t → isLocalAbort past x = true → isLocalAbort present x = true ∨ b) :
    isLocalAbort (past' ++ present) x = true ∨ b ↔ isLocalAbort (past ++ present) x = true ∨ b := by
  have hpage' : (past' ++ present).length ≤ mappedRecords := by
    rwa [List.length_append, ← h.length_eq, ← List.length_append]
  have hold : past.length ≤ mappedRecords := by
    rw [List.length_append] at hpage
    omega
  rw [isLocalAbort_append hpage, isLocalAbort_append hpage', Bool.or_eq_true, Bool.or_eq_true]
  by_cases ht : x = t
  · constructor
    · rintro ((habort | habort) | hb)
      · exact Or.inl (Or.inl (isLocalAbort_of_fades h hold hu habort))
      · exact Or.inl (Or.inr habort)
      · exact Or.inr hb
    · rintro ((habort | habort) | hb)
      · exact (hpast ht habort).imp Or.inr id
      · exact Or.inl (Or.inr habort)
      · exact Or.inr hb
  · rw [isLocalAbort_fades h hold ht hu]

/-- The walk goes into the old log when all newer records are of the transaction. -/
theorem stretch_append (log log' : List Record) (x : Tid) :
    stretch (log ++ log') x =
      if ∀ r ∈ log', r.tid = x then log'.reverse ++ stretch log x else stretch log' x := by
  unfold stretch
  rw [List.reverse_append]
  by_cases hall : ∀ r ∈ log', r.tid = x
  · rw [if_pos hall, List.takeWhile_append_of_pos (by simpa using hall)]
  · rw [if_neg hall, List.takeWhile_append, if_neg]
    intro hlen
    have hfull : log'.reverse.takeWhile (fun r => r.tid = x) = log'.reverse :=
      (List.takeWhile_prefix _).eq_of_length hlen
    refine hall fun r hr => ?_
    rw [← List.mem_reverse, ← hfull] at hr
    simpa using List.mem_takeWhile_imp hr

/-- The walk over a log with renamed records is shorter. -/
theorem stretch_fades (h : List.Forall₂ (Fades t u) log log') (hu : x ≠ u) :
    ∀ r ∈ stretch log' x, r ∈ stretch log x := by
  have hloop : ∀ {rs rs' : List Record}, List.Forall₂ (Fades t u) rs rs' →
      ∀ r ∈ rs'.takeWhile fun r => r.tid = x, r ∈ rs.takeWhile fun r => r.tid = x := by
    intro rs rs' h
    induction h with
    | nil => simp
    | @cons r r' rs rs' hr _ ih =>
        intro r'' hr''
        by_cases hx : r'.tid = x
        · have hsame : r' = r := hr.eq_of_tid (hx ▸ hu)
          subst hsame
          simp only [List.takeWhile_cons, hx, decide_true, if_true, List.mem_cons] at hr'' ⊢
          exact hr''.imp id (ih r'')
        · simp [hx] at hr''
  exact hloop (List.forall₂_reverse_iff.mpr h)

/-- `readValFromRecord` stops at a record of another transaction, or meets no join record
    beyond the newer ones. -/
theorem readValFromRecord_fades (h : List.Forall₂ (Fades t u) past past') (hu : x ≠ u)
    (hpage : (past ++ present).length ≤ mappedRecords)
    (hstop : (∃ r ∈ present, r.tid ≠ x) ∨ ∀ r ∈ stretch past x, r.msgID ≠ .jointx) (obj : ObjectData) :
    readValFromRecord (past' ++ present) x obj = readValFromRecord (past ++ present) x obj := by
  have hpage' : (past' ++ present).length ≤ mappedRecords := by
    rwa [List.length_append, ← h.length_eq, ← List.length_append]
  rw [readValFromRecord_eq hpage', readValFromRecord_eq hpage, stretch_append, stretch_append]
  by_cases hall : ∀ r ∈ present, r.tid = x
  · have hno : ∀ r ∈ stretch past x, r.msgID ≠ .jointx :=
      hstop.resolve_left fun ⟨r, hr, hne⟩ => hne (hall r hr)
    rw [if_pos hall, if_pos hall, restorations_append, restorations_append,
      restorations_eq_nil hno,
      restorations_eq_nil fun r hr => hno r (stretch_fades h hu r hr)]
  · rw [if_neg hall, if_neg hall]

namespace Worker

/-- The input brings no datagram about `u`. -/
def NotAbout (u : Tid) : Input → Prop
  | .manager _ m => m.tid ≠ u
  | _ => True

instance (u : Tid) : ∀ inp, Decidable (NotAbout u inp)
  | .manager _ _ => inferInstanceAs (Decidable (_ ≠ _))
  | .cmd _ _ | .pollTimeout | .restart => isTrue trivial

/-- The records of the first transaction, in the log `past`, do not decide what the worker
    does about the second one: the log ends on the page where it is read; a vote meets a local
    abort of the first only if the second was aborted, too; and a rollback that walks into `past`
    meets no join record there. -/
def PastDoesNotMatter (t : Tid) (past : List Record) (w : Worker) (inp : Input) : Prop :=
  (w.Votes inp → w.OnPage) ∧ w.ReadsOnPage inp ∧
  (w.Votes inp → w.mem.curTid = t → isLocalAbort past t = true →
    isLocalAbort (w.log.drop past.length) t = true ∨ w.mem.vote = some .voteAbort) ∧
  (w.RollsBack inp → w.rollbackTid inp = t →
    (∃ r ∈ w.log.drop past.length, r.tid ≠ t) ∨ ∀ r ∈ stretch past t, r.msgID ≠ .jointx)

instance (t : Tid) (past : List Record) (w : Worker) (inp : Input) :
    Decidable (PastDoesNotMatter t past w inp) := inferInstanceAs (Decidable (_ ∧ _ ∧ _ ∧ _))

/-- The input starts the transaction `t` at the worker. -/
def Joins (t : Tid) (w : Worker) : Input → Prop
  | .manager _ m => m.msgID = .joinSuccess ∧ m.tid = t ∧ w.mem.control = .cmdLoop
  | _ => False

instance (t : Tid) (w : Worker) : ∀ inp, Decidable (w.Joins t inp)
  | .manager _ _ => inferInstanceAs (Decidable (_ ∧ _))
  | .cmd _ _ | .pollTimeout | .restart => isFalse id

/-! ## Another past -/

/-- The same state with other old records. -/
def withPast (w : Worker) (log : List Record) (shiviz : List (ShiVizEvent × VClock)) : Worker :=
  { w with log, shiviz }

/-- `w'` is `w` but for the names of some records about `t`. -/
def SameButNames (t u : Tid) (w w' : Worker) : Prop :=
  ∃ log shiviz, List.Forall₂ (Fades t u) w.log log ∧ w' = w.withPast log shiviz

theorem SameButNames.refl (w : Worker) : SameButNames t u w w :=
  ⟨w.log, w.shiviz, List.forall₂_same.mpr fun _ _ => Or.inl rfl, rfl⟩

/-- The states differ only in the names of the records before the join. -/
def SamePresent (t u : Tid) (past : List Record) (w w' : Worker) : Prop :=
  w.mem.curTid ≠ u ∧ ∃ past' present shiviz, List.Forall₂ (Fades t u) past past' ∧
    w.log = past ++ present ∧ (∃ r ∈ present, r.tid = t) ∧ (∀ r ∈ present, r.tid ≠ u) ∧
    w' = w.withPast (past' ++ present) shiviz

variable {w w' : Worker} {e : WorkerEffect} {inp : Input} {m : TxMessage} {src : SockAddr}
  {shiviz : List (ShiVizEvent × VClock)}

/-! ## The handlers -/

theorem rollback_withPast (h : readValFromRecord log x w.objData = readValFromRecord w.log x w.objData) :
    (w.withPast log shiviz).rollback x = w.rollback x :=
  congrArg (List.flatMap restore) h

theorem handleCmdMsg_withPast {c : MsgType} {calls : CmdCalls}
    (hroll : w.RollsBack (.cmd c calls) →
      (w.withPast log shiviz).rollback w.mem.curTid = w.rollback w.mem.curTid) :
    (w.withPast log shiviz).handleCmdMsg c calls = w.handleCmdMsg c calls := by
  -- only the rollback reads the log
  have habort : c.msgID = .abort ∨ c.msgID = .abortCrash →
      (w.withPast log shiviz).handleAbort c = w.handleAbort c := by
    intro hk
    have hcur : (w.withPast log shiviz).mem = w.mem := rfl
    simp only [handleAbort, hcur, hroll hk]
    rfl
  unfold handleCmdMsg
  split
  · rfl
  · rfl
  · rfl
  · rfl
  · rfl
  · rfl
  · rfl
  · rfl
  · rfl
  · exact habort (Or.inr ‹_›)
  · exact habort (Or.inl ‹_›)
  · rfl
  · rfl

theorem handleDecideAbort_withPast
    (hroll : (w.withPast log shiviz).rollback w.mem.curTid = w.rollback w.mem.curTid) :
    (w.withPast log shiviz).handleDecideAbort m = w.handleDecideAbort m := by
  have hcur : (w.withPast log shiviz).mem = w.mem := rfl
  simp only [handleDecideAbort, hcur, hroll]

theorem handlePrepareCommit_withPast (hvote : (w.withPast log shiviz).voteFor m = w.voteFor m) :
    (w.withPast log shiviz).handlePrepareCommit src m = w.handlePrepareCommit src m := by
  simp only [handlePrepareCommit, hvote]
  rfl

theorem handle_withPast (hacc : w.accepts inp)
    (hlast : inp = .restart → findStateFromRecord log = findStateFromRecord w.log)
    (hroll : w.RollsBack inp →
      (w.withPast log shiviz).rollback (w.rollbackTid inp) = w.rollback (w.rollbackTid inp))
    (hvote : ∀ src m, inp = .manager src m → w.Votes inp →
      (w.withPast log shiviz).voteFor m = w.voteFor m) :
    (w.withPast log shiviz).handle inp = w.handle inp := by
  cases inp with
  | cmd c calls => exact handleCmdMsg_withPast hroll
  | pollTimeout => rfl
  | restart =>
      have hlast' : findStateFromRecord (w.withPast log shiviz).log = findStateFromRecord w.log :=
        hlast rfl
      have htid : (w.withPast log shiviz).recoveredTid = w.recoveredTid := by
        unfold recoveredTid
        rw [hlast']
        rfl
      simp only [handle, restart, hlast', htid]
      congr 1
      by_cases hawait : awaitsDecision ((findStateFromRecord w.log).map Record.msgID) = true
      · simp only [hawait, if_true]
        rfl
      · have hrollback : (w.withPast log shiviz).rollback w.recoveredTid = w.rollback w.recoveredTid :=
          hroll (Bool.eq_false_iff.mpr hawait)
        simp only [hawait, hrollback]
        rfl
  | manager src m =>
      have hcontrol : (w.withPast log shiviz).mem.control = w.mem.control := rfl
      have habort : m.msgID = .decideAbort →
          (w.withPast log shiviz).handleDecideAbort m = w.handleDecideAbort m :=
        fun hk => handleDecideAbort_withPast (hroll ⟨hk, hacc⟩)
      simp only [handle, hcontrol]
      split
      · -- while waiting for the decision
        unfold waitingForCoordResponse
        split
        · rfl
        · rw [habort ‹_›]
          rfl
        · rfl
      · -- in the command loop
        rename_i hwait
        have hloop : w.mem.control = .cmdLoop := by
          cases hc : w.mem.control with
          | down => exact absurd hc hacc
          | cmdLoop => rfl
          | waiting a => exact absurd hc (hwait a)
        unfold handleManagerMsg
        split
        · rfl
        · rfl
        · rfl
        · rw [handlePrepareCommit_withPast (hvote src m rfl ⟨‹_›, hloop⟩)]
          rfl
        · rw [habort ‹_›]
          rfl
        · rfl

/-- The last record is one of the present, so a restart does not come back with `u`. -/
theorem SamePresent.recoveredTid_ne (h : SamePresent t u past w w') (hpage : w.OnPage) :
    w.recoveredTid ≠ u := by
  obtain ⟨-, past', present, shiviz, -, hlog, ⟨r, hr, -⟩, hpresent, -⟩ := h
  have hne : present ≠ [] := List.ne_nil_of_mem hr
  have hrecovered : w.recoveredTid = (present.getLast hne).tid := by
    unfold recoveredTid
    rw [findStateFromRecord_eq hpage, hlog, List.getLast?_append_of_ne_nil _ hne, List.getLast?_eq_some_getLast hne]
  rw [hrecovered]
  exact hpresent _ (List.getLast_mem hne)

/-- **The worker does not see the names of the past** where they do not matter. -/
theorem handle_samePresent (h : SamePresent t u past w w') (hacc : w.accepts inp)
    (hpast : PastDoesNotMatter t past w inp) : w'.handle inp = w.handle inp := by
  have hrecovered := h.recoveredTid_ne
  obtain ⟨hcur, past', present, shiviz, hfades, hlog, ⟨r, hr, hrt⟩, hpresent, rfl⟩ := h
  obtain ⟨hvotePage, hpage, hvoted, hrolled⟩ := hpast
  rw [hlog, List.drop_left] at hvoted hrolled
  -- the last record is one of the present
  have hne : present ≠ [] := List.ne_nil_of_mem hr
  have hlast : w.OnPage → findStateFromRecord (past' ++ present) = findStateFromRecord w.log := by
    intro hpage
    have hpage' : (past' ++ present).length ≤ mappedRecords := by
      rw [List.length_append, ← hfades.length_eq, ← List.length_append, ← hlog]
      exact hpage
    rw [findStateFromRecord_eq hpage', findStateFromRecord_eq hpage, hlog,
      List.getLast?_append_of_ne_nil _ hne, List.getLast?_append_of_ne_nil _ hne]
  refine handle_withPast hacc (fun hinp => hlast (hpage (Or.inr hinp)))
    (fun hroll => rollback_withPast ?_) fun src m hinp hvotes => ?_
  · have htid : w.rollbackTid inp ≠ u := by
      cases inp with
      | restart => exact hrecovered (hpage (Or.inr rfl))
      | _ => exact hcur
    have hread : (past ++ present).length ≤ mappedRecords := hlog ▸ hpage (Or.inl hroll)
    rw [hlog]
    refine readValFromRecord_fades hfades htid hread ?_ w.objData
    by_cases ht : w.rollbackTid inp = t
    · rw [ht]
      exact hrolled hroll ht
    · -- the walk ends at the join at the latest
      exact Or.inl ⟨r, hr, fun hx => ht (hx ▸ hrt)⟩
  · have hscan := isLocalAbort_or_fades (b := w.mem.vote = some .voteAbort) hfades hcur
      (hlog ▸ hvotePage hvotes) fun ht habort => ht ▸ hvoted hvotes ht (ht ▸ habort)
    unfold voteFor
    rw [isLocalAbort_prepare, isLocalAbort_prepare, hlog]
    exact if_congr hscan rfl rfl

theorem SamePresent.apply (h : SamePresent t u past w w') (hlog : ∀ r, e = .log r → r.tid ≠ u)
    (hjoined : ∀ x, e = .joined x → x ≠ u) (hcur : ∀ x, e = .curTid x → x ≠ u) (hu : u ≠ 0) :
    SamePresent t u past (w.apply e) (w'.apply e) := by
  obtain ⟨hcurTid, past', present, shiviz, hfades, hpast, hmem, hpresent, rfl⟩ := h
  refine ⟨?_, ?_⟩
  · rw [curTid_apply]
    split
    · exact hjoined _ rfl
    · exact hcur _ rfl
    · exact hu.symm
    · exact hcurTid
  · cases e with
    | log r =>
        -- a new record goes to the present, and it is not about `u`
        obtain ⟨r', hr', htid⟩ := hmem
        refine ⟨past', present ++ [r], shiviz, hfades, ?_, ⟨r', by simp [hr'], htid⟩, ?_, ?_⟩
        · rw [Worker.apply, hpast, List.append_assoc]
        · intro r'' hr''
          rcases List.mem_append.mp hr'' with hr'' | hr''
          · exact hpresent r'' hr''
          · rw [List.mem_singleton.mp hr'']
            exact hlog r rfl
        · simp [Worker.apply, withPast]
    | shiviz e =>
        exact ⟨past', present, shiviz ++ [(e, w.mem.myVectorClock)], hfades, hpast, hmem, hpresent, rfl⟩
    | objClock i =>
        refine ⟨past', present, shiviz, hfades, by rw [log_apply]; exact hpast, hmem, hpresent, ?_⟩
        simp only [Worker.apply]
        split <;> rfl
    | _ => exact ⟨past', present, shiviz, hfades, hpast, hmem, hpresent, rfl⟩

/-- The effects of an action in a related state keep the relation. -/
theorem SamePresent.performed {a : Act Input} {v v' : Worker} (h : SamePresent t u past w w')
    (hu : u ≠ 0) (hnot : NotAbout u a.input) (hpage : w.ReadsOnPage a.input) (he : e ∈ process.performed w a)
    (hv : SamePresent t u past v v') : SamePresent t u past (v.apply e) (v'.apply e) := by
  have hrecovered : a.input = .restart → w.recoveredTid ≠ u := fun hinput =>
    h.recoveredTid_ne (hpage (Or.inr hinput))
  -- records carry the tid of the message or the current one
  have hrecord : w.recordTid a.input ≠ u := by
    cases hinput : a.input with
    | manager src m =>
        rw [hinput] at hnot
        exact hnot
    | restart => exact hrecovered hinput
    | cmd m calls => exact h.1
    | pollTimeout => exact h.1
  have hacc := accounted_performed he
  refine hv.apply (fun r hr => ?_) (fun x hx => ?_) (fun x hx => ?_) hu
  · subst hr
    rw [hacc.1]
    exact hrecord
  · subst hx
    obtain ⟨-, src, m, hinput, -, rfl⟩ := hacc
    rw [hinput] at hnot
    exact hnot
  · subst hx
    rw [hacc.2]
    exact hrecovered hacc.1

/-! ## The second transaction -/

theorem rename_rename_swapTid (w : Worker) : (w.rename (swapTid t u)).rename (swapTid t u) = w := by
  simp [rename, Record.rename, Function.comp_def]

/-- The same state with another log and another current transaction. -/
def withLogTid (w : Worker) (log : List Record) (shiviz : List (ShiVizEvent × VClock)) (curTid : Tid) :
    Worker :=
  { w with log, shiviz, mem := { w.mem with curTid } }

theorem rename_withPast (f : Tid → Tid) :
    (w.withPast log shiviz).rename f = w.withLogTid (log.map (Record.rename f))
      (shiviz.map fun x => (x.1.rename f, x.2)) (f w.mem.curTid) := rfl

/-- The effects of a join do not read the log or the old `curTid`. -/
theorem exec_join (vc vc' : VClock) (e : ShiVizEvent) (a : SockAddr) (curTid : Tid) :
    process.exec (w.withLogTid log shiviz curTid)
        [.clock vc, .clock vc', .saveVectorTime, .shiviz e, .joined x, .managerAddr a, .log r] =
      (process.exec w [.clock vc, .clock vc', .saveVectorTime, .shiviz e, .joined x, .managerAddr a,
        .log r]).withPast (log ++ [r]) (shiviz ++ [(e, vc')]) := rfl

/-- The join: its handler does not read the log, and the first record of the second
    transaction is the join record. -/
theorem samePresent_join (hfresh : ∀ r ∈ w.log, r.tid ≠ u) (htu : t ≠ u) (hv : SameButNames t u w w')
    (hjoin : w.Joins t inp) :
    process.performed (w'.rename (swapTid t u)) ⟨inp, none⟩ = process.performed w ⟨inp, none⟩ ∧
      SamePresent t u w.log (process.step w ⟨inp, none⟩)
        (process.step (w'.rename (swapTid t u)) ⟨inp, none⟩) := by
  obtain ⟨log, shiviz, hfades, rfl⟩ := hv
  cases inp with
  | manager src m =>
      obtain ⟨hk, rfl, hcontrol⟩ := hjoin
      -- what the handler does, in either state
      let es : List WorkerEffect := [.clock (mergeVectorClock w.mem.myVectorClock m),
        .clock (w.receivedClock m), .saveVectorTime, .shiviz (.message .joinSuccess m.tid false src.port),
        .joined m.tid, .managerAddr src, .log (w.joinRecord m)]
      have hes : ∀ v : Worker, v.mem.control = .cmdLoop → v.nodeId = w.nodeId → v.objData = w.objData →
          v.mem.myVectorClock = w.mem.myVectorClock → v.handle (.manager src m) = es := by
        intro v hv hnode hobj hclock
        simp only [handle, hv, handleManagerMsg, hk, receive, receivedClock, joinRecord, hnode, hobj, hclock]
        rfl
      have hw : process.performed w ⟨.manager src m, none⟩ = es := hes w hcontrol rfl rfl rfl
      have hw' : process.performed ((w.withPast log shiviz).rename (swapTid m.tid u))
          ⟨.manager src m, none⟩ = es := hes _ hcontrol rfl rfl rfl
      refine ⟨hw'.trans hw.symm, ?_⟩
      unfold Process.step
      rw [hw, hw', rename_withPast]
      exact ⟨htu, log.map (Record.rename (swapTid m.tid u)), [w.joinRecord m], _,
        fades_rename hfades hfresh, rfl, ⟨_, List.mem_singleton_self _, rfl⟩,
        by simpa [joinRecord] using htu, exec_join _ _ _ _ _⟩
  | _ => exact hjoin.elim

/-- **The second transaction at a worker**: the run in which it is called `u` is the run in
    which it is called `t`, up to the name. -/
theorem trace_swap {bs : List (Act Input)} (ht : t ≠ 0) (hu : u ≠ 0) (htu : t ≠ u)
    (hfresh : ∀ r ∈ w.log, r.tid ≠ u) (hv : SameButNames t u w w') (hjoin : w.Joins t inp)
    (hrun : process.machine.Along (fun v a => v.accepts a.input ∧ NotAbout u a.input ∧
      PastDoesNotMatter t w.log v a.input) (process.step w ⟨inp, none⟩) bs) :
    process.trace w' ((⟨inp, none⟩ :: bs).map fun a => a.map (Input.rename (swapTid t u))) =
      (process.trace w (⟨inp, none⟩ :: bs)).map (WorkerEffect.rename (swapTid t u)) := by
  have hsym : process.trace ((w'.rename (swapTid t u)).rename (swapTid t u))
      ((⟨inp, none⟩ :: bs).map fun a => a.map (Input.rename (swapTid t u))) =
      (process.trace (w'.rename (swapTid t u)) (⟨inp, none⟩ :: bs)).map
        (WorkerEffect.rename (swapTid t u)) :=
    (symmetry (swapTid t u) (renaming_swapTid ht hu)).trace (w'.rename (swapTid t u)) _
  -- the join separates the past from the present
  obtain ⟨hperformed, hstart⟩ := samePresent_join hfresh htu hv hjoin
  -- from there on the two workers do the same
  have hrest : process.trace (process.step (w'.rename (swapTid t u)) ⟨inp, none⟩) bs =
      process.trace (process.step w ⟨inp, none⟩) bs :=
    Process.trace_eq hrun hstart (fun v v' a hR hC => handle_samePresent hR hC.1 hC.2.2)
      fun v v' a hR hC r r' e he hr => hR.performed hu hC.2.1 hC.2.2.2.1 he hr
  have hsame : process.trace (w'.rename (swapTid t u)) (⟨inp, none⟩ :: bs) =
      process.trace w (⟨inp, none⟩ :: bs) := by
    rw [Process.trace, Process.trace, hperformed, hrest]
  rw [rename_rename_swapTid, hsame] at hsym
  exact hsym

end Worker

end DistributedSystem.Transaction
