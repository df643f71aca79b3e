import DistributedSystem.Transaction.WorkerSteps
import Mathlib.Data.List.TakeWhile

/-!
# Messages about other transactions

A worker whose current transaction runs receives a datagram with another tid. The module
says exactly when this leaves the object, `isTXRun` and the ability to roll the current
transaction back as they were: once for the rollbacks that find the log on the mapped page, and
once for all of them, where every record that the datagram writes counts, since it takes the
place of a later record of the transaction on the page.
-/

namespace DistributedSystem.Transaction

open DistributedSystem.Library

namespace Worker

/-! ## The ability to roll back -/

/-- The worker after more records `rs` and with the object `obj`. -/
def later (w : Worker) (rs : List Record) (obj : ObjectData) : Worker :=
  { w with log := w.log ++ rs, objData := obj }

/-- The object that an `ABORT` command leaves. -/
def abortObject (w : Worker) : ObjectData := (process.exec w (w.rollback w.mem.curTid)).objData

/-- The object that a crash and a restart leave as far as `t` is concerned: a restart that
    aborts another transaction, or none, is no rollback of `t`. -/
def recoverObject (w : Worker) (t : Tid) : ObjectData :=
  let w' := w.apply .exit
  if w'.RollsBack .restart ∧ w'.recoveredTid = t then (process.exec w' (w'.rollback t)).objData
  else w.objData

/-- From `w` to `w'` the object, `isTXRun` and every later rollback of `t` stay the same:
    whatever records `t` writes after that and whatever the object holds by then, as long as the
    worker is one of `S` at the rollback. -/
structure Isolated (S : Worker → Prop) (t : Tid) (w w' : Worker) : Prop where
  objData : w'.objData = w.objData
  isTXRun : w'.mem.isTXRun = w.mem.isTXRun
  abort : ∀ rs obj, (∀ r ∈ rs, r.tid = t) → S (w'.later rs obj) →
    (w'.later rs obj).abortObject = (w.later rs obj).abortObject
  recover : ∀ rs obj, (∀ r ∈ rs, r.tid = t) → S (w'.later rs obj) →
    (w'.later rs obj).recoverObject t = (w.later rs obj).recoverObject t

/-- A rollback of the current transaction would write nothing. -/
def NothingToUndo (w : Worker) : Prop := ¬ Reaches (mapped w.log) w.mem.curTid

instance (w : Worker) : Decidable w.NothingToUndo := inferInstanceAs (Decidable (¬ _))

/-- The datagrams with another tid that do no harm while the log stays on the page: if the
    worker waits, every one but a decision; in the command loop neither a decision nor a
    `JOIN_SUCCESS`, and a `JOIN_FAIL` or a `PREPARE_COMMIT` only when there is nothing to undo,
    and no negative delay ends the process at the vote. -/
def Harmless (w : Worker) (m : TxMessage) : Prop :=
  match m.msgID with
  | .decideCommit | .decideAbort => False
  | .joinSuccess => w.mem.control ≠ .cmdLoop
  | .joinFail => w.mem.control ≠ .cmdLoop ∨ w.NothingToUndo
  | .prepareCommit => w.mem.control ≠ .cmdLoop ∨ (w.NothingToUndo ∧ 0 ≤ w.mem.delay)
  | _ => True

instance (w : Worker) (m : TxMessage) : Decidable (w.Harmless m) := by
  unfold Harmless
  split <;> infer_instance

/-- A restart with this log aborts `t`. -/
def RestartAborts (log : List Record) (t : Tid) : Prop :=
  awaitsDecision ((findStateFromRecord log).map Record.msgID) = false ∧
    (match findStateFromRecord log with
      | some r => r.tid
      | none => 0) = t

instance (log : List Record) (t : Tid) : Decidable (RestartAborts log t) :=
  inferInstanceAs (Decidable (_ ∧ _))

/-- Further records change no rollback of the current transaction: the page is used up, and
    there is nothing to undo, or the rollbacks of transaction 0 go on over the zeros behind it. -/
def RecordsUnseen (w : Worker) : Prop :=
  mappedRecords < w.log.length ∧
    (w.NothingToUndo ∨ (w.mem.curTid = 0 ∧ RestartAborts w.log 0))

instance (w : Worker) : Decidable w.RecordsUnseen := inferInstanceAs (Decidable (_ ∧ _))

/-- The datagrams with another tid that do no harm, whatever is logged later. -/
def AlwaysHarmless (w : Worker) (m : TxMessage) : Prop :=
  match m.msgID with
  | .decideCommit | .decideAbort => False
  | .joinSuccess => w.mem.control ≠ .cmdLoop ∨ (mappedRecords < w.log.length ∧ w.NothingToUndo ∧
      (m.tid = 0 → ¬ Reaches (mapped w.log) 0))
  | .joinFail => w.mem.control ≠ .cmdLoop ∨ w.RecordsUnseen
  | .prepareCommit => w.mem.control ≠ .cmdLoop ∨ (w.RecordsUnseen ∧ 0 ≤ w.mem.delay)
  | _ => True

instance (w : Worker) (m : TxMessage) : Decidable (w.AlwaysHarmless m) := by
  unfold AlwaysHarmless
  split <;> infer_instance

/-- Transaction 2 has set `A` to 7 when a late `DECIDE_ABORT` of transaction 1 arrives. -/
def lateDecision : List (Act Input) := [deliver .joinSuccess 2, newA 7, deliver .decideAbort 1]

variable {S : Worker → Prop} {w w' : Worker} {m : TxMessage} {src : SockAddr} {t u : Tid}
  {log rs us : List Record} {obj : ObjectData} {k : ℕ}

/-! ## What a rollback leaves -/

theorem abortObject_later (w : Worker) (rs : List Record) (obj : ObjectData) :
    (w.later rs obj).abortObject = undone (mapped (w.log ++ rs)) w.mem.curTid obj := by
  unfold abortObject
  rw [exec_rollback_mapped]
  rfl

theorem recoverObject_later (w : Worker) (rs : List Record) (obj : ObjectData) (t : Tid) :
    (w.later rs obj).recoverObject t =
      if RestartAborts (w.log ++ rs) t then undone (mapped (w.log ++ rs)) t obj else obj := by
  unfold recoverObject
  simp only [exec_rollback_mapped]
  rfl

/-- Without a join record in reach nothing is restored. -/
theorem undone_of_not_reaches (h : ¬ Reaches log t) : undone log t obj = obj := by
  unfold undone
  rw [restorations_eq_nil fun r hr hjoin => h ⟨r, hr, hjoin⟩]
  rfl

/-- Records of the same transaction prolong the stretch. -/
theorem stretch_append_same (h : ∀ r ∈ rs, r.tid = t) :
    stretch (log ++ rs) t = rs.reverse ++ stretch log t := by
  unfold stretch
  rw [List.reverse_append, List.takeWhile_append_of_pos (by simpa using h)]

/-- A record of another transaction ends it. -/
theorem stretch_append_other (hne : us ≠ []) (h : ∀ r ∈ us, r.tid ≠ t) : stretch (log ++ us) t = [] := by
  unfold stretch
  obtain ⟨init, r, rfl⟩ := (List.eq_nil_or_concat' _).resolve_left hne
  rw [← List.append_assoc, List.reverse_append]
  simp [h r]

/-- The join records that are restored do not depend on the object. -/
theorem map_snd_restorations (rs : List Record) (old : OldValues) :
    (restorations rs old).map Prod.snd = rs.filter fun r => r.msgID = .jointx := by
  induction rs generalizing old with
  | nil => rfl
  | cons r rs ih =>
      by_cases hr : r.msgID = .jointx
      · simp [restorations, hr, ih]
      · simp [restorations, hr, ih]

/-- A rollback over a join record changes some object. -/
theorem exists_undone_ne (h : Reaches log t) : ∃ obj, undone log t obj ≠ obj := by
  obtain ⟨r, hr, hjoin⟩ := h
  have hfilter : (stretch log t).filter (fun r => r.msgID = .jointx) ≠ [] := by
    intro hnil
    have hmem : r ∈ (stretch log t).filter fun r => r.msgID = .jointx := by simp [hr, hjoin]
    simp [hnil] at hmem
  -- an object that was updated after the oldest join record
  let oldest := ((stretch log t).filter fun r => r.msgID = .jointx).getLast hfilter
  let obj : ObjectData := ⟨"", oldest.lastUpdateTime + 1, 0, 0, emptyClock⟩
  refine ⟨obj, fun heq => ?_⟩
  have hmap := map_snd_restorations (stretch log t) obj.current
  have hne : restorations (stretch log t) obj.current ≠ [] := by
    intro hnil
    rw [hnil] at hmap
    exact hfilter hmap.symm
  obtain ⟨init, x, hx⟩ := (List.eq_nil_or_concat' _).resolve_left hne
  have hlast : x.2 = oldest := by
    have hgetLast : ((stretch log t).filter fun r => r.msgID = .jointx).getLast? = some x.2 := by
      rw [← hmap, hx]
      simp
    rw [List.getLast?_eq_some_getLast hfilter] at hgetLast
    exact (Option.some.inj hgetLast).symm
  have htime : (undone log t obj).lastUpdateTime = oldest.lastUpdateTime := by
    unfold undone
    rw [hx, ← hlast]
    simp [restoredObject]
  rw [heq] at htime
  exact absurd htime (Nat.succ_ne_self _)

/-! ## What the records of the other transaction do -/

/-- Nothing at all happens. -/
theorem isolated_of_same (hobj : w'.objData = w.objData) (hrun : w'.mem.isTXRun = w.mem.isTXRun)
    (hcur : w'.mem.curTid = w.mem.curTid) (hlog : w'.log = w.log) : Isolated S t w w' := by
  refine ⟨hobj, hrun, fun rs obj _ _ => ?_, fun rs obj _ _ => ?_⟩
  · rw [abortObject_later, abortObject_later, hlog, hcur]
  · rw [recoverObject_later, recoverObject_later, hlog]

/-- On the page the log is read as it is. -/
theorem mapped_later (h : (w.later rs obj).OnPage) : mapped (w.log ++ rs) = w.log ++ rs :=
  mapped_eq_self h

/-- The object and `isTXRun` stay, but records of another transaction are written. -/
theorem isolated_iff_of_records (us : List Record) (hobj : w'.objData = w.objData)
    (hrun : w'.mem.isTXRun = w.mem.isTXRun) (hcur : w'.mem.curTid = w.mem.curTid)
    (hlog : w'.log = w.log ++ us) (hne : us ≠ []) (hus : ∀ r ∈ us, r.tid ≠ w.mem.curTid)
    (hpage : w'.OnPage) : Isolated OnPage w.mem.curTid w w' ↔ w.NothingToUndo := by
  have hcut : ∀ rs : List Record, (∀ r ∈ rs, r.tid = w.mem.curTid) →
      stretch (w'.log ++ rs) w.mem.curTid = rs.reverse := by
    intro rs hrs
    rw [stretch_append_same hrs, hlog, stretch_append_other hne hus, List.append_nil]
  -- the log without those records is the shorter one
  have hshort : ∀ {rs obj}, (w'.later rs obj).OnPage → (w.later rs obj).OnPage := by
    intro rs obj h
    have h : (w'.log ++ rs).length ≤ mappedRecords := h
    show (w.log ++ rs).length ≤ mappedRecords
    rw [hlog] at h
    simp only [List.length_append] at h ⊢
    omega
  have hpage₀ : (w'.later [] w.objData).OnPage := by
    show (w'.log ++ []).length ≤ mappedRecords
    rw [List.append_nil]
    exact hpage
  have hself : mapped w.log = w.log := by
    have h := mapped_later (hshort hpage₀)
    rwa [List.append_nil] at h
  rw [NothingToUndo, hself]
  constructor
  · rintro ⟨-, -, habort, -⟩ hreach
    obtain ⟨obj, hundone⟩ := exists_undone_ne hreach
    have heq := habort [] obj (by simp) hpage₀
    rw [abortObject_later, abortObject_later, mapped_later hpage₀, mapped_later (hshort hpage₀), hcur,
      undone, hcut [] (by simp), List.append_nil] at heq
    exact hundone heq.symm
  · intro hnothing
    have hnone : ∀ r ∈ stretch w.log w.mem.curTid, r.msgID ≠ .jointx := fun r hr hjoin =>
      hnothing ⟨r, hr, hjoin⟩
    -- the older records of `t` would not be restored anyway
    have hundone : ∀ rs obj, (∀ r ∈ rs, r.tid = w.mem.curTid) →
        undone (w'.log ++ rs) w.mem.curTid obj = undone (w.log ++ rs) w.mem.curTid obj := by
      intro rs obj hrs
      unfold undone
      rw [hcut rs hrs, stretch_append_same hrs, restorations_append,
        restorations_eq_nil hnone, List.append_nil]
    refine ⟨hobj, hrun, fun rs obj hrs h => ?_, fun rs obj hrs h => ?_⟩
    · rw [abortObject_later, abortObject_later, mapped_later h, mapped_later (hshort h), hcur]
      exact hundone rs obj hrs
    · rw [recoverObject_later, recoverObject_later, mapped_later h, mapped_later (hshort h),
        hundone rs obj hrs]
      cases rs with
      | nil =>
          have hsame : undone (w.log ++ []) w.mem.curTid obj = obj := by
            rw [List.append_nil]
            exact undone_of_not_reaches hnothing
          rw [hsame, ite_self, ite_self]
      | cons r rs =>
          -- the last record is the same with and without the foreign ones
          have hlast : ∀ log : List Record, (log ++ r :: rs).length ≤ mappedRecords →
              findStateFromRecord (log ++ r :: rs) = (r :: rs).getLast? := by
            intro log hlog
            rw [findStateFromRecord_eq hlog]
            exact List.getLast?_append_of_ne_nil log (by simp)
          simp only [RestartAborts, hlast w'.log h, hlast w.log (hshort h)]

/-- A new current transaction: the records of the old one no longer count. -/
theorem not_isolated_of_curTid (hcur : w'.mem.curTid ≠ w.mem.curTid)
    (hroom : w.log.length + 1 ≤ mappedRecords) (hroom' : w'.log.length + 1 ≤ mappedRecords) :
    ¬ Isolated OnPage w.mem.curTid w w' := by
  intro h
  let join : Record := { msgID := .jointx, tid := w.mem.curTid }
  have hjoin : Reaches (w.log ++ [join]) w.mem.curTid := by
    refine ⟨join, ?_, rfl⟩
    rw [stretch_append_same (by simp [join])]
    simp
  obtain ⟨obj, hundone⟩ := exists_undone_ne hjoin
  have hpage : (w.later [join] obj).OnPage := by simpa [OnPage, later] using hroom
  have hpage' : (w'.later [join] obj).OnPage := by simpa [OnPage, later] using hroom'
  have heq := h.abort [join] obj (by simp [join]) hpage'
  rw [abortObject_later, abortObject_later, mapped_later hpage, mapped_later hpage'] at heq
  refine hundone (heq.symm.trans ?_)
  rw [undone, stretch_append_other (by simp) (by simpa [join] using hcur.symm)]
  rfl

/-! ## Behind the page -/

theorem stretch_append_zero (k : ℕ) :
    stretch (log ++ List.replicate k Record.zero) 0 = List.replicate k Record.zero ++ stretch log 0 := by
  rw [stretch_append_same fun r hr => by rw [List.eq_of_mem_replicate hr]; rfl, List.reverse_replicate]

/-- The walk for transaction 0 goes on over the zeros. -/
theorem reaches_append_zero : Reaches (log ++ List.replicate k Record.zero) 0 ↔ Reaches log 0 := by
  unfold Reaches
  rw [stretch_append_zero]
  constructor
  · rintro ⟨r, hr, hjoin⟩
    rcases List.mem_append.mp hr with hr | hr
    · rw [List.eq_of_mem_replicate hr] at hjoin
      simp [Record.zero] at hjoin
    · exact ⟨r, hr, hjoin⟩
  · rintro ⟨r, hr, hjoin⟩
    exact ⟨r, List.mem_append_right _ hr, hjoin⟩

theorem undone_append_zero :
    undone (log ++ List.replicate k Record.zero) 0 obj = undone log 0 obj := by
  have hread : obj.current.readAll (List.replicate k Record.zero) = obj.current := by
    induction k with
    | zero => rfl
    | succ k ih => exact ih
  have hnone : restorations (List.replicate k Record.zero) obj.current = [] :=
    restorations_eq_nil (fun r hr => by rw [List.eq_of_mem_replicate hr]; simp [Record.zero]) _
  unfold undone
  rw [stretch_append_zero, restorations_append, hnone, List.nil_append, hread]

/-- The walk for any other transaction stops there. -/
theorem not_reaches_of_zero (ht : t ≠ 0) (hk : k ≠ 0) :
    ¬ Reaches (log ++ List.replicate k Record.zero) t := by
  rintro ⟨r, hr, -⟩
  rw [stretch_append_other (by simpa using hk) fun r hr => by
    rw [List.eq_of_mem_replicate hr]; exact ht.symm] at hr
  simp at hr

theorem not_reaches_append (h : ¬ Reaches log t) : ¬ Reaches (log ++ List.replicate k Record.zero) t := by
  by_cases ht : t = 0
  · rw [ht, reaches_append_zero]
    exact ht ▸ h
  by_cases hk : k = 0
  · rw [hk]
    simpa using h
  · exact not_reaches_of_zero ht hk

/-- Past the page a rollback with nothing to undo stays one. -/
theorem undone_past_page (hfull : mappedRecords < log.length) (h : ¬ Reaches (mapped log) t) :
    undone (mapped (log ++ rs)) t obj = obj := by
  rw [mapped_append_of_lt hfull]
  exact undone_of_not_reaches (not_reaches_append h)

/-- A restart that finds the last record behind the page aborts transaction 0. -/
theorem restartAborts_past_page (hfull : mappedRecords < log.length) (hne : rs ≠ []) :
    RestartAborts (log ++ rs) t ↔ t = 0 := by
  have hlast : findStateFromRecord (log ++ rs) = some Record.zero := by
    obtain ⟨k, hk⟩ := Nat.exists_eq_succ_of_ne_zero (mt List.length_eq_zero_iff.mp hne)
    rw [findStateFromRecord, mapped_append_of_lt hfull, hk, List.replicate_succ', ← List.append_assoc,
      List.getLast?_concat]
  unfold RestartAborts
  rw [hlast]
  exact ⟨fun h => h.2.symm, fun h => ⟨rfl, h.symm⟩⟩

/-- With nothing to undo on a full page, no rollback restores anything. -/
theorem isolated_past_page (hobj : w'.objData = w.objData) (hrun : w'.mem.isTXRun = w.mem.isTXRun)
    (hlog : w'.log = w.log ++ us) (hne : us ≠ []) (hfull : mappedRecords < w.log.length)
    (hnothing : w.NothingToUndo)
    (hcur : w'.mem.curTid = w.mem.curTid ∨ (w'.mem.curTid = 0 → ¬ Reaches (mapped w.log) 0)) :
    Isolated S w.mem.curTid w w' := by
  have hlater : ∀ rs, w'.log ++ rs = w.log ++ (us ++ rs) := fun rs => by rw [hlog, List.append_assoc]
  refine ⟨hobj, hrun, fun rs obj _ _ => ?_, fun rs obj _ _ => ?_⟩
  · have hobj' : undone (mapped (w'.log ++ rs)) w'.mem.curTid obj = obj := by
      rw [hlater]
      rcases hcur with hcur | hcur
      · rw [hcur]
        exact undone_past_page hfull hnothing
      · by_cases hzero : w'.mem.curTid = 0
        · rw [hzero]
          exact undone_past_page hfull (hcur hzero)
        · rw [mapped_append_of_lt hfull]
          exact undone_of_not_reaches (not_reaches_of_zero hzero (by simp [hne]))
    rw [abortObject_later, abortObject_later, hobj', undone_past_page hfull hnothing]
  · rw [recoverObject_later, recoverObject_later, hlater, undone_past_page hfull hnothing,
      undone_past_page hfull hnothing, ite_self, ite_self]

/-- The walk does not get past a record of another transaction. -/
theorem mem_of_mem_stretch {r u : Record} (hu : u.tid ≠ t) (h : r ∈ stretch (log ++ u :: rs) t) :
    r ∈ rs := by
  unfold stretch at h
  rw [List.reverse_append, List.reverse_cons, List.append_assoc, List.takeWhile_append] at h
  split at h
  · simpa [hu] using h
  · exact List.mem_reverse.mp ((List.takeWhile_sublist _).subset h)

/-- Records of another transaction on the page keep the walk from what stands before them. -/
theorem not_reaches_behind {s : List Record} (hne : us ≠ []) (hus : ∀ r ∈ us, r.tid ≠ t)
    (hroom : log.length ≤ mappedRecords) (hs : ∀ r ∈ s, r.msgID ≠ .jointx) :
    ¬ Reaches (mapped (log ++ us ++ s)) t := by
  rintro ⟨r, hr, hjoin⟩
  obtain ⟨u, us', rfl⟩ := List.exists_cons_of_ne_nil hne
  -- the first of the foreign records can be read
  have hsplit : log ++ u :: us' ++ s = log ++ [u] ++ (us' ++ s) := by simp
  obtain ⟨u', hu', htid⟩ : ∃ u', mapped (log ++ [u]) = mapped log ++ [u'] ∧ u'.tid = u.tid := by
    refine ⟨_, window_concat, ?_⟩
    split
    · rfl
    · rw [if_pos (by omega)]
      rfl
  obtain ⟨rs', hrs', hcases⟩ := mapped_append (log ++ [u]) (us' ++ s)
  have hforeign : u'.tid ≠ t := by
    rw [htid]
    exact hus u (by simp)
  rw [hsplit, hrs', hu', List.append_assoc, List.singleton_append] at hr
  have hown : r.tid = t := by simpa using List.mem_takeWhile_imp hr
  rcases hcases r (mem_of_mem_stretch hforeign hr) with ⟨r', hr', hid, htid'⟩ | rfl
  · rcases List.mem_append.mp hr' with hr' | hr'
    · exact hus r' (by simp [hr']) (htid'.symm.trans hown)
    · exact hs r' hr' (hid.symm.trans hjoin)
  · simp [Record.zero] at hjoin

/-- Where records of another transaction push a later join record off the page, a restart no
    longer rolls back to it. -/
theorem not_isolated_of_room (hlog : w'.log = w.log ++ us) (hne : us ≠ []) (hus : ∀ r ∈ us, r.tid ≠ t)
    (hroom : w.log.length ≤ mappedRecords) : ¬ Isolated (fun _ => True) t w w' := by
  intro h
  -- `t` fills the page and joins again with the last record that can be read
  let join : Record := { msgID := .jointx, tid := t }
  let fill : List Record := List.replicate (mappedRecords - w.log.length) { msgID := .other 0, tid := t }
  have hfill : ∀ r ∈ fill, r.tid = t ∧ r.msgID ≠ .jointx := fun r hr => by
    rw [List.eq_of_mem_replicate hr]
    simp
  have hlen : (w.log ++ fill).length = mappedRecords := by
    simp only [fill, List.length_append, List.length_replicate]
    omega
  have hseen : mapped (w.log ++ (fill ++ [join])) = w.log ++ fill ++ [join.cut] := by
    rw [← List.append_assoc, mapped, window_concat, if_neg (by omega), if_pos hlen,
      window_eq_self hlen.le]
  have haborts : RestartAborts (w.log ++ (fill ++ [join])) t := by
    unfold RestartAborts findStateFromRecord
    rw [hseen, List.getLast?_concat]
    exact ⟨rfl, rfl⟩
  have hreach : Reaches (mapped (w.log ++ (fill ++ [join]))) t := by
    refine ⟨join.cut, ?_, rfl⟩
    have hjoin : ∀ r ∈ [join.cut], r.tid = t := by simp [join, Record.cut]
    rw [hseen, stretch_append_same hjoin]
    simp
  obtain ⟨obj, hundone⟩ := exists_undone_ne hreach
  have htids : ∀ r ∈ fill ++ [join], r.tid = t := by
    intro r hr
    rcases List.mem_append.mp hr with hr | hr
    · exact (hfill r hr).1
    · rw [List.mem_singleton.mp hr]
  have heq := h.recover (fill ++ [join]) obj htids trivial
  rw [recoverObject_later, recoverObject_later, if_pos haborts] at heq
  refine hundone (heq.symm.trans ?_)
  -- with the foreign records the join record stands behind the page
  have hpast : mappedRecords < (w'.log ++ fill).length := by
    have hpos := List.length_pos_iff.mpr hne
    rw [hlog]
    simp only [List.length_append] at hlen ⊢
    omega
  rw [← List.append_assoc]
  by_cases ht : t = 0
  · have hnot : ¬ Reaches (mapped (w'.log ++ fill)) t := by
      rw [hlog]
      exact not_reaches_behind hne hus hroom fun r hr => (hfill r hr).2
    rw [undone_past_page hpast hnot, ite_self]
  · rw [if_neg (mt (restartAborts_past_page hpast (by simp)).mp ht)]

/-- The object and `isTXRun` stay, but records of another transaction are written: every later
    rollback counts. -/
theorem alwaysIsolated_iff_of_records (us : List Record) (hobj : w'.objData = w.objData)
    (hrun : w'.mem.isTXRun = w.mem.isTXRun) (hcur : w'.mem.curTid = w.mem.curTid)
    (hlog : w'.log = w.log ++ us) (hne : us ≠ []) (hus : ∀ r ∈ us, r.tid ≠ w.mem.curTid) :
    Isolated (fun _ => True) w.mem.curTid w w' ↔ w.RecordsUnseen := by
  by_cases hroom : w.log.length ≤ mappedRecords
  · exact iff_of_false (not_isolated_of_room hlog hne hus hroom) fun h => absurd h.1 (by omega)
  have hfull : mappedRecords < w.log.length := by omega
  rw [RecordsUnseen, and_iff_right hfull]
  have hlater : ∀ rs, w'.log ++ rs = w.log ++ (us ++ rs) := fun rs => by rw [hlog, List.append_assoc]
  constructor
  · intro h
    by_contra hno
    obtain ⟨hreach, hrestart⟩ := not_or.mp hno
    obtain ⟨obj, hundone⟩ := exists_undone_ne (not_not.mp hreach)
    by_cases hzero : w.mem.curTid = 0
    · -- without the records a restart asks for a decision, or aborts another transaction
      have heq := h.recover [] obj (by simp) trivial
      have hrestart : ¬ RestartAborts (w.log ++ []) w.mem.curTid := by
        rw [List.append_nil, hzero]
        exact fun hab => hrestart ⟨hzero, hab⟩
      rw [recoverObject_later, recoverObject_later, if_neg hrestart, hlater,
        if_pos ((restartAborts_past_page hfull (by simp [hne])).mpr hzero), mapped_append_of_lt hfull,
        hzero, undone_append_zero] at heq
      rw [hzero] at hundone
      exact hundone heq
    · have heq := h.abort [] obj (by simp) trivial
      rw [abortObject_later, abortObject_later, List.append_nil w.log, hlater, hcur,
        mapped_append_of_lt hfull, undone_of_not_reaches (not_reaches_of_zero hzero (by simp [hne]))] at heq
      exact hundone heq.symm
  · rintro (hnothing | ⟨hzero, haborts⟩)
    · exact isolated_past_page hobj hrun hlog hne hfull hnothing (Or.inl hcur)
    -- the rollback of transaction 0 is the same from every later log
    have hsame : ∀ rs obj, undone (mapped (w.log ++ rs)) 0 obj = undone (mapped w.log) 0 obj := by
      intro rs obj
      rw [mapped_append_of_lt hfull, undone_append_zero]
    have haborts' : ∀ rs, RestartAborts (w.log ++ rs) 0 := by
      intro rs
      by_cases hnil : rs = []
      · rw [hnil, List.append_nil]
        exact haborts
      · exact (restartAborts_past_page hfull hnil).mpr rfl
    refine ⟨hobj, hrun, fun rs obj _ _ => ?_, fun rs obj _ _ => ?_⟩
    · rw [abortObject_later, abortObject_later, hcur, hlater, hzero, hsame, hsame]
    · rw [recoverObject_later, recoverObject_later, hlater, hzero, if_pos (haborts' _),
        if_pos (haborts' _), hsame, hsame]

/-- The same with a new current transaction. -/
theorem alwaysIsolated_iff_of_curTid (us : List Record) (hobj : w'.objData = w.objData)
    (hrun : w'.mem.isTXRun = w.mem.isTXRun) (hcur : w'.mem.curTid ≠ w.mem.curTid)
    (hlog : w'.log = w.log ++ us) (hne : us ≠ []) (hus : ∀ r ∈ us, r.tid ≠ w.mem.curTid) :
    Isolated (fun _ => True) w.mem.curTid w w' ↔ mappedRecords < w.log.length ∧ w.NothingToUndo ∧
      (w'.mem.curTid = 0 → ¬ Reaches (mapped w.log) 0) := by
  by_cases hroom : w.log.length ≤ mappedRecords
  · exact iff_of_false (not_isolated_of_room hlog hne hus hroom) fun h => absurd h.1 (by omega)
  have hfull : mappedRecords < w.log.length := by omega
  rw [and_iff_right hfull]
  refine ⟨fun h => ?_, fun h => isolated_past_page hobj hrun hlog hne hfull h.1 (Or.inr h.2)⟩
  -- the rollbacks of the two transactions leave the same object
  have habort : ∀ obj, undone (mapped w.log ++ List.replicate us.length Record.zero) w'.mem.curTid obj =
      undone (mapped w.log) w.mem.curTid obj := by
    intro obj
    have heq := h.abort [] obj (by simp) trivial
    rwa [abortObject_later, abortObject_later, List.append_nil, List.append_nil, hlog,
      mapped_append_of_lt hfull] at heq
  have hother : ∀ {t}, Reaches (mapped w.log) t → t ≠ 0 → ¬ Reaches (mapped w.log) 0 := by
    rintro t ⟨r, hr, -⟩ ht ⟨r', hr', -⟩
    obtain ⟨init, last, hlast⟩ := (List.eq_nil_or_concat' (mapped w.log)).resolve_left fun hnil => by
      rw [hnil] at hr
      simp [stretch] at hr
    rw [hlast] at hr hr'
    by_cases htid : last.tid = t
    · rw [stretch_append_other (by simp) (by simpa [htid] using ht)] at hr'
      simp at hr'
    · rw [stretch_append_other (by simp) (by simpa using htid)] at hr
      simp at hr
  have hnothing : w.NothingToUndo := by
    intro hreach
    obtain ⟨obj, hundone⟩ := exists_undone_ne hreach
    refine hundone ((habort obj).symm.trans (undone_of_not_reaches ?_))
    by_cases hzero : w'.mem.curTid = 0
    · rw [hzero, reaches_append_zero]
      exact hother hreach fun h => hcur (hzero.trans h.symm)
    · exact not_reaches_of_zero hzero (by simpa using hne)
  refine ⟨hnothing, fun hzero hreach => ?_⟩
  obtain ⟨obj, hundone⟩ := exists_undone_ne hreach
  have heq := habort obj
  rw [hzero, undone_append_zero, undone_of_not_reaches hnothing] at heq
  exact hundone heq

/-! ## The two receive paths -/

/-- A decision ends the transaction, whatever it is about. -/
theorem not_isolated_of_isTXRun (hrun : w.mem.isTXRun = true) (hrun' : w'.mem.isTXRun = false) :
    ¬ Isolated S t w w' := by
  intro h
  rw [h.isTXRun, hrun] at hrun'
  exact absurd hrun' (by decide)

theorem isTXRun_exec_decide (w : Worker) (es : List WorkerEffect) (r : Record)
    {post : List WorkerEffect} (hpost : post = [] ∨ post = [.control .cmdLoop]) :
    (process.exec w (es ++ [.log r, .isTXRun false] ++ post)).mem.isTXRun = false := by
  rw [Process.exec_append, Process.exec_append]
  rcases hpost with rfl | rfl <;> rfl

/-- While waiting, only the decisions do harm. -/
theorem isolated_iff_waiting {a : SockAddr} (hwait : w.mem.control = .waiting a)
    (hrun : w.mem.isTXRun = true) :
    let w' := process.step w ⟨.manager src m, none⟩
    (Isolated (fun _ => True) w.mem.curTid w w' ↔ w.AlwaysHarmless m) ∧
      (Isolated OnPage w.mem.curTid w w' ↔ w.Harmless m) := by
  have hstep : process.step w ⟨.manager src m, none⟩ =
      process.exec w (w.waitingForCoordResponse src m) := by
    simp [Process.step, Process.performed, handle, hwait]
  have hloop : w.mem.control ≠ .cmdLoop := by
    rw [hwait]
    simp
  simp only [hstep]
  by_cases hk : m.msgID = .decideCommit ∨ m.msgID = .decideAbort
  · -- a decision ends the transaction, whatever it is about
    have hharm : ¬ w.AlwaysHarmless m ∧ ¬ w.Harmless m := by
      rcases hk with hk | hk <;> simp [AlwaysHarmless, Harmless, hk]
    have hended : (process.exec w (w.waitingForCoordResponse src m)).mem.isTXRun = false := by
      rcases hk with hk | hk
      · simp only [waitingForCoordResponse, hk, handleDecideCommit]
        exact isTXRun_exec_decide w _ _ (Or.inr rfl)
      · simp only [waitingForCoordResponse, hk, handleDecideAbort, ← List.append_assoc]
        exact isTXRun_exec_decide w _ _ (Or.inr rfl)
    exact ⟨iff_of_false (not_isolated_of_isTXRun hrun hended) hharm.1,
      iff_of_false (not_isolated_of_isTXRun hrun hended) hharm.2⟩
  · have hharmless : w.AlwaysHarmless m ∧ w.Harmless m := by
      unfold AlwaysHarmless Harmless
      constructor <;> split <;> simp_all
    -- any other datagram is received and ends the wait
    have heffects : w.waitingForCoordResponse src m = w.receive src m ++ [.control .cmdLoop] := by
      unfold waitingForCoordResponse
      split <;> simp_all
    rw [heffects]
    exact ⟨iff_of_true (isolated_of_same rfl rfl rfl rfl) hharmless.1,
      iff_of_true (isolated_of_same rfl rfl rfl rfl) hharmless.2⟩

/-- A vote of another transaction. -/
theorem isolated_iff_prepareCommit (hrun : w.mem.isTXRun = true)
    (htid : m.tid ≠ w.mem.curTid) :
    let w' := process.exec w (w.receive src m ++ w.handlePrepareCommit src m)
    (Isolated (fun _ => True) w.mem.curTid w w' ↔ w.RecordsUnseen ∧ 0 ≤ w.mem.delay) ∧
      (w.log.length + 2 ≤ mappedRecords →
        (Isolated OnPage w.mem.curTid w w' ↔ w.NothingToUndo ∧ 0 ≤ w.mem.delay)) := by
  by_cases hdelay : w.mem.delay < 0
  · -- the process ends at `sendMsg`
    have hended : (process.exec w (w.receive src m ++ w.handlePrepareCommit src m)).mem.isTXRun = false := by
      have hexit : .exit ∈ w.receive src m ++ w.handlePrepareCommit src m := by
        simp [handlePrepareCommit, hdelay, exit_mem_sendMsg]
      have hlast : ExitLast (w.receive src m ++ w.handlePrepareCommit src m) :=
        ExitLast.append (by simp [receive]) (exitLast_handlePrepareCommit w src m)
      rw [hlast.mem_exec hexit]
    exact ⟨iff_of_false (not_isolated_of_isTXRun hrun hended) fun h => absurd h.2 (not_le.mpr hdelay),
      fun _ => iff_of_false (not_isolated_of_isTXRun hrun hended) fun h => absurd h.2 (not_le.mpr hdelay)⟩
  · rw [and_iff_left (not_lt.mp hdelay), and_iff_left (not_lt.mp hdelay)]
    simp only [handlePrepareCommit, hdelay, if_false, sendMsg_of_not_neg hdelay]
    -- two records are written, and nothing else of the three changes
    have hus : ∀ r ∈ [({ msgID := .prepareCommit, tid := m.tid } : Record),
        { msgID := .voteCommit, tid := m.tid }], r.tid ≠ w.mem.curTid := by simpa using htid
    refine ⟨alwaysIsolated_iff_of_records _ ?_ ?_ ?_ ?_ (by simp) hus, fun hroom =>
      isolated_iff_of_records _ ?_ ?_ ?_ ?_ (by simp) hus ?_⟩
    all_goals split <;> simp [receive, Worker.apply, withMem, OnPage]
    all_goals exact hroom

theorem isolated_iff_cmdLoop (hloop : w.mem.control = .cmdLoop) (hrun : w.mem.isTXRun = true)
    (htid : m.tid ≠ w.mem.curTid) :
    let w' := process.step w ⟨.manager src m, none⟩
    (Isolated (fun _ => True) w.mem.curTid w w' ↔ w.AlwaysHarmless m) ∧
      (w.log.length + 2 ≤ mappedRecords → (Isolated OnPage w.mem.curTid w w' ↔ w.Harmless m)) := by
  have hstep : process.step w ⟨.manager src m, none⟩ = process.exec w (w.handleManagerMsg src m) := by
    simp [Process.step, Process.performed, handle, hloop]
  have hjoin : ∀ r ∈ [w.joinRecord m], r.tid ≠ w.mem.curTid := by simpa [joinRecord] using htid
  simp only [hstep]
  unfold handleManagerMsg AlwaysHarmless Harmless
  split
  · -- `JOIN_FAIL`
    simp only [‹m.msgID = _›, hloop, ne_eq, not_true_eq_false, false_or]
    refine ⟨alwaysIsolated_iff_of_records [w.joinRecord m] rfl rfl rfl rfl (by simp) hjoin, fun hroom =>
      isolated_iff_of_records [w.joinRecord m] rfl rfl rfl rfl (by simp) hjoin ?_⟩
    simp [OnPage, receive, Worker.apply, withMem]
    omega
  · -- `JOIN_SUCCESS`
    simp only [‹m.msgID = _›, hloop, ne_eq, not_true_eq_false, false_or, iff_false]
    refine ⟨alwaysIsolated_iff_of_curTid [w.joinRecord m] rfl hrun.symm htid rfl (by simp) hjoin,
      fun hroom => not_isolated_of_curTid htid (by omega) ?_⟩
    simp [receive, Worker.apply, withMem]
    omega
  · -- `DECIDE_COMMIT`
    simp only [‹m.msgID = _›, iff_false]
    have hended := isTXRun_exec_decide w (w.receive src m) { msgID := .decideCommit, tid := m.tid }
      (Or.inl rfl)
    rw [List.append_nil] at hended
    exact ⟨not_isolated_of_isTXRun hrun hended, fun _ => not_isolated_of_isTXRun hrun hended⟩
  · -- `PREPARE_COMMIT`
    simp only [‹m.msgID = _›, hloop, ne_eq, not_true_eq_false, false_or]
    exact isolated_iff_prepareCommit hrun htid
  · -- `DECIDE_ABORT`
    simp only [‹m.msgID = _›, iff_false]
    have hended := isTXRun_exec_decide w (w.receive src m ++ w.rollback w.mem.curTid)
      { msgID := .decideAbort, tid := m.tid } (Or.inl rfl)
    rw [List.append_nil, List.append_assoc] at hended
    exact ⟨not_isolated_of_isTXRun hrun hended, fun _ => not_isolated_of_isTXRun hrun hended⟩
  · -- the kinds that are not handled
    rw [List.append_nil]
    refine ⟨iff_of_true (isolated_of_same rfl rfl rfl rfl) ?_, fun _ =>
      iff_of_true (isolated_of_same rfl rfl rfl rfl) ?_⟩
    all_goals split <;> simp_all

end Worker

end DistributedSystem.Transaction
