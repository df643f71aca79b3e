import DistributedSystem.Transaction.Isolation
import DistributedSystem.Transaction.Rollback

/-!
# Failed joins

A `JOIN_FAIL` in the command loop is logged as a join record of the transaction it refuses.
A later walk over the log stops there, and a restart takes the refused transaction for the
current one. While a transaction `t` runs, the log is therefore in one of two conditions:
the walk still reaches a join record of `t`, and what it restores is `O`; or the object is
`O`, and no walk, of whatever transaction, changes it. A failed join leads from the first
condition to the second one, and it does so without harm only when nothing of `t` has to be
undone.
-/

namespace DistributedSystem.Transaction

open DistributedSystem.Library

namespace Worker

variable {w w' : Worker} {t : Tid} {O : ObjectData} {newer older log : List Record} {r : Record}
  {e : WorkerEffect} {inp : Input} {a : Act Input} {as : List (Act Input)}

/-! ## The walk to the join record -/

/-- The oldest join record that the walk for `t` reaches is `r`, and with the records `newer`
    written since then a rollback gives `O`. -/
structure Undoable (O : ObjectData) (t : Tid) (newer older : List Record) (r : Record)
    (w : Worker) : Prop where
  stretch : stretch w.log t = newer ++ r :: older
  join : r.msgID = .jointx
  oldest : ∀ r ∈ older, r.msgID ≠ .jointx
  clock : r.vectorClock = O.vectorClock
  time : r.lastUpdateTime = O.lastUpdateTime
  undoes : Undoes newer.reverse O.current w.objData.current

/-- A rollback of `t` reaches a join record and gives `O`. -/
def Recoverable (O : ObjectData) (t : Tid) (w : Worker) : Prop :=
  ∃ newer older r, Undoable O t newer older r w

theorem exists_oldest_join {rs : List Record} (h : ∃ r ∈ rs, r.msgID = .jointx) :
    ∃ newer r older, rs = newer ++ r :: older ∧ r.msgID = .jointx ∧
      ∀ r' ∈ older, r'.msgID ≠ .jointx := by
  induction rs with
  | nil => simp at h
  | cons r rs ih =>
      by_cases hrest : ∃ r' ∈ rs, r'.msgID = .jointx
      · obtain ⟨newer, r', older, rfl, hjoin, holder⟩ := ih hrest
        exact ⟨r :: newer, r', older, rfl, hjoin, holder⟩
      · have hr : r.msgID = .jointx := by
          obtain ⟨r', hr', hjoin⟩ := h
          rcases List.mem_cons.mp hr' with rfl | hr'
          · exact hjoin
          · exact absurd ⟨r', hr', hjoin⟩ hrest
        exact ⟨[], r, rs, rfl, hr, fun r' hr' hjoin => hrest ⟨r', hr', hjoin⟩⟩

/-- Without a join record in reach a rollback does nothing. -/
theorem rollback_of_not_reaches (h : ¬ Reaches (mapped w.log) t) : w.rollback t = [] := by
  have hnone : restorations (stretch (mapped w.log) t) w.objData.current = [] :=
    restorations_eq_nil (fun r hr hjoin => h ⟨r, hr, hjoin⟩) _
  rw [rollback, readValFromRecord_eq_mapped, hnone]
  rfl

/-- A complete rollback gives `O`, whatever object it finds. -/
theorem Undoable.exec_rollback (h : Undoable O t newer older r w) (hpage : w.OnPage) (w' : Worker) :
    (process.exec w' (w.rollback t)).objData = O := by
  have hvalues : w.objData.current.readAll newer = O.current := by
    have hread := h.undoes.readAll_eq
    rwa [List.reverse_reverse] at hread
  have hlast : (restorations (Transaction.stretch w.log t) w.objData.current).getLast? =
      some (O.current, r) := by
    rw [h.stretch, getLast?_restorations h.join h.oldest, hvalues]
  rw [rollback, readValFromRecord_eq hpage, exec_restorations, hlast]
  simp [withObj, restoredObject, ObjectData.current, h.clock, h.time]

/-- What a rollback would give is what the log protects. -/
theorem recoverable_of_reaches (h : Reaches w.log t) : Recoverable (undone w.log t w.objData) t w := by
  obtain ⟨newer, r, older, hsplit, hjoin, holder⟩ := exists_oldest_join h
  have hobj : undone w.log t w.objData = restoredObject (w.objData.current.readAll newer, r) := by
    rw [undone, hsplit, getLast?_restorations hjoin holder]
    rfl
  have hundoes : Undoes newer.reverse (w.objData.current.readAll newer) w.objData.current :=
    ⟨(lawful_fieldA.readAll newer w.objData.current).symm,
      (lawful_fieldB.readAll newer w.objData.current).symm,
      (lawful_fieldID.readAll newer w.objData.current).symm⟩
  rw [hobj]
  exact ⟨newer, older, r, hsplit, hjoin, holder, rfl, rfl, hundoes⟩

/-- Every rollback over a log that protects `O` gives `O`. -/
theorem Undoable.undone_eq (h : Undoable O t newer older r w) : undone w.log t w.objData = O := by
  have hvalues : w.objData.current.readAll newer = O.current := by
    have hread := h.undoes.readAll_eq
    rwa [List.reverse_reverse] at hread
  rw [undone, h.stretch, getLast?_restorations h.join h.oldest, hvalues]
  simp [restoredObject, ObjectData.current, h.clock, h.time]

theorem Undoable.congr (h : Undoable O t newer older r w) (hlog : w'.log = w.log)
    (hcurrent : w'.objData.current = w.objData.current) : Undoable O t newer older r w' where
  stretch := by rw [hlog]; exact h.stretch
  join := h.join
  oldest := h.oldest
  clock := h.clock
  time := h.time
  undoes := by rw [hcurrent]; exact h.undoes

/-- A record of `t` is written. -/
theorem Undoable.apply_log {r' : Record} (h : Undoable O t newer older r w) (htid : r'.tid = t)
    (hundoes : Undoes (newer.reverse ++ [r']) O.current w.objData.current) :
    Undoable O t (r' :: newer) older r (w.apply (.log r')) where
  stretch := by
    show Transaction.stretch (w.log ++ [r']) t = _
    rw [stretch_append_same (by simpa using htid), h.stretch]
    rfl
  join := h.join
  oldest := h.oldest
  clock := h.clock
  time := h.time
  undoes := by
    rw [List.reverse_cons]
    exact hundoes

/-- A write of a rollback, from whatever intermediate object. -/
theorem Undoable.restore (h : Undoable O t newer older r w) (hpage : w.OnPage)
    (h' : Undoable O t newer older r w') (he : e ∈ w.rollback t) : Undoable O t newer older r (w'.apply e) := by
  have hlog : (w'.apply e).log = w'.log := log_apply_of_isRestore (mem_rollback he)
  obtain ⟨x, hx, hex⟩ := List.mem_flatMap.mp he
  rw [readValFromRecord_eq hpage, h.stretch] at hx
  refine ⟨by rw [hlog]; exact h'.stretch, h.join, h.oldest, h.clock, h.time, ?_⟩
  exact undoes_apply_restore h'.undoes (h.undoes.of_mem_restorations h.oldest hx) hex

theorem Recoverable.plain (h : Recoverable O t w) (he : e.isPlain)
    (htid : ∀ r, e = .log r → r.tid = t) : Recoverable O t (w.apply e) := by
  obtain ⟨newer, older, r, h⟩ := h
  rcases plain_cases w he with ⟨r', rfl, hr'⟩ | ⟨hlog, hobj⟩
  · exact ⟨_, _, _, h.apply_log (htid r' rfl) (h.undoes.concat hr')⟩
  · exact ⟨_, _, _, h.congr hlog (congrArg ObjectData.current hobj)⟩

/-- The last record is one of `t`. -/
theorem Recoverable.log_eq (h : Recoverable O t w) : ∃ init r, w.log = init ++ [r] ∧ r.tid = t := by
  obtain ⟨newer, older, r, h⟩ := h
  have hne : stretch w.log t ≠ [] := by
    rw [h.stretch]
    simp
  rcases List.eq_nil_or_concat' w.log with hnil | ⟨init, r', hlog⟩
  · rw [hnil] at hne
    exact absurd rfl hne
  · refine ⟨init, r', hlog, ?_⟩
    by_contra hno
    rw [hlog, stretch_append_other (by simp) (by simpa using hno)] at hne
    exact hne rfl

theorem Recoverable.recoveredTid (h : Recoverable O t w) (hpage : w.OnPage) : w.recoveredTid = t := by
  obtain ⟨init, r, hlog, htid⟩ := h.log_eq
  unfold Worker.recoveredTid
  rw [findStateFromRecord_eq hpage, hlog, List.getLast?_concat]
  exact htid

/-! ## Objects that no walk changes -/

/-- The record restores nothing but the clock and the time of `O`. -/
def Inert (O : ObjectData) (r : Record) : Prop :=
  r.msgID.isUpdate = false ∧
    (r.msgID = .jointx → r.vectorClock = O.vectorClock ∧ r.lastUpdateTime = O.lastUpdateTime)

/-- The object is `O`, and no walk changes it. -/
structure Frozen (O : ObjectData) (w : Worker) : Prop where
  object : w.objData = O
  inert : ∀ x, ∀ r ∈ stretch w.log x, Inert O r

theorem readAll_of_inert {rs : List Record} (h : ∀ r ∈ rs, Inert O r) (old : OldValues) :
    old.readAll rs = old := by
  induction rs generalizing old with
  | nil => rfl
  | cons r rs ih =>
      have hread : old.read r = old := by
        have hkind := (h r (by simp)).1
        unfold OldValues.read
        split <;> simp_all [MsgId.isUpdate]
      show (old.read r).readAll rs = old
      rw [hread]
      exact ih (fun r' hr' => h r' (by simp [hr'])) old

theorem undoes_of_inert {base : OldValues} (h : ∀ r ∈ log, Inert O r) : Undoes log base base := by
  induction log using List.reverseRecOn with
  | nil => exact Undoes.nil base
  | append_singleton log r ih =>
      exact (ih fun r' hr' => h r' (by simp [hr'])).concat (h r (by simp)).1

/-- A record that is inert can be written. -/
theorem Frozen.apply_log (h : Frozen O w) (hr : Inert O r) : Frozen O (w.apply (.log r)) where
  object := h.object
  inert x r' hr' := by
    have hlog : (w.apply (.log r)).log = w.log ++ [r] := rfl
    rw [hlog] at hr'
    by_cases hx : r.tid = x
    · rw [stretch_append_same (by simpa using hx)] at hr'
      rcases List.mem_append.mp hr' with hr' | hr'
      · rw [List.mem_singleton.mp (List.mem_reverse.mp hr')]
        exact hr
      · exact h.inert x r' hr'
    · rw [stretch_append_other (by simp) (by simpa using hx)] at hr'
      simp at hr'

theorem Frozen.congr (h : Frozen O w) (hlog : w'.log = w.log) (hobj : w'.objData = w.objData) :
    Frozen O w' where
  object := hobj.trans h.object
  inert := by rw [hlog]; exact h.inert

/-- A write of a rollback puts down what is there. -/
theorem Frozen.restore (h : Frozen O w) (hpage : w.OnPage) (h' : Frozen O w') {x : Tid} (he : e ∈ w.rollback x) :
    Frozen O (w'.apply e) := by
  refine h'.congr (log_apply_of_isRestore (mem_rollback he)) ?_
  obtain ⟨y, hy, hey⟩ := List.mem_flatMap.mp he
  rw [readValFromRecord_eq hpage, h.object] at hy
  obtain ⟨hjoin, newer, older, hsplit, hvalues⟩ := mem_restorations hy
  have hinert : ∀ r ∈ newer ++ y.2 :: older, Inert O r := hsplit ▸ h.inert x
  obtain ⟨hclock, htime⟩ := (hinert y.2 (by simp)).2 hjoin
  rw [readAll_of_inert (fun r hr => hinert r (by simp [hr]))] at hvalues
  have hobj := h'.object
  simp only [Worker.restore, List.mem_append, List.mem_cons, List.not_mem_nil, or_false, List.mem_map,
    List.mem_finRange, true_and] at hey
  rcases hey with ((rfl | rfl | rfl) | ⟨k, rfl⟩) | rfl
  all_goals simp only [apply, withObj, hobj, hvalues, ObjectData.current, hclock, htime,
    Function.update_eq_self]

/-- From an object that no walk changes, the walk to a join record gives that object. -/
theorem Frozen.recoverable (h : Frozen O w) (hreach : Reaches w.log t) : Recoverable O t w := by
  obtain ⟨newer, r, older, hsplit, hjoin, holder⟩ := exists_oldest_join hreach
  have hinert : ∀ r' ∈ newer ++ r :: older, Inert O r' := by
    rw [← hsplit]
    exact h.inert t
  obtain ⟨hclock, htime⟩ := (hinert r (by simp)).2 hjoin
  refine ⟨newer, older, r, hsplit, hjoin, holder, hclock, htime, ?_⟩
  rw [h.object]
  exact undoes_of_inert fun r' hr' => hinert r' (by simp [List.mem_reverse.mp hr'])

/-! ## What the handlers log -/

@[simp] theorem log_notMem_receive {src : SockAddr} {m : TxMessage} : .log r ∉ w.receive src m := by
  simp [receive]

@[simp] theorem log_notMem_rollback {x : Tid} : .log r ∉ w.rollback x := fun h =>
  absurd (mem_rollback h) (by simp [WorkerEffect.isRestore])

@[simp] theorem log_notMem_sendMsg {vc : VClock} {dst : SockAddr} {m : TxMessage} :
    .log r ∉ w.sendMsg vc dst m := by
  intro h
  rcases mem_sendMsg h with h | h
  · cases h
  · exact absurd h (by simp [WorkerEffect.isInternal])

theorem log_notMem_handleBeginJoin {c : MsgType} {toIP : Option ℕ} :
    .log r ∉ w.handleBeginJoin c toIP := by
  cases toIP <;> simp [handleBeginJoin]

/-- A join record is written for a datagram about a join, and holds the clock and the time of
    the object. -/
theorem join_logged (h : .log r ∈ w.handle inp) (hr : r.msgID = .jointx) :
    r.vectorClock = w.objData.vectorClock ∧ r.lastUpdateTime = w.objData.lastUpdateTime := by
  cases inp with
  | cmd c calls =>
      simp only [handle, handleCmdMsg] at h
      split at h
      all_goals
        simp [log_notMem_handleBeginJoin, handleNewA, handleNewB, handleNewIdStr, updateObject,
          handleCrash, handleCommit, handleAbort] at h
      -- the records of an update, a commit and an abort are of their own kinds
      all_goals simp_all
  | pollTimeout =>
      simp only [handle] at h
      split at h <;> simp [pollDecision] at h
  | restart =>
      simp only [handle, restart] at h
      split at h
      · simp at h
      · simp at h
        simp [h] at hr
  | manager src m =>
      simp only [handle] at h
      split at h
      · simp only [waitingForCoordResponse, handleDecideCommit, handleDecideAbort] at h
        split at h <;> simp at h
        all_goals simp [h] at hr
      · simp only [handleManagerMsg] at h
        split at h
        · simp at h
          rw [h]
          exact ⟨rfl, rfl⟩
        · simp at h
          rw [h]
          exact ⟨rfl, rfl⟩
        · simp [handleDecideCommit] at h
          simp [h] at hr
        · simp only [handlePrepareCommit] at h
          simp at h
          rcases h with rfl | ⟨-, rfl⟩ <;> simp at hr
        · simp [handleDecideAbort] at h
          simp [h] at hr
        · simp at h

/-! ## While a transaction runs -/

/-- A `JOIN_FAIL` for another transaction than `t`. -/
def FailsJoin (t : Tid) : Input → Prop
  | .manager _ m => m.msgID = .joinFail ∧ m.tid ≠ t
  | _ => False

instance (t : Tid) : ∀ inp, Decidable (FailsJoin t inp)
  | .manager _ _ => inferInstanceAs (Decidable (_ ∧ _))
  | .cmd _ _ | .pollTimeout | .restart => isFalse id

/-- What the worker is given during `t`: commands while `t` is running, datagrams about `t`,
    and datagrams about others that neither start, prepare nor decide them. -/
def During (t : Tid) (w : Worker) : Input → Prop
  | .cmd _ _ => w.mem.isTXRun = true ∧ w.mem.curTid = t
  | .manager _ m => m.tid = t ∨ (m.msgID ≠ .joinSuccess ∧ m.msgID ≠ .prepareCommit ∧
      m.msgID ≠ .decideCommit ∧ m.msgID ≠ .decideAbort)
  | _ => True

instance (t : Tid) (w : Worker) : ∀ inp, Decidable (w.During t inp)
  | .cmd _ _ => inferInstanceAs (Decidable (_ ∧ _))
  | .manager _ _ => inferInstanceAs (Decidable (_ ∨ _))
  | .pollTimeout | .restart => isTrue trivial

/-- `NEW_A`, `NEW_B` or `NEW_IDSTR` -/
def Updates : Input → Prop
  | .cmd m _ => m.msgID.isUpdate = true
  | _ => False

instance : ∀ inp, Decidable (Updates inp)
  | .cmd _ _ => inferInstanceAs (Decidable (_ = _))
  | .manager _ _ | .pollTimeout | .restart => isFalse id

/-- Nothing of `t` has to be undone when a failed join is logged, and the object is changed
    only while the log reaches a join record of `t`. -/
def Spared (t : Tid) (w : Worker) (inp : Input) : Prop :=
  (FailsJoin t inp → w.mem.control = .cmdLoop → undone w.log t w.objData = w.objData) ∧
    (Updates inp → Reaches w.log t)

instance (t : Tid) (w : Worker) (inp : Input) : Decidable (w.Spared t inp) :=
  inferInstanceAs (Decidable (_ ∧ _))

theorem failsJoin_cases (h : FailsJoin t inp) :
    ∃ src m, inp = .manager src m ∧ m.msgID = .joinFail ∧ m.tid ≠ t := by
  cases inp with
  | manager src m => exact ⟨src, m, rfl, h⟩
  | cmd c calls => exact h.elim
  | pollTimeout => exact h.elim
  | restart => exact h.elim

theorem updates_cases (h : Updates inp) : ∃ m calls, inp = .cmd m calls ∧ m.msgID.isUpdate = true := by
  cases inp with
  | cmd m calls => exact ⟨m, calls, rfl, h⟩
  | manager src m => exact h.elim
  | pollTimeout => exact h.elim
  | restart => exact h.elim

/-- The two conditions of log and object, and the transaction that a rollback would undo. -/
def Tracked (O : ObjectData) (t : Tid) (w : Worker) : Prop :=
  (Recoverable O t w ∧ (w.mem.control = .down ∨ w.mem.curTid = t)) ∨ Frozen O w

theorem rollbackTid_of_recoverable (h : Recoverable O t w)
    (hcur : w.mem.control = .down ∨ w.mem.curTid = t) (hacc : w.accepts inp)
    (hpage : w.ReadsOnPage inp) : w.rollbackTid inp = t := by
  have hup : w.mem.control ≠ .down → w.mem.curTid = t := hcur.resolve_left
  cases inp with
  | cmd c calls => exact hup (by rw [show w.mem.control = .cmdLoop from hacc]; simp)
  | manager src m' => exact hup hacc
  | pollTimeout => exact hup hacc.1
  | restart => exact h.recoveredTid (hpage (Or.inr rfl))

/-- But for the failed joins of the command loop, what is logged belongs to `t`. -/
theorem tid_of_log (hroll : w.rollbackTid inp = t) (hduring : w.During t inp) (hacc : w.accepts inp)
    (hfail : FailsJoin t inp → w.mem.control ≠ .cmdLoop) (h : .log r ∈ w.handle inp) :
    r.tid = t := by
  have htid := (accounted_handle h).1
  cases inp with
  | cmd c calls => exact htid.trans hroll
  | pollTimeout => exact htid.trans hroll
  | restart => exact htid.trans hroll
  | manager src m =>
      rcases hduring with hm | ⟨hsuccess, hprepare, hcommit, habort⟩
      · exact htid.trans hm
      by_cases hm : m.tid = t
      · exact htid.trans hm
      -- nothing is logged for a datagram about another transaction
      have hk : m.msgID = .joinFail → w.mem.control ≠ .cmdLoop := fun hk => hfail ⟨hk, hm⟩
      simp only [handle] at h
      split at h
      · unfold waitingForCoordResponse at h
        split at h <;> simp_all
      · rename_i hloop
        have hcontrol : w.mem.control = .cmdLoop := by
          cases hc : w.mem.control with
          | down => exact absurd hc hacc
          | cmdLoop => rfl
          | waiting addr => exact absurd hc (hloop addr)
        unfold handleManagerMsg at h
        split at h <;> simp_all

/-! ## Between the effects of a handler -/

/-- A rollback of `t` stays possible, whatever the worker is given about `t`. -/
theorem Recoverable.throughout (h : Recoverable O t w) (hroll : w.rollbackTid inp = t)
    (hacc : w.accepts inp) (hduring : w.During t inp) (hpage : w.ReadsOnPage inp)
    (hfail : FailsJoin t inp → w.mem.control ≠ .cmdLoop) :
    process.Throughout (Recoverable O t) w (w.handle inp) := by
  have hrecord : ∀ r, .log r ∈ w.handle inp → r.tid = t := fun r hr =>
    tid_of_log hroll hduring hacc hfail hr
  cases shape_handle hacc with
  | plain _ hplain =>
      exact Process.throughout_of_preserved h fun w' e he h' =>
        h'.plain (hplain e he) fun r hr => hrecord r (hr ▸ he)
  | rollback pre post hrolls heq hpre hpost =>
      rw [hroll] at heq
      rw [heq]
      obtain ⟨newer, older, r, h⟩ := h
      refine throughout_rollback (I := Undoable O t newer older r) h (fun w' e he h' => ?_)
        (fun w' e he h' => h.restore (hpage (Or.inl hrolls)) h' he) (fun _ h' => ⟨newer, older, r, h'⟩)
        fun w' e he h' => h'.plain (hpost e he) fun r' hr' => ?_
      · rcases plain_cases w' (hpre e he).1 with ⟨r', rfl, -⟩ | ⟨hlog, hobj⟩
        · exact absurd rfl ((hpre _ he).2 r')
        · exact h'.congr hlog (congrArg ObjectData.current hobj)
      · exact hrecord r' (by rw [heq, ← hr']; exact List.mem_append_right _ he)
  | update c calls undo wr stamp hinp _ hpair heq =>
      subst hinp
      rw [heq]
      obtain ⟨hrun, htid⟩ : w.mem.isTXRun = true ∧ w.mem.curTid = t := hduring
      obtain ⟨newer, older, r, h⟩ := h
      have hundo : undo.tid = t := by
        cases hpair <;> exact htid
      -- from the undo record on, only `wr` touches a field
      have hlogged := h.apply_log hundo (hpair.concat h.undoes)
      refine throughout_updateObject (I := Undoable O t (undo :: newer) older r) hrun
        ⟨newer, older, r, h⟩ hlogged (fun w' h' => ?_) (fun w' w'' h' => h'.congr)
        fun _ h' => ⟨_, _, _, h'⟩
      have hlog : (w'.apply wr).log = w'.log := hpair.log_apply
      exact ⟨by rw [hlog]; exact h'.stretch, h'.join, h'.oldest, h'.clock, h'.time,
        hpair.written (by simp) h'.undoes⟩

/-- An object that no walk changes stays as it is. -/
theorem Frozen.throughout (h : Frozen O w) (hacc : w.accepts inp) (hpage : w.ReadsOnPage inp)
    (hno : ¬ Updates inp) :
    process.Throughout (Frozen O) w (w.handle inp) := by
  have hinert : ∀ r, .log r ∈ w.handle inp → r.msgID.isUpdate = false → Inert O r := by
    intro r hr hkind
    refine ⟨hkind, fun hjoin => ?_⟩
    rw [← h.object]
    exact join_logged hr hjoin
  have hplain : ∀ w', ∀ e ∈ w.handle inp, e.isPlain → Frozen O w' → Frozen O (w'.apply e) := by
    intro w' e he hp h'
    rcases plain_cases w' hp with ⟨r, rfl, hr⟩ | ⟨hlog, hobj⟩
    · exact h'.apply_log (hinert r he hr)
    · exact h'.congr hlog hobj
  cases shape_handle hacc with
  | plain _ hall => exact Process.throughout_of_preserved h fun w' e he h' => hplain w' e he (hall e he) h'
  | rollback pre post hrolls heq hpre hpost =>
      rw [heq]
      refine throughout_rollback h (fun w' e he h' => hplain w' e ?_ (hpre e he).1 h')
        (fun w' e he h' => h.restore (hpage (Or.inl hrolls)) h' he) (fun _ h' => h')
        fun w' e he h' => hplain w' e ?_ (hpost e he) h'
      · rw [heq]
        exact List.mem_append_left _ (List.mem_append_left _ he)
      · rw [heq]
        exact List.mem_append_right _ he
  | update c calls undo wr stamp hinp hkind hpair _ =>
      subst hinp
      refine absurd ?_ hno
      show c.msgID.isUpdate = true
      rw [hkind]
      cases hpair <;> rfl

/-- A failed join is logged while nothing of `t` has to be undone: the object is frozen. -/
theorem Recoverable.throughout_fail {m : TxMessage} (h : Recoverable O t w) (src : SockAddr)
    (hloop : w.mem.control = .cmdLoop) (hk : m.msgID = .joinFail) (htid : m.tid ≠ t)
    (hobj : w.objData = O) :
    process.Throughout (fun w' => Recoverable O t w' ∨ Frozen O w') w (w.handle (.manager src m)) ∧
      Frozen O (process.exec w (w.handle (.manager src m))) := by
  have hhandle : w.handle (.manager src m) = w.receive src m ++ [.log (w.joinRecord m)] := by
    simp [handle, hloop, handleManagerMsg, hk]
  have hreceived : process.Throughout (Recoverable O t) w (w.receive src m) :=
    Process.throughout_of_preserved h fun w' e he h' =>
      h'.plain (isPlain_receive he) fun r hr => absurd (hr ▸ he) log_notMem_receive
  -- the record of `m` stands before those of `t`, so every other walk ends at once
  have hfrozen : Frozen O (process.exec w (w.handle (.manager src m))) := by
    have hlog : (process.exec w (w.handle (.manager src m))).log = w.log ++ [w.joinRecord m] := by
      rw [hhandle]
      simp [receive, apply, withMem]
    refine ⟨?_, fun x r hr => ?_⟩
    · rw [hhandle]
      simpa [receive, apply, withMem] using hobj
    · rw [hlog] at hr
      by_cases hx : m.tid = x
      · rw [stretch_append_same (by simpa [joinRecord] using hx)] at hr
        rcases List.mem_append.mp hr with hr | hr
        · rw [List.mem_singleton.mp (List.mem_reverse.mp hr)]
          exact ⟨rfl, fun _ => ⟨by rw [← hobj]; rfl, by rw [← hobj]; rfl⟩⟩
        · -- the last record so far is one of `t`
          obtain ⟨init, last, hlast, hlastTid⟩ := h.log_eq
          have hother : last.tid ≠ x := fun heq => htid (hx.trans (heq.symm.trans hlastTid))
          rw [hlast, stretch_append_other (by simp) (by simpa using hother)] at hr
          simp at hr
      · rw [stretch_append_other (by simp) (by simpa [joinRecord] using hx)] at hr
        simp at hr
  refine ⟨?_, hfrozen⟩
  rw [hhandle] at hfrozen ⊢
  refine Process.throughout_append.mpr ⟨hreceived.mono fun _ => Or.inl, Or.inl hreceived.last, Or.inr ?_⟩
  simpa using hfrozen

/-! ## Steps and runs -/

/-- **Step**: about `t`, with a rollback of `t` possible. -/
theorem Recoverable.step (h : Recoverable O t w) (hcur : w.mem.control = .down ∨ w.mem.curTid = t)
    (hacc : w.accepts a.input) (hduring : w.During t a.input) (hpage : w.ReadsOnPage a.input)
    (hfail : FailsJoin t a.input → w.mem.control ≠ .cmdLoop) :
    Recoverable O t (process.step w a) ∧
      ((process.step w a).mem.control = .down ∨ (process.step w a).mem.curTid = t) := by
  have hroll := rollbackTid_of_recoverable h hcur hacc hpage
  have hmid := h.throughout hroll hacc hduring hpage hfail
  refine ⟨Process.step_invariant hmid hmid.last fun w' h' => h'.plain (e := .exit) rfl (by simp), ?_⟩
  rcases step_cases w a with hmem | ⟨hcut, hexit⟩
  · exact Or.inl (by rw [hmem])
  · refine Or.inr ?_
    rw [Process.step, Process.performed, hcut]
    refine curTid_exec_handle hexit hroll ?_
    rintro u ⟨-, src, m, hinput, hk, rfl⟩
    rw [hinput] at hduring
    exact hduring.resolve_right fun hno => hno.1 hk

/-- **Step**, with or without a failed join that does no harm. -/
theorem Tracked.step (h : Tracked O t w) (hacc : w.accepts a.input) (hduring : w.During t a.input)
    (hpage : w.ReadsOnPage a.input) (hspared : w.Spared t a.input) : Tracked O t (process.step w a) := by
  have hexit : ∀ w', Frozen O w' → Frozen O (process.apply w' (process.crash a.input)) :=
    fun w' h' => h'.congr rfl rfl
  have hfreeze : Frozen O w → ¬ Updates a.input → Frozen O (process.step w a) := fun hf hno =>
    have hmid := hf.throughout hacc hpage hno
    Process.step_invariant hmid hmid.last hexit
  rcases h with ⟨hrec, hcur⟩ | hf
  · by_cases hfail : FailsJoin t a.input ∧ w.mem.control = .cmdLoop
    · -- the failed join is logged
      obtain ⟨hfail, hloop⟩ := hfail
      have hobj : w.objData = O := by
        obtain ⟨newer, older, r, hrec⟩ := hrec
        rw [← hspared.1 hfail hloop]
        exact hrec.undone_eq
      obtain ⟨src, m, hinput, hk, htid⟩ := failsJoin_cases hfail
      obtain ⟨hmid, hend⟩ := hrec.throughout_fail src hloop hk htid hobj
      rw [← hinput] at hmid hend
      rcases step_cases w a with hmem | ⟨hcut, -⟩
      · have hcrash : Recoverable O t (process.step w a) ∨ Frozen O (process.step w a) := by
          refine Process.step_invariant hmid (J := fun w' => Recoverable O t w' ∨ Frozen O w')
            (Or.inr hend) fun w' h' => ?_
          rcases h' with h' | h'
          · exact Or.inl (h'.plain (e := .exit) rfl (by simp))
          · exact Or.inr (hexit w' h')
        exact hcrash.imp_left fun h' => ⟨h', Or.inl (by rw [hmem])⟩
      · refine Or.inr ?_
        rw [Process.step, Process.performed, hcut]
        exact hend
    · exact Or.inl (hrec.step hcur hacc hduring hpage fun hf hloop => hfail ⟨hf, hloop⟩)
  · by_cases hupdate : Updates a.input
    · -- an update comes only while `t` is current and its join record in reach
      have hrec := hf.recoverable (hspared.2 hupdate)
      obtain ⟨m, now, hinput, -⟩ := updates_cases hupdate
      have hcur : w.mem.curTid = t := by
        rw [hinput] at hduring
        exact hduring.2
      refine Or.inl (hrec.step (Or.inr hcur) hacc hduring hpage fun hfail => ?_)
      rw [hinput] at hfail
      exact hfail.elim
    · exact Or.inr (hfreeze hf hupdate)

/-- An abort that is carried out gives `O`. -/
theorem Tracked.objData_of_aborts (h : Tracked O t w) (hacc : w.accepts a.input)
    (hpage : w.ReadsOnPage a.input) (habort : w.Aborts a) : (process.step w a).objData = O := by
  rcases h with ⟨hrec, hcur⟩ | hf
  · obtain ⟨pre, post, hperf, hpost⟩ := habort.performed_eq hacc
    rw [rollbackTid_of_recoverable hrec hcur hacc hpage] at hperf
    obtain ⟨newer, older, r, hrec⟩ := hrec
    rw [Process.step, hperf, Process.exec_append, objData_exec hpost, Process.exec_append]
    exact hrec.exec_rollback (hpage (Or.inl habort.1)) _
  · have hno : ¬ Updates a.input := by
      have hroll := habort.1
      cases hinput : a.input with
      | cmd c calls =>
          rw [hinput] at hroll
          rcases hroll with hk | hk <;> simp [Updates, hk, MsgId.isUpdate]
      | manager src m => exact id
      | pollTimeout => exact id
      | restart => exact id
    have hmid := hf.throughout hacc hpage hno
    exact (Process.step_invariant hmid hmid.last fun w' h' => h'.congr rfl rfl : Frozen O _).object

/-- A step of a run of `t` without failed joins: the worker may die before it handles one. -/
def NoFailedJoin (t : Tid) (w : Worker) (b : Act Input) : Prop :=
  w.accepts b.input ∧ w.During t b.input ∧ w.ReadsOnPage b.input ∧
    (FailsJoin t b.input → b.cut = some 0)

instance (t : Tid) (w : Worker) (b : Act Input) : Decidable (NoFailedJoin t w b) :=
  inferInstanceAs (Decidable (_ ∧ _ ∧ _ ∧ _))

/-- Without failed joins a rollback of `t` stays possible along a run. -/
theorem recoverable_without {bs : List (Act Input)} (h : Recoverable O t w)
    (hcur : w.mem.control = .down ∨ w.mem.curTid = t)
    (hrun : process.machine.Along (NoFailedJoin t) w bs) :
    Recoverable O t (process.machine.after w bs) ∧
      ((process.machine.after w bs).mem.control = .down ∨ (process.machine.after w bs).mem.curTid = t) := by
  refine hrun.invariant (I := fun w => Recoverable O t w ∧ (w.mem.control = .down ∨ w.mem.curTid = t))
    ⟨h, hcur⟩ ?_
  rintro w b ⟨h, hcur⟩ ⟨hacc, hduring, hpage, hno⟩
  by_cases hfail : FailsJoin t b.input
  · -- the worker dies before it handles the failed join
    have hstep : process.step w b = w.apply .exit := by
      rw [Process.step, Process.performed, hno hfail]
      rfl
    rw [Process.machine_next, hstep]
    exact ⟨h.plain rfl (by simp), Or.inl rfl⟩
  · exact h.step hcur hacc hduring hpage fun hf => absurd hf hfail

/-- The worker is in transaction `t`. -/
structure Running (t : Tid) (w : Worker) : Prop where
  isTXRun : w.mem.isTXRun = true
  curTid : w.mem.curTid = t
  joined : Reaches w.log t

instance (t : Tid) (w : Worker) : Decidable (Running t w) :=
  decidable_of_iff (w.mem.isTXRun = true ∧ w.mem.curTid = t ∧ Reaches w.log t)
    ⟨fun h => ⟨h.1, h.2.1, h.2.2⟩, fun h => ⟨h.isTXRun, h.curTid, h.joined⟩⟩

/-- A `JOIN_SUCCESS` starts its transaction, whatever the log holds. -/
theorem running_join (src : SockAddr) {m : TxMessage} (hloop : w.mem.control = .cmdLoop)
    (hk : m.msgID = .joinSuccess) : Running m.tid (process.step w ⟨.manager src m, none⟩) := by
  have hstep : (process.step w ⟨.manager src m, none⟩).log = w.log ++ [w.joinRecord m] ∧
      (process.step w ⟨.manager src m, none⟩).mem.curTid = m.tid ∧
      (process.step w ⟨.manager src m, none⟩).mem.isTXRun = true := by
    simp [Process.step, Process.performed, handle, hloop, handleManagerMsg, hk, receive, apply, withMem]
  obtain ⟨hlog, hcur, hrun⟩ := hstep
  refine ⟨hrun, hcur, w.joinRecord m, ?_, rfl⟩
  rw [hlog, stretch_append_same (by simp [joinRecord])]
  simp

/-- The abort `a` after `as` restores what a rollback and every abort of `t` restore after any run
    `bs` without failed joins. -/
def RestoresAlike (t : Tid) (w : Worker) (as : List (Act Input)) (a : Act Input) : Prop :=
  let joined := process.machine.after w as
  ∀ bs, process.machine.Along (NoFailedJoin t) w bs →
    let spared := process.machine.after w bs
    (spared.OnPage →
        (process.step joined a).objData = (process.exec spared (spared.rollback t)).objData) ∧
      ∀ b, spared.accepts b.input → spared.ReadsOnPage b.input → spared.Aborts b →
        (process.step joined a).objData = (process.step spared b).objData

/-- **A spared failed join is harmless**: along every run in which each failed join is logged
    while nothing of `t` has to be undone, and the object is changed only while a join record
    of `t` is in reach, every abort restores what it restores without the failed joins. -/
theorem failed_join_harmless (t : Tid) (w : Worker) (as : List (Act Input)) (a : Act Input)
    (hw : Running t w)
    (hrun : process.machine.Along (fun w' b => w'.accepts b.input ∧ w'.During t b.input ∧
      w'.ReadsOnPage b.input ∧ w'.Spared t b.input) w (as ++ [a]))
    (habort : (process.machine.after w as).Aborts a) : RestoresAlike t w as a := by
  have hrec := recoverable_of_reaches hw.joined
  obtain ⟨hrun, ⟨hacc, -, hpage, -⟩⟩ := Machine.along_concat.mp hrun
  have htracked : Tracked (undone w.log t w.objData) t (process.machine.after w as) :=
    hrun.invariant (Or.inl ⟨hrec, Or.inr hw.curTid⟩) fun w' b h hb =>
      h.step hb.1 hb.2.1 hb.2.2.1 hb.2.2.2
  have hobj := htracked.objData_of_aborts hacc hpage habort
  intro bs hwithout spared
  obtain ⟨hspared, hcur⟩ := recoverable_without hrec (Or.inr hw.curTid) hwithout
  refine ⟨fun hpage' => ?_, fun b hacc' hpage' habort' => ?_⟩
  · obtain ⟨newer, older, r, hspared⟩ := hspared
    rw [hobj, hspared.exec_rollback hpage']
  · have hthere : Tracked (undone w.log t w.objData) t spared := Or.inl ⟨hspared, hcur⟩
    rw [hobj, hthere.objData_of_aborts hacc' hpage' habort']

/-- An abort right after a logged failed join undoes nothing. -/
theorem objData_abort_of_failed_join (src : SockAddr) {m : TxMessage} {c : MsgType} (calls : CmdCalls)
    (hloop : w.mem.control = .cmdLoop) (hk : m.msgID = .joinFail) (htid : m.tid ≠ w.mem.curTid)
    (hpage : w.log.length + 1 ≤ mappedRecords) (hc : c.msgID = .abort ∨ c.msgID = .abortCrash) :
    (process.machine.after w [⟨.manager src m, none⟩, ⟨.cmd c calls, none⟩]).objData = w.objData := by
  have hfail : (process.step w ⟨.manager src m, none⟩).log = w.log ++ [w.joinRecord m] ∧
      (process.step w ⟨.manager src m, none⟩).mem.curTid = w.mem.curTid ∧
      (process.step w ⟨.manager src m, none⟩).objData = w.objData := by
    simp [Process.step, Process.performed, handle, hloop, handleManagerMsg, hk, receive, apply, withMem]
  simp only [Machine.after_cons, Machine.after_nil, Process.machine_next]
  generalize process.step w ⟨.manager src m, none⟩ = w' at hfail ⊢
  obtain ⟨hlog, hcur, hobj⟩ := hfail
  have hnothing : w'.rollback w'.mem.curTid = [] := by
    refine rollback_of_not_reaches fun hreach => ?_
    obtain ⟨r, hr, -⟩ := hreach
    rw [hlog, hcur, mapped_eq_self (by simpa using hpage), stretch_append_other (by simp)
      (by simpa [joinRecord] using htid)] at hr
    simp at hr
  have hhandle : process.performed w' ⟨.cmd c calls, none⟩ = w'.handleAbort c := by
    rcases hc with hc | hc <;> simp [Process.performed, handle, handleCmdMsg, hc]
  rw [Process.step, hhandle, handleAbort, hnothing]
  simpa [apply, withMem] using hobj

/-- A worker in transaction 1. -/
def inTransaction1 : Worker := process.step worker40 (deliver .joinSuccess 1)

/-- Right after the join there is nothing to undo. -/
theorem undone_inTransaction1 :
    undone inTransaction1.log 1 inTransaction1.objData = inTransaction1.objData := by
  have hfields : ∀ x y : ObjectData, x.current = y.current → x.lastUpdateTime = y.lastUpdateTime →
      (∀ k, x.vectorClock k = y.vectorClock k) → x = y := by
    rintro ⟨_, _, _, _, _⟩ ⟨_, _, _, _, _⟩ hcurrent rfl hclock
    cases hcurrent
    cases funext hclock
    rfl
  exact hfields _ _ (by decide +kernel) (by decide +kernel) (by decide +kernel)

/-- A failed join of transaction 9 in front of the update, with transaction 1 joined again. -/
theorem failed_join_harmless_rejoined :
    RestoresAlike 1 inTransaction1 [deliver .joinFail 9, deliver .joinSuccess 1, newA 7]
      (command .abort) := by
  refine failed_join_harmless 1 _ _ _ (by decide +kernel) ?_ ⟨Or.inl rfl, Or.inl rfl⟩
  refine ⟨⟨by decide, by decide, by decide +kernel, fun _ _ => undone_inTransaction1, by decide⟩, ?_⟩
  refine ⟨⟨by decide +kernel, by decide +kernel, by decide +kernel,
    fun hfail => by simp [FailsJoin, deliver, managerMsg] at hfail, fun hupdate => hupdate.elim⟩, ?_⟩
  refine ⟨⟨by decide +kernel, by decide +kernel, by decide +kernel, fun hfail => hfail.elim,
    fun _ => by decide +kernel⟩, ?_⟩
  exact ⟨⟨by decide +kernel, by decide +kernel, by decide +kernel, fun hfail => hfail.elim,
    fun _ => by decide +kernel⟩, trivial⟩

/-- After an update the failed join hides it from the abort. -/
theorem not_failed_join_harmless :
    Running 1 inTransaction1 ∧
      process.machine.Along (fun w' b => w'.accepts b.input ∧ w'.During 1 b.input) inTransaction1
        [newA 7, deliver .joinFail 9, command .abort] ∧
      process.machine.Along (NoFailedJoin 1) inTransaction1 [newA 7, command .abort] ∧
      ¬ RestoresAlike 1 inTransaction1 [newA 7, deliver .joinFail 9] (command .abort) := by
  refine ⟨by decide +kernel, by decide +kernel, by decide +kernel, fun halike => ?_⟩
  -- with the failed join `A` stays 7, without it the same `ABORT` makes it 1 again
  have hsame := (halike [newA 7] (by decide +kernel)).2 (command .abort) (by decide +kernel)
    (by decide +kernel) ⟨Or.inl rfl, Or.inl rfl⟩
  have hkept : (process.step (process.machine.after inTransaction1 [newA 7, deliver .joinFail 9])
      (command .abort)).objData.A = 7 := by decide +kernel
  have hrestored : (process.step (process.machine.after inTransaction1 [newA 7])
      (command .abort)).objData.A = 1 := by decide +kernel
  rw [hsame, hrestored] at hkept
  exact absurd hkept (by decide)

end Worker

end DistributedSystem.Transaction
