import DistributedSystem.Transaction.WorkerSteps
import Mathlib.Data.List.TakeWhile

/-!
# Durable values

A value of `A`, `B` or `IDstring` is durable once it was written outside a transaction, or
by a transaction whose `DECIDE_COMMIT` is in the log. A ghost follows the values each field
has been given since its last durable one, and the length the log had at that point. A
rollback puts an older value back exactly through undo records from before that point: it
walks back over all records of the tid that are together at the end of the log, and no
decision stops it.
-/

namespace DistributedSystem.Transaction

open DistributedSystem.Library

/-! ## The ghost -/

/-- The history of a field since its last durable value. -/
structure Durable (β : Type) where
  /-- The durable value and the later ones, each with the transaction that wrote it. -/
  values : List (β × Option Tid)
  /-- The length of the log when the durable value became durable. -/
  mark : ℕ
  deriving DecidableEq

/-- The value is the durable one or a later one. -/
def Durable.Keeps {β : Type} (d : Durable β) (v : β) : Prop := v ∈ d.values.map Prod.fst

instance {β : Type} [DecidableEq β] (d : Durable β) (v : β) : Decidable (d.Keeps v) :=
  inferInstanceAs (Decidable (v ∈ d.values.map Prod.fst))

/-- The field an update effect writes, by the kind of its undo records. -/
def WorkerEffect.updateKind : WorkerEffect → Option MsgId
  | .updateA _ => some .newA
  | .updateB _ => some .newB
  | .updateID _ => some .newIdStr
  | _ => none

/-- One effect. An update of a running transaction adds a value; an update outside a
    transaction is durable at once; a `DECIDE_COMMIT` makes the current value durable if its
    transaction wrote it. -/
def Durable.watch {β : Type} [DecidableEq β] (f : Field β) (w : Worker) (d : Durable β) :
    WorkerEffect → Durable β
  | .log r =>
      if r.msgID = .decideCommit ∧ (f.get w.objData, some r.tid) ∈ d.values then
        ⟨[(f.get w.objData, some r.tid)], w.log.length⟩
      else d
  | e =>
      if e.updateKind = some f.kind then
        if w.mem.isTXRun then
          ⟨d.values ++ [(f.get (w.apply e).objData, some w.mem.curTid)], d.mark⟩
        else ⟨[(f.get (w.apply e).objData, none)], w.log.length⟩
      else d

/-- The histories of the three fields. -/
structure ObjectHistory where
  A : Durable ℤ
  B : Durable ℤ
  IDstring : Durable String

/-- The ghost of a worker. -/
def ObjectHistory.watch (w : Worker) (h : ObjectHistory) (e : WorkerEffect) : ObjectHistory :=
  ⟨h.A.watch fieldA w e, h.B.watch fieldB w e, h.IDstring.watch fieldID w e⟩

/-- The stored object holds no value older than the durable one. -/
def ObjectHistory.Keeps (h : ObjectHistory) (obj : ObjectData) : Prop :=
  h.A.Keeps obj.A ∧ h.B.Keeps obj.B ∧ h.IDstring.Keeps obj.IDstring

instance (h : ObjectHistory) (obj : ObjectData) : Decidable (h.Keeps obj) :=
  inferInstanceAs (Decidable (_ ∧ _ ∧ _))

/-- The history of an object nobody has written yet. -/
def ObjectHistory.initial (obj : ObjectData) : ObjectHistory :=
  ⟨⟨[(obj.A, none)], 0⟩, ⟨[(obj.B, none)], 0⟩, ⟨[(obj.IDstring, none)], 0⟩⟩

/-! ## The condition -/

/-- Every undo record of the field that a rollback of `tid` reads before it reaches a join
    record is at `mark` or after it. -/
def Field.SparedBy {β : Type} (f : Field β) (mark : ℕ) (log : List Record) (tid : Tid) : Prop :=
  ∀ i j : Fin log.length, i < j → (log.get i).msgID = .jointx → (log.get j).msgID = f.kind →
    (∀ k : Fin log.length, i ≤ k → (log.get k).tid = tid) → mark ≤ j

instance {β : Type} (f : Field β) (mark : ℕ) (log : List Record) (tid : Tid) :
    Decidable (f.SparedBy mark log tid) :=
  inferInstanceAs (Decidable (∀ i j : Fin log.length, i < j → (log.get i).msgID = .jointx →
    (log.get j).msgID = f.kind → (∀ k : Fin log.length, i ≤ k → (log.get k).tid = tid) → mark ≤ j))

/-- A rollback finds the log on the page and reaches no undo record from before a durable value
    of its field. -/
def SparesDurable (s : Worker × ObjectHistory) (a : Act Worker.Input) : Prop :=
  s.1.RollsBack a.input →
    s.1.OnPage ∧
    fieldA.SparedBy s.2.A.mark s.1.log (s.1.rollbackTid a.input) ∧
    fieldB.SparedBy s.2.B.mark s.1.log (s.1.rollbackTid a.input) ∧
    fieldID.SparedBy s.2.IDstring.mark s.1.log (s.1.rollbackTid a.input)

instance (s : Worker × ObjectHistory) (a : Act Worker.Input) : Decidable (SparesDurable s a) :=
  inferInstanceAs (Decidable (_ → _))

namespace Worker

/-- The worker with the histories of its fields. -/
def historied : Process (Worker × ObjectHistory) WorkerEffect Input := process.instrument ObjectHistory.watch

/-- Transaction 1 sets `A` to 7 and commits; then an `ABORT` command arrives. -/
def abortAfterCommit : List (Act Input) :=
  [deliver .joinSuccess 1, newA 7, deliver .decideCommit 1, command .abort]

/-- The `ABORT` puts back the value from before the committed transaction. -/
theorem committed_value_lost :
    process.machine.Along (fun w a => w.accepts a.input) worker40 abortAfterCommit ∧
      (process.machine.after worker40 (abortAfterCommit.take 3)).log.getLast? =
        some { msgID := .decideCommit, tid := 1 } ∧
      (process.machine.after worker40 (abortAfterCommit.take 3)).objData.A = 7 ∧
      (process.machine.after worker40 abortAfterCommit).objData.A = 1 ∧
      ¬ (historied.machine.after (worker40, ObjectHistory.initial worker40.objData)
        abortAfterCommit).2.Keeps (process.machine.after worker40 abortAfterCommit).objData := by
  decide +kernel

/-! ## One field -/

/-- The worker with the history of one field. -/
def tracked {β : Type} [DecidableEq β] (f : Field β) : Process (Worker × Durable β) WorkerEffect Input :=
  process.instrument fun w d e => d.watch f w e

/-- What the effects do to a field with undo records. -/
structure LoggedUpdates {β : Type} (f : Field β) : Prop extends f.Lawful where
  isUpdate : f.kind.isUpdate = true
  undo : ∀ {w : Worker} {undo : Record} {wr : WorkerEffect}, w.UpdatePair undo wr →
    undo.msgID = f.kind → f.old undo = f.get w.objData
  apply : ∀ (w : Worker) (e : WorkerEffect), e.updateKind ≠ some f.kind → e.isRestore = false →
    f.get (w.apply e).objData = f.get w.objData
  restore : ∀ (w : Worker) (x : OldValues × Record), ∀ e ∈ restore x,
    f.get (w.apply e).objData = f.get w.objData ∨ f.get (w.apply e).objData = f.carried x.1

theorem mem_restore_iff {x : OldValues × Record} {e : WorkerEffect} :
    e ∈ restore x ↔ ((e = .restoreA x.1.oldA ∨ e = .restoreB x.1.oldB ∨ e = .restoreID x.1.oldID) ∨
      ∃ k, .restoreClock k (x.2.vectorClock k) = e) ∨ e = .restoreTime x.2.lastUpdateTime := by
  simp only [Worker.restore, List.mem_append, List.mem_cons, List.not_mem_nil, or_false, List.mem_map,
    List.mem_finRange, true_and]

theorem objClock_current (w : Worker) (i : ℕ) :
    (w.apply (.objClock i)).objData.current = w.objData.current := by
  simp only [Worker.apply]
  split <;> rfl

theorem loggedUpdates_fieldA : LoggedUpdates fieldA where
  toLawful := lawful_fieldA
  isUpdate := rfl
  undo hpair hk := by cases hpair <;> first | rfl | simp [fieldA] at hk
  apply w e hk hr := by
    cases e with
    | objClock i => exact congrArg OldValues.oldA (objClock_current w i)
    | _ => first | rfl | exact absurd rfl hk | simp [WorkerEffect.isRestore] at hr
  restore w x e he := by
    rcases mem_restore_iff.mp he with ((rfl | rfl | rfl) | ⟨k, rfl⟩) | rfl
    · exact Or.inr rfl
    all_goals exact Or.inl rfl

theorem loggedUpdates_fieldB : LoggedUpdates fieldB where
  toLawful := lawful_fieldB
  isUpdate := rfl
  undo hpair hk := by cases hpair <;> first | rfl | simp [fieldB] at hk
  apply w e hk hr := by
    cases e with
    | objClock i => exact congrArg OldValues.oldB (objClock_current w i)
    | _ => first | rfl | exact absurd rfl hk | simp [WorkerEffect.isRestore] at hr
  restore w x e he := by
    rcases mem_restore_iff.mp he with ((rfl | rfl | rfl) | ⟨k, rfl⟩) | rfl
    · exact Or.inl rfl
    · exact Or.inr rfl
    all_goals exact Or.inl rfl

theorem loggedUpdates_fieldID : LoggedUpdates fieldID where
  toLawful := lawful_fieldID
  isUpdate := rfl
  undo hpair hk := by cases hpair <;> first | rfl | simp [fieldID] at hk
  apply w e hk hr := by
    cases e with
    | objClock i => exact congrArg OldValues.oldID (objClock_current w i)
    | _ => first | rfl | exact absurd rfl hk | simp [WorkerEffect.isRestore] at hr
  restore w x e he := by
    rcases mem_restore_iff.mp he with ((rfl | rfl | rfl) | ⟨k, rfl⟩) | rfl
    · exact Or.inl rfl
    · exact Or.inl rfl
    · exact Or.inr rfl
    all_goals exact Or.inl rfl

variable {β : Type} [DecidableEq β] {f : Field β} {w w' : Worker} {d : Durable β} {e : WorkerEffect}
  {inp : Input} {tid : Tid} {log newer older : List Record} {x r : Record} {mark : ℕ}

omit [DecidableEq β] in
/-- A spared field: the undo records that a rollback reads are in the log after `mark`. -/
theorem mem_drop_of_sparedBy (h : f.SparedBy mark log tid)
    (hsplit : stretch log tid = newer ++ x :: older) (hx : x.msgID = .jointx) (hr : r ∈ newer)
    (hk : r.msgID = f.kind) : r ∈ log.drop mark := by
  have htids : ∀ y ∈ stretch log tid, y.tid = tid := fun y hy => by
    simpa using List.mem_takeWhile_imp hy
  obtain ⟨b, a, hnewer⟩ := List.append_of_mem hr
  -- the log around the join record `x` and the undo record `r`
  obtain ⟨p, hlog⟩ : ∃ p, log = p ++ x :: (a.reverse ++ r :: b.reverse) := by
    obtain ⟨rest, hrev⟩ : ∃ rest, stretch log tid ++ rest = log.reverse :=
      ⟨_, List.takeWhile_append_dropWhile⟩
    refine ⟨(older ++ rest).reverse, ?_⟩
    rw [← List.reverse_inj, ← hrev, hsplit, hnewer]
    simp
  have hmem : ∀ y ∈ x :: (a.reverse ++ r :: b.reverse), y.tid = tid := by
    intro y hy
    refine htids y ?_
    rw [hsplit, hnewer]
    simp only [List.mem_cons, List.mem_append, List.mem_reverse] at hy ⊢
    tauto
  subst hlog
  let i : Fin (p ++ x :: (a.reverse ++ r :: b.reverse)).length := ⟨p.length, by simp⟩
  let j : Fin (p ++ x :: (a.reverse ++ r :: b.reverse)).length :=
    ⟨p.length + (a.reverse.length + 1), by simp⟩
  have hj : (p ++ x :: (a.reverse ++ r :: b.reverse)).get j = r := by
    simp [j, List.getElem_append_right]
  have hle : mark ≤ p.length + (a.reverse.length + 1) := by
    refine h i j ?_ (by simpa [i] using hx) (by rw [hj]; exact hk) fun k hik => hmem _ ?_
    · exact Fin.lt_def.mpr (by simp [i, j])
    · rw [List.get_eq_getElem, List.getElem_append_right hik]
      exact List.getElem_mem _
  rw [List.mem_drop_iff_getElem]
  refine ⟨p.length + (a.reverse.length + 1) - mark, by simp at hle ⊢; omega, ?_⟩
  have hsum : mark + (p.length + (a.reverse.length + 1) - mark) =
      p.length + (a.reverse.length + 1) := by omega
  simp only [hsum]
  exact hj

/-- The invariant of one field: the object and the undo records after `mark` hold no value
    older than the durable one. -/
structure Sound (f : Field β) (s : Worker × Durable β) : Prop where
  keeps : s.2.Keeps (f.get s.1.objData)
  undo : ∀ r ∈ s.1.log.drop s.2.mark, r.msgID = f.kind → s.2.Keeps (f.old r)
  mark_le : s.2.mark ≤ s.1.log.length

theorem watch_of_ne_log (hlog : ∀ r, e ≠ .log r) : d.watch f w e =
    if e.updateKind = some f.kind then
      if w.mem.isTXRun then
        ⟨d.values ++ [(f.get (w.apply e).objData, some w.mem.curTid)], d.mark⟩
      else ⟨[(f.get (w.apply e).objData, none)], w.log.length⟩
    else d := by
  cases e with
  | log r => exact absurd rfl (hlog r)
  | _ => rfl

/-- An effect that is no record: an update, a restoration of a kept value, or anything else. -/
theorem Sound.apply_of_ne_log (hf : LoggedUpdates f) (h : Sound f (w, d)) (hlog : ∀ r, e ≠ .log r)
    (hrestore : e.isRestore → d.Keeps (f.get (w.apply e).objData)) :
    Sound f (w.apply e, d.watch f w e) := by
  have hsame : (w.apply e).log = w.log := by
    rw [log_apply]
    split
    · exact absurd rfl (hlog _)
    · rfl
  rw [watch_of_ne_log hlog]
  split
  · split
    · refine ⟨by simp [Durable.Keeps], ?_, by simpa [hsame] using h.mark_le⟩
      intro r hr hk
      have hold : d.Keeps (f.old r) := h.undo r (by simpa [hsame] using hr) hk
      simp only [Durable.Keeps, List.map_append, List.mem_append]
      exact Or.inl hold
    · refine ⟨by simp [Durable.Keeps], ?_, by simp [hsame]⟩
      intro r hr
      simp [hsame] at hr
  · rename_i hk
    refine ⟨?_, by simpa [hsame] using h.undo, by simpa [hsame] using h.mark_le⟩
    cases hr : e.isRestore with
    | true => exact hrestore hr
    | false =>
        have hget : f.get (w.apply e).objData = f.get w.objData := hf.apply w e hk hr
        exact hget ▸ h.keeps

/-- A record: if it is an undo record of the field, it holds the current value. -/
theorem Sound.apply_log (hf : LoggedUpdates f) (h : Sound f (w, d))
    (hr : r.msgID = f.kind → f.old r = f.get w.objData) :
    Sound f (w.apply (.log r), d.watch f w (.log r)) := by
  simp only [Durable.watch]
  split
  · rename_i hcommit
    refine ⟨by simp [Durable.Keeps, Worker.apply], ?_, by simp [Worker.apply]⟩
    intro r' hr' hk
    -- the only record after the new mark is the decision itself
    have hnew : r' = r := by simpa [Worker.apply] using hr'
    have := hf.isUpdate
    rw [← hk, hnew, hcommit.1] at this
    exact absurd this (by decide)
  · have hmark : d.mark ≤ w.log.length := h.mark_le
    refine ⟨h.keeps, ?_, by simp only [Worker.apply, List.length_append, List.length_singleton]; omega⟩
    intro r' hr' hk
    simp only [Worker.apply, List.drop_append_of_le_length hmark, List.mem_append,
      List.mem_singleton] at hr'
    rcases hr' with hr' | rfl
    · exact h.undo r' hr' hk
    · rw [hr hk]
      exact h.keeps

theorem Sound.plain (hf : LoggedUpdates f) (h : Sound f (w, d)) (he : e.isPlain) :
    Sound f (w.apply e, d.watch f w e) := by
  by_cases hlog : ∃ r, e = .log r
  · obtain ⟨r, rfl⟩ := hlog
    refine h.apply_log hf fun hk => ?_
    have hno : r.msgID.isUpdate = false := by simpa [WorkerEffect.isPlain] using he
    rw [hk, hf.isUpdate] at hno
    exact absurd hno (by decide)
  · refine h.apply_of_ne_log hf (fun r hr => hlog ⟨r, hr⟩) fun hr => ?_
    cases e <;> simp_all [WorkerEffect.isPlain, WorkerEffect.isRestore, WorkerEffect.isInternal]

omit [DecidableEq β] in
/-- What a rollback writes into a spared field is kept. -/
theorem keeps_rollback (hf : LoggedUpdates f) (hkeeps : d.Keeps (f.get w.objData))
    (hundo : ∀ r ∈ w.log.drop d.mark, r.msgID = f.kind → d.Keeps (f.old r))
    (hpage : w.OnPage) (hspare : f.SparedBy d.mark w.log tid) (he : e ∈ w.rollback tid)
    (hw' : d.Keeps (f.get w'.objData)) : d.Keeps (f.get (w'.apply e).objData) := by
  obtain ⟨x, hx, hex⟩ := List.mem_flatMap.mp he
  rcases hf.restore w' x e hex with heq | heq
  · exact heq ▸ hw'
  · rw [heq]
    rw [readValFromRecord_eq hpage] at hx
    obtain ⟨hjoin, newer, older, hsplit, hvalues⟩ := mem_restorations hx
    rw [hvalues, hf.readAll, hf.current]
    have hcases : restored f.image newer.reverse (f.get w.objData) = f.get w.objData ∨
        ∃ r ∈ newer.reverse, f.image r = some (restored f.image newer.reverse (f.get w.objData)) :=
      restored_cases
    rcases hcases with hcur | ⟨r, hr, himage⟩
    · rw [hcur]
      exact hkeeps
    · obtain ⟨hk, hold⟩ := Field.image_eq_some himage
      rw [← hold]
      exact hundo r (mem_drop_of_sparedBy hspare hsplit hjoin (List.mem_reverse.mp hr) hk) hk

/-! ## Steps of one field -/

theorem sound_throughout_plain {es : List WorkerEffect} (hf : LoggedUpdates f) {s : Worker × Durable β}
    (h : Sound f s) (hes : ∀ e ∈ es, e.isPlain) : (tracked f).Throughout (Sound f) s es :=
  Process.throughout_of_preserved h fun _ e he h' => h'.plain hf (hes e he)

/-- A rollback between plain effects. -/
theorem sound_throughout_rollback {pre post : List WorkerEffect} (hf : LoggedUpdates f)
    (h : Sound f (w, d)) (hpage : w.OnPage) (hspare : f.SparedBy d.mark w.log tid)
    (hpre : ∀ e ∈ pre, e.isPlain ∧ ∀ r, e ≠ .log r) (hpost : ∀ e ∈ post, e.isPlain) :
    (tracked f).Throughout (Sound f) (w, d) (pre ++ w.rollback tid ++ post) := by
  -- up to the end of the rollback the history stays what it was
  let J : Worker × Durable β → Prop := fun s => Sound f s ∧ s.2 = d
  have hbefore : (tracked f).Throughout J (w, d) pre := by
    refine Process.throughout_of_preserved ⟨h, rfl⟩ ?_
    rintro ⟨w', d'⟩ e he ⟨h', rfl⟩
    refine ⟨h'.plain hf (hpre e he).1, (watch_of_ne_log (hpre e he).2).trans (if_neg ?_)⟩
    have hplain := (hpre e he).1
    cases e <;> simp_all [WorkerEffect.isPlain, WorkerEffect.isInternal, WorkerEffect.updateKind]
  have hduring : (tracked f).Throughout J ((tracked f).exec (w, d) pre) (w.rollback tid) := by
    refine Process.throughout_of_preserved hbefore.last ?_
    rintro ⟨w', d'⟩ e he ⟨h', rfl⟩
    have hrestore := mem_rollback he
    have hlog : ∀ r, e ≠ .log r := by
      rintro r rfl
      simp [WorkerEffect.isRestore] at hrestore
    refine ⟨h'.apply_of_ne_log hf hlog fun _ => ?_, (watch_of_ne_log hlog).trans (if_neg ?_)⟩
    · exact keeps_rollback hf h.keeps h.undo hpage hspare he h'.keeps
    · cases e <;> simp_all [WorkerEffect.isRestore, WorkerEffect.updateKind]
  have hafter : (tracked f).Throughout (Sound f) ((tracked f).exec (w, d) (pre ++ w.rollback tid))
      post := by
    rw [Process.exec_append]
    exact sound_throughout_plain hf hduring.last.1 hpost
  exact Process.throughout_append.mpr ⟨Process.throughout_append.mpr
    ⟨hbefore.mono fun _ h' => h'.1, hduring.mono fun _ h' => h'.1⟩, hafter⟩

/-- An update command. -/
theorem sound_throughout_update {undo : Record} {wr : WorkerEffect} {stamp : Bool} {now : Timeval}
    (hf : LoggedUpdates f) (h : Sound f (w, d)) (hpair : w.UpdatePair undo wr) :
    (tracked f).Throughout (Sound f) (w, d) (w.updateObject undo wr stamp now) := by
  simp only [updateObject, List.append_assoc]
  -- the record holds the value that is about to be overwritten
  have hundo : (tracked f).Throughout (Sound f) (w, d) (if w.mem.isTXRun then [.log undo] else []) := by
    split
    · exact ⟨h, h.apply_log hf (hf.undo hpair)⟩
    · exact h
  refine Process.throughout_append.mpr ⟨hundo, Process.throughout_of_preserved hundo.last ?_⟩
  rintro ⟨w', d'⟩ e he h'
  -- what follows it is neither a record nor a restored value
  have hother : (∀ r, e ≠ .log r) ∧ e.isRestore = false := by
    simp only [List.mem_append, List.mem_cons, List.not_mem_nil, or_false] at he
    rcases he with (rfl | rfl | rfl | rfl | rfl) | he
    · cases hpair <;> simp [WorkerEffect.isRestore]
    · simp [WorkerEffect.isRestore]
    · simp [WorkerEffect.isRestore]
    · simp [WorkerEffect.isRestore]
    · simp [WorkerEffect.isRestore]
    · split at he
      · rw [List.mem_singleton.mp he]
        simp [WorkerEffect.isRestore]
      · simp at he
  exact h'.apply_of_ne_log hf hother.1 fun hr => by simp [hother.2] at hr

/-- **Step**: an action whose rollback spares the durable value of the field. -/
theorem Sound.step {a : Act Input} (hf : LoggedUpdates f) (h : Sound f (w, d)) (hacc : w.accepts a.input)
    (hspare : w.RollsBack a.input →
      w.OnPage ∧ f.SparedBy d.mark w.log (w.rollbackTid a.input)) :
    Sound f ((tracked f).step (w, d) a) := by
  have hmid : (tracked f).Throughout (Sound f) (w, d) (w.handle a.input) := by
    cases shape_handle hacc with
    | plain _ hplain => exact sound_throughout_plain hf h hplain
    | rollback pre post hroll heq hpre hpost =>
        rw [heq]
        exact sound_throughout_rollback hf h (hspare hroll).1 (hspare hroll).2 hpre hpost
    | update c calls undo wr stamp hinp hkind hpair heq =>
        rw [heq]
        exact sound_throughout_update hf h hpair
  exact Process.step_invariant hmid hmid.last fun s h' => h'.plain (e := .exit) hf rfl

/-! ## Runs -/

/-- The invariant of the three fields. -/
def AllSound (s : Worker × ObjectHistory) : Prop :=
  Sound fieldA (s.1, s.2.A) ∧ Sound fieldB (s.1, s.2.B) ∧ Sound fieldID (s.1, s.2.IDstring)

theorem allSound_initial (w : Worker) (hlog : w.log = []) : AllSound (w, ObjectHistory.initial w.objData) := by
  refine ⟨⟨?_, ?_, ?_⟩, ⟨?_, ?_, ?_⟩, ⟨?_, ?_, ?_⟩⟩ <;>
    simp [ObjectHistory.initial, Durable.Keeps, hlog, fieldA, fieldB, fieldID]

/-- **Durability**: in every run whose rollbacks read a log on the page and reach no undo record
    from before a durable value, no field ever holds a value older than its durable one. -/
theorem durable_values_kept (nodeId : NodeId) (sys_port : ℕ) (A B : ℤ) (IDstring : String)
    (now : Timeval) (as : List (Act Input))
    (hrun : historied.machine.Along (fun s a => s.1.accepts a.input ∧ SparesDurable s a)
      (start nodeId sys_port A B IDstring now,
        ObjectHistory.initial (start nodeId sys_port A B IDstring now).objData) as) :
    let s := historied.machine.after (start nodeId sys_port A B IDstring now,
      ObjectHistory.initial (start nodeId sys_port A B IDstring now).objData) as
    s.2.Keeps s.1.objData := by
  have hsound := hrun.invariant (I := AllSound) (allSound_initial _ rfl) ?_
  · exact ⟨hsound.1.keeps, hsound.2.1.keeps, hsound.2.2.keeps⟩
  rintro ⟨w, g⟩ a ⟨hA, hB, hID⟩ ⟨hacc, hspare⟩
  -- the step of the three histories is, field by field, the step of one
  have hstepA := hA.step (a := a) loggedUpdates_fieldA hacc fun hroll =>
    ⟨(hspare hroll).1, (hspare hroll).2.1⟩
  have hstepB := hB.step (a := a) loggedUpdates_fieldB hacc fun hroll =>
    ⟨(hspare hroll).1, (hspare hroll).2.2.1⟩
  have hstepID := hID.step (a := a) loggedUpdates_fieldID hacc fun hroll =>
    ⟨(hspare hroll).1, (hspare hroll).2.2.2⟩
  rw [tracked, Process.instrument_step_map ObjectHistory.watch fun _ _ _ => rfl] at hstepA hstepB hstepID
  exact ⟨hstepA, hstepB, hstepID⟩

/-- Transaction 1 commits 7; transaction 2 writes 9 and is aborted. -/
theorem durable_values_kept_abort :
    let s := historied.machine.after (worker40, ObjectHistory.initial worker40.objData)
      [deliver .joinSuccess 1, newA 7, deliver .decideCommit 1, deliver .joinSuccess 2, newA 9,
        command .abort]
    s.2.Keeps s.1.objData :=
  durable_values_kept 40 0 1 2 "id" 0 _ (by decide +kernel)

end Worker

end DistributedSystem.Transaction
