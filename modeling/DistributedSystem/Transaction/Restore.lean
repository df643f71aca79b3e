import DistributedSystem.Library.BeforeImage
import DistributedSystem.Transaction.WorkerEffects

/-!
# What a rollback restores

`readValFromRecord` walks the log backwards over the records of one transaction and, at
every join record it meets, writes the values carried so far. This module describes the
walk by the stretch of the log it covers, each restored value by the before-image log of
its field, and the effect of the writes on the object.
-/

namespace DistributedSystem.Transaction

open DistributedSystem.Library

/-! ## The three undo-logged fields -/

/-- A field of the object with an update command: the kind of its undo records, the old
    value such a record holds, and the field itself. -/
structure Field (β : Type) where
  kind : MsgId
  old : Record → β
  get : ObjectData → β
  carried : OldValues → β

def fieldA : Field ℤ := ⟨.newA, Record.oldValue, ObjectData.A, OldValues.oldA⟩

def fieldB : Field ℤ := ⟨.newB, Record.oldValue, ObjectData.B, OldValues.oldB⟩

def fieldID : Field String := ⟨.newIdStr, Record.oldID, ObjectData.IDstring, OldValues.oldID⟩

/-- The value a record holds for a field. -/
def Field.image {β : Type} (f : Field β) (r : Record) : Option β :=
  if r.msgID = f.kind then some (f.old r) else none

theorem Field.image_eq_some {β : Type} {f : Field β} {r : Record} {v : β} (h : f.image r = some v) :
    r.msgID = f.kind ∧ f.old r = v := by
  unfold Field.image at h
  split at h
  · exact ⟨‹_›, Option.some.inj h⟩
  · simp at h

/-! ## The walk -/

/-- All records of a stretch, last one first, have been read. -/
def OldValues.readAll (old : OldValues) (rs : List Record) : OldValues := rs.foldl OldValues.read old

/-- The restorations of `readValLoop` over a stretch of records of one transaction. -/
def restorations : List Record → OldValues → List (OldValues × Record)
  | [], _ => []
  | r :: rs, old =>
      if r.msgID = .jointx then (old, r) :: restorations rs old else restorations rs (old.read r)

/-- The records of `tid` at the end of the log, last one first. -/
def stretch (log : List Record) (tid : Tid) : List Record :=
  log.reverse.takeWhile fun r => r.tid = tid

/-- The walk for `tid` meets a join record before a record of another transaction. -/
def Reaches (log : List Record) (tid : Tid) : Prop := ∃ r ∈ stretch log tid, r.msgID = .jointx

instance (log : List Record) (tid : Tid) : Decidable (Reaches log tid) :=
  inferInstanceAs (Decidable (∃ r ∈ stretch log tid, r.msgID = .jointx))

theorem readValLoop_eq (curTid : Tid) (rs : List Record) (old : OldValues) :
    readValLoop curTid rs old = restorations (rs.takeWhile fun r => r.tid = curTid) old := by
  induction rs generalizing old with
  | nil => rfl
  | cons r rs ih =>
      by_cases hr : r.tid = curTid
      · simp only [readValLoop, hr, if_true, List.takeWhile_cons, decide_true, restorations, ih]
      · simp [readValLoop, hr, restorations]

/-- In general the walk goes over what the page shows of the log. -/
theorem readValFromRecord_eq_mapped (log : List Record) (curTid : Tid) (obj : ObjectData) :
    readValFromRecord log curTid obj = restorations (stretch (mapped log) curTid) obj.current :=
  readValLoop_eq curTid (mapped log).reverse obj.current

theorem readValFromRecord_eq {log : List Record} (h : log.length ≤ mappedRecords) (curTid : Tid)
    (obj : ObjectData) :
    readValFromRecord log curTid obj = restorations (stretch log curTid) obj.current := by
  rw [readValFromRecord_eq_mapped, mapped_eq_self h]

/-- A join record holds no old value. -/
theorem read_jointx {r : Record} (h : r.msgID = .jointx) (old : OldValues) : old.read r = old := by
  simp [OldValues.read, h]

theorem restorations_append (rs rs' : List Record) (old : OldValues) :
    restorations (rs ++ rs') old = restorations rs old ++ restorations rs' (old.readAll rs) := by
  induction rs generalizing old with
  | nil => rfl
  | cons r rs ih =>
      by_cases hr : r.msgID = .jointx
      · simp [restorations, hr, ih, OldValues.readAll, read_jointx hr]
      · simp [restorations, hr, ih, OldValues.readAll]

/-- A restoration belongs to a join record, with what was read after that record. -/
theorem mem_restorations {rs : List Record} {old : OldValues} {x : OldValues × Record}
    (h : x ∈ restorations rs old) :
    x.2.msgID = .jointx ∧ ∃ newer older, rs = newer ++ x.2 :: older ∧ x.1 = old.readAll newer := by
  induction rs generalizing old with
  | nil => simp [restorations] at h
  | cons r rs ih =>
      unfold restorations at h
      by_cases hr : r.msgID = .jointx
      · rw [if_pos hr] at h
        rcases List.mem_cons.mp h with rfl | h
        · exact ⟨hr, [], rs, rfl, rfl⟩
        · obtain ⟨hj, newer, older, hrs, hx⟩ := ih h
          refine ⟨hj, r :: newer, older, by rw [hrs]; rfl, ?_⟩
          rw [hx]
          simp [OldValues.readAll, read_jointx hr]
      · rw [if_neg hr] at h
        obtain ⟨hj, newer, older, hrs, hx⟩ := ih h
        exact ⟨hj, r :: newer, older, by rw [hrs]; rfl, hx⟩

theorem restorations_eq_nil {rs : List Record} (h : ∀ r ∈ rs, r.msgID ≠ .jointx) (old : OldValues) :
    restorations rs old = [] := by
  induction rs generalizing old with
  | nil => rfl
  | cons r rs ih =>
      rw [restorations, if_neg (h r (by simp))]
      exact ih (fun r' hr' => h r' (by simp [hr'])) _

/-! ## The carried values -/

/-- `f` is one of the three fields: reading a record assigns its image. -/
structure Field.Lawful {β : Type} (f : Field β) : Prop where
  read : ∀ (old : OldValues) (r : Record), f.carried (old.read r) = (f.image r).getD (f.carried old)
  current : ∀ obj : ObjectData, f.carried obj.current = f.get obj

theorem lawful_fieldA : fieldA.Lawful where
  read old r := by
    by_cases hr : r.msgID = .newA
    · simp [fieldA, Field.image, OldValues.read, hr]
    · unfold OldValues.read
      split <;> simp_all [fieldA, Field.image]
  current _ := rfl

theorem lawful_fieldB : fieldB.Lawful where
  read old r := by
    by_cases hr : r.msgID = .newB
    · simp [fieldB, Field.image, OldValues.read, hr]
    · unfold OldValues.read
      split <;> simp_all [fieldB, Field.image]
  current _ := rfl

theorem lawful_fieldID : fieldID.Lawful where
  read old r := by
    by_cases hr : r.msgID = .newIdStr
    · simp [fieldID, Field.image, OldValues.read, hr]
    · unfold OldValues.read
      split <;> simp_all [fieldID, Field.image]
  current _ := rfl

/-- What a walk carries is what the before-image log restores. -/
theorem Field.Lawful.readAll {β : Type} {f : Field β} (hf : f.Lawful) (rs : List Record)
    (old : OldValues) :
    f.carried (old.readAll rs) = restored f.image rs.reverse (f.carried old) := by
  induction rs generalizing old with
  | nil => rfl
  | cons r rs ih =>
      have hstep : old.readAll (r :: rs) = (old.read r).readAll rs := rfl
      rw [hstep, ih, hf.read, List.reverse_cons, restored_append, restored_cons, restored_nil]

/-! ## The writes -/

namespace Worker

/-- The object that a restoration writes. -/
def restoredObject (x : OldValues × Record) : ObjectData :=
  { IDstring := x.1.oldID, lastUpdateTime := x.2.lastUpdateTime, A := x.1.oldA, B := x.1.oldB
    vectorClock := x.2.vectorClock }

/-- Writing the clock entries in `ks`. -/
theorem exec_restoreClock (c : VClock) (ks : List (Fin maxNodes)) (w : Worker) :
    process.exec w (ks.map fun k => .restoreClock k (c k)) =
      w.withObj fun o =>
        { o with vectorClock := fun k => if k ∈ ks then c k else w.objData.vectorClock k } := by
  induction ks generalizing w with
  | nil => simp [withObj]
  | cons k ks ih =>
      rw [List.map_cons, Process.exec_cons, ih]
      simp only [process_apply, apply, withObj]
      congr 2
      funext l
      by_cases hl : l ∈ ks
      · simp [hl]
      · by_cases hlk : l = k
        · simp [hlk]
        · simp [hl, hlk]

/-- A restoration writes the whole object, and nothing else. -/
theorem exec_restore (w : Worker) (x : OldValues × Record) :
    process.exec w (restore x) = w.withObj fun _ => restoredObject x := by
  unfold restore
  rw [Process.exec_append, Process.exec_append, exec_restoreClock]
  simp [apply, withObj, restoredObject]

/-- Only the last restoration counts. -/
theorem exec_restorations (w : Worker) (xs : List (OldValues × Record)) :
    process.exec w (xs.flatMap restore) =
      w.withObj fun o => (xs.getLast?.map restoredObject).getD o := by
  induction xs using List.reverseRecOn with
  | nil => rfl
  | append_singleton xs x ih =>
      rw [List.flatMap_append, Process.exec_append, ih]
      simp [exec_restore, withObj]

/-- The object with `tid` undone: the values carried to the oldest join record of the stretch. -/
def undone (log : List Record) (tid : Tid) (obj : ObjectData) : ObjectData :=
  ((restorations (stretch log tid) obj.current).getLast?.map restoredObject).getD obj

/-- **A rollback** undoes the transaction, as far as the page shows it. -/
theorem exec_rollback_mapped (w : Worker) (tid : Tid) :
    process.exec w (w.rollback tid) = w.withObj (undone (mapped w.log) tid) := by
  rw [rollback, readValFromRecord_eq_mapped, exec_restorations]
  rfl

theorem exec_rollback {w : Worker} (h : w.OnPage) (tid : Tid) :
    process.exec w (w.rollback tid) = w.withObj (undone w.log tid) := by
  rw [exec_rollback_mapped, mapped_eq_self h]

end Worker

end DistributedSystem.Transaction
