import DistributedSystem.Library.Window
import DistributedSystem.Transaction.Message

/-!
# The worker's transaction log and its scans

The record format and the three functions of `tworker.c` that read the log back:
`findStateFromRecord`, `isLocalAbort` and `readValFromRecord`. A log is the list of
its records, oldest first; the functions read it from the end.

The functions count the records of the file, but read them through the mapping that `main`
makes at start, and that mapping is one page long: 22 records lie on it, the 23rd ends
behind it.
-/

namespace DistributedSystem.Transaction

open DistributedSystem.Library

/-- `Record`. A call of `writeRecordToLog` sets the fields its `msgID` uses; the others
    hold what the local variable held before, and no reader looks at them. -/
structure Record where
  msgID : MsgId
  tid : Tid
  oldValue : ℤ := 0
  oldID : String := ""
  vectorClock : VClock := emptyClock
  lastUpdateTime : Timeval := 0
  deriving DecidableEq

instance : LogRecord Record := ⟨Record.msgID, Record.tid⟩

@[simp] theorem Record.logRecord_msgID (r : Record) : LogRecord.msgID r = r.msgID := rfl

@[simp] theorem Record.logRecord_tid (r : Record) : LogRecord.tid r = r.tid := rfl

/-! ## The mapped page -/

/-- The records on the page that `mmap(NULL, 512, ..)` maps: 4096 bytes, of which
    `CrashInfo` takes 104, at 176 bytes a record. -/
def mappedRecords : ℕ := 22

/-- The record that the page ends in. Its first 120 bytes lie on the page: everything up to
    the node id of `vectorClock[5]`. The memory behind the page holds zeros. -/
def Record.cut (r : Record) : Record :=
  { r with
    vectorClock := fun k =>
      if k < 5 then r.vectorClock k else ⟨if k = 5 then (r.vectorClock k).nodeId else 0, 0⟩
    lastUpdateTime := 0 }

/-- A record behind the page. -/
def Record.zero : Record := { msgID := .other 0, tid := 0 }

/-- What the scans copy into `records`. -/
def mapped (log : List Record) : List Record := window mappedRecords Record.cut Record.zero log

/-- A log that ends on the page is read as it is. -/
theorem mapped_eq_self {log : List Record} (h : log.length ≤ mappedRecords) : mapped log = log :=
  window_eq_self h

/-- A record that is read is one of the log, at least in what stands before its clock, or
    zero. -/
theorem mem_mapped {log : List Record} {r : Record} (h : r ∈ mapped log) :
    (∃ r' ∈ log, r.msgID = r'.msgID ∧ r.tid = r'.tid) ∨ r = Record.zero := by
  rcases mem_window h with h | ⟨r', hr', rfl⟩ | h
  · exact Or.inl ⟨r, h, rfl, rfl⟩
  · exact Or.inl ⟨r', hr', rfl, rfl⟩
  · exact Or.inr h

/-- Once the log goes past the page, what is appended reads as zero. -/
theorem mapped_append_of_lt {log : List Record} (h : mappedRecords < log.length) (rs : List Record) :
    mapped (log ++ rs) = mapped log ++ List.replicate rs.length Record.zero :=
  window_append_of_lt h rs

/-- A record appended to the log is read behind the others, cut or zero where the page ends. -/
theorem mapped_concat (log : List Record) (r : Record) :
    ∃ r', mapped (log ++ [r]) = mapped log ++ [r'] ∧
      ((r'.msgID = r.msgID ∧ r'.tid = r.tid) ∨ r' = Record.zero) := by
  refine ⟨_, window_concat, ?_⟩
  by_cases hlt : log.length < mappedRecords
  · rw [if_pos hlt]
    exact Or.inl ⟨rfl, rfl⟩
  rw [if_neg hlt]
  by_cases heq : log.length = mappedRecords
  · rw [if_pos heq]
    exact Or.inl ⟨rfl, rfl⟩
  · rw [if_neg heq]
    exact Or.inr rfl

/-- What is read behind the records of a shorter log. -/
theorem mapped_append (log rs : List Record) :
    ∃ rs', mapped (log ++ rs) = mapped log ++ rs' ∧
      ∀ r ∈ rs', (∃ r' ∈ rs, r.msgID = r'.msgID ∧ r.tid = r'.tid) ∨ r = Record.zero := by
  induction rs using List.reverseRecOn with
  | nil => exact ⟨[], by simp, by simp⟩
  | append_singleton rs r ih =>
      obtain ⟨rs', hmapped, hrs'⟩ := ih
      obtain ⟨r', hmapped', hr'⟩ := mapped_concat (log ++ rs) r
      refine ⟨rs' ++ [r'], by rw [← List.append_assoc, hmapped', hmapped, List.append_assoc], ?_⟩
      intro x hx
      rcases List.mem_append.mp hx with hx | hx
      · rcases hrs' x hx with ⟨y, hy, hxy⟩ | hx
        · exact Or.inl ⟨y, List.mem_append_left _ hy, hxy⟩
        · exact Or.inr hx
      · rw [List.mem_singleton.mp hx]
        rcases hr' with hr' | hr'
        · exact Or.inl ⟨r, by simp, hr'⟩
        · exact Or.inr hr'

/-! ## The scans -/

/-- `findStateFromRecord`: the kind of the last record, and its transaction, which
    becomes `curTid`. An empty log gives `0` and leaves `curTid` alone. -/
def findStateFromRecord (log : List Record) : Option Record := (mapped log).getLast?

theorem findStateFromRecord_eq {log : List Record} (h : log.length ≤ mappedRecords) :
    findStateFromRecord log = log.getLast? := by
  rw [findStateFromRecord, mapped_eq_self h]

/-- The loop of `isLocalAbort`, on the records still to be read, last one first. -/
def isLocalAbortLoop (curTid : Tid) : List Record → Bool
  | [] => false
  | r :: rs => if r.tid = curTid ∧ r.msgID = .abort then true else isLocalAbortLoop curTid rs

/-- `isLocalAbort` -/
def isLocalAbort (log : List Record) (curTid : Tid) : Bool :=
  isLocalAbortLoop curTid (mapped log).reverse

/-- `isLocalAbort` finds an `ABORT` record anywhere on the page. -/
theorem isLocalAbort_iff_mapped {log : List Record} {curTid : Tid} :
    isLocalAbort log curTid = true ↔ ∃ r ∈ mapped log, r.tid = curTid ∧ r.msgID = .abort := by
  have hloop : ∀ rs : List Record, isLocalAbortLoop curTid rs = true ↔
      ∃ r ∈ rs, r.tid = curTid ∧ r.msgID = .abort := by
    intro rs
    induction rs with
    | nil => simp [isLocalAbortLoop]
    | cons r rs ih =>
        unfold isLocalAbortLoop
        by_cases hr : r.tid = curTid ∧ r.msgID = .abort
        · simp [hr]
        · simp [hr, ih]
  rw [isLocalAbort, hloop]
  simp only [List.mem_reverse]

/-- An `ABORT` record that is found is in the log. -/
theorem exists_abort_of_isLocalAbort {log : List Record} {curTid : Tid}
    (h : isLocalAbort log curTid = true) : ∃ r ∈ log, r.tid = curTid ∧ r.msgID = .abort := by
  obtain ⟨r, hr, htid, hid⟩ := isLocalAbort_iff_mapped.mp h
  rcases mem_mapped hr with ⟨r', hr', hid', htid'⟩ | rfl
  · exact ⟨r', hr', htid' ▸ htid, hid' ▸ hid⟩
  · exact absurd hid (by simp [Record.zero])

/-- As long as the log ends on the page, every `ABORT` record is found. -/
theorem isLocalAbort_iff {log : List Record} {curTid : Tid} (h : log.length ≤ mappedRecords) :
    isLocalAbort log curTid = true ↔ ∃ r ∈ log, r.tid = curTid ∧ r.msgID = .abort := by
  rw [isLocalAbort_iff_mapped, mapped_eq_self h]

/-- The record of a `PREPARE_COMMIT` does not change the scan. -/
theorem isLocalAbort_prepare (log : List Record) (tid curTid : Tid) :
    isLocalAbort (log ++ [{ msgID := .prepareCommit, tid }]) curTid = isLocalAbort log curTid := by
  obtain ⟨r, hmapped, hr⟩ := mapped_concat log { msgID := .prepareCommit, tid }
  have hnot : r.msgID ≠ .abort := by
    rcases hr with ⟨hid, -⟩ | rfl
    · simp [hid]
    · simp [Record.zero]
  rw [Bool.eq_iff_iff, isLocalAbort_iff_mapped, isLocalAbort_iff_mapped, hmapped]
  simp [hnot]

/-- The values of `A`, `B` and `IDstring` that the loop of `readValFromRecord` carries. -/
structure OldValues where
  oldA : ℤ
  oldB : ℤ
  oldID : String
  deriving DecidableEq

/-- One pass of the loop body over an undo record. -/
def OldValues.read (old : OldValues) (r : Record) : OldValues :=
  match r.msgID with
  | .newA => { old with oldA := r.oldValue }
  | .newB => { old with oldB := r.oldValue }
  | .newIdStr => { old with oldID := r.oldID }
  | _ => old

/-- The loop of `readValFromRecord`, on the records still to be read, last one first.
    It returns the restorations it makes: at every join record the values carried so
    far, together with that record. The loop goes on after a join record and ends at
    the first record of another transaction. -/
def readValLoop (curTid : Tid) : List Record → OldValues → List (OldValues × Record)
  | [], _ => []
  | r :: rs, old =>
      if r.tid = curTid then
        if r.msgID = .jointx then (old, r) :: readValLoop curTid rs old
        else readValLoop curTid rs (old.read r)
      else []

/-- The values `readValFromRecord` starts from. -/
def ObjectData.current (obj : ObjectData) : OldValues := ⟨obj.A, obj.B, obj.IDstring⟩

/-- The restorations of `readValFromRecord`. -/
def readValFromRecord (log : List Record) (curTid : Tid) (obj : ObjectData) :
    List (OldValues × Record) :=
  readValLoop curTid (mapped log).reverse obj.current

end DistributedSystem.Transaction
