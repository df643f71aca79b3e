import DistributedSystem.LogFiles.Layout
import DistributedSystem.Library.CString
import DistributedSystem.Transaction.WorkerEffects

/-!
# The worker's log file

The functions of `tworker.c` that read and write the log, on its bytes. Records are appended,
the header is written in place through the mapping, and the scans copy the records out of the
mapping, which is one page long. `Represents` ties the bytes to the state of the worker, and every
effect of the worker keeps it, whatever stands in the fields of a record that its kind does not
use.
-/

namespace DistributedSystem.LogFiles.Worker

open Library

/-- The log file of a worker. -/
abbrev LogFile := RecordFile crashInfoCodec recordCodec

/-! ## The header -/

def sysPort : Codec.Field crashInfoCodec Codec.hostLong :=
  (Codec.Field.fst _ _).equiv crashInfoEquiv

def managerAddr : Codec.Field crashInfoCodec sockAddrCodec :=
  ((Codec.Field.snd _ _).comp (Codec.Field.fst _ _)).equiv crashInfoEquiv

def vectorClock : Codec.Field crashInfoCodec (clockCodec.array MAX_NODES) :=
  ((Codec.Field.snd _ _).comp (Codec.Field.snd _ _)).equiv crashInfoEquiv

/-! ## The scans -/

/-- `findStateFromRecord`: its return value, and `curTid` behind it. -/
def findStateFromRecord (f : LogFile) (curTid : UInt32) : UInt32 × UInt32 :=
  if 0 < f.numRec then
    let lastRecord := f.load pageSize (f.numRec - 1)
    (lastRecord.msgID, lastRecord.tid)
  else (0, curTid)

/-- The loop of `isLocalAbort`, on the records still to be read, last one first. -/
def isLocalAbortLoop (curTid : UInt32) : List Record → Bool
  | [] => false
  | r :: rs => if r.tid = curTid ∧ r.msgID.toNat = 1009 then true else isLocalAbortLoop curTid rs

/-- `isLocalAbort` -/
def isLocalAbort (f : LogFile) (curTid : UInt32) : Bool :=
  isLocalAbortLoop curTid (f.loadAll pageSize).reverse

/-- The local variables of `readValFromRecord`; of `oldID` the string that it holds. -/
structure OldValues where
  oldA : Int32
  oldB : Int32
  oldID : List UInt8

/-- The `switch` of `readValFromRecord` on an undo record. -/
def OldValues.read (old : OldValues) (r : Record) : OldValues :=
  match r.msgID.toNat with
  | 1002 => { old with oldA := r.oldValue }
  | 1003 => { old with oldB := r.oldValue }
  | 1004 => { old with oldID := CString.arrayString r.oldID }
  | _ => old

/-- The loop of `readValFromRecord`, on the records still to be read, last one first, with the
    restorations that it makes. -/
def readValLoop (curTid : UInt32) : List Record → OldValues → List (OldValues × Record)
  | [], _ => []
  | r :: rs, old =>
      if r.tid = curTid then
        if r.msgID.toNat = 1001 then (old, r) :: readValLoop curTid rs old
        else readValLoop curTid rs (old.read r)
      else []

/-- `readValFromRecord` -/
def readValFromRecord (f : LogFile) (curTid : UInt32) (old : OldValues) : List (OldValues × Record) :=
  readValLoop curTid (f.loadAll pageSize).reverse old

/-! ## What the bytes say -/

/-- The characters of a C string. -/
def text (s : List UInt8) : String := String.ofList (s.map fun b => Char.ofNat b.toNat)

/-- The bytes of a record say what the record says; a field that its kind does not use may hold
    anything. -/
structure Says (b : Record) (r : Transaction.Record) : Prop where
  msgID : kind b.msgID.toNat = r.msgID
  tid : b.tid.toNat = r.tid
  oldValue : r.msgID = .newA ∨ r.msgID = .newB → b.oldValue.toInt = r.oldValue
  oldID : r.msgID = .newIdStr → text (CString.arrayString b.oldID) = r.oldID
  vectorClock : r.msgID = .jointx → clockView b.vectorClock = r.vectorClock
  lastUpdateTime : r.msgID = .jointx → b.lastUpdateTime.view = r.lastUpdateTime

/-- The file holds the header and the log of the worker. -/
def Represents (f : LogFile) (w : Transaction.Worker) : Prop :=
  ∃ x bs, f.Holds x bs ∧ x.view = w.crashInfo ∧ List.Forall₂ Says bs w.log

/-- What an effect of the worker does to the file. -/
def Writes (w : Transaction.Worker) (f f' : LogFile) : Transaction.WorkerEffect → Prop
  | .log r => ∃ b, Says b r ∧ f' = f.append b
  | .saveVectorTime =>
      ∃ vc, clockView vc = w.mem.myVectorClock ∧ f' = saveVectorTime f vectorClock vc
  | .managerAddr a => ∃ b : SockAddrIn, b.view = a ∧ f' = f.storeField managerAddr b
  | _ => f' = f

/-- What the effects of the worker do to the file, one after the other. -/
def Written : Transaction.Worker → List Transaction.WorkerEffect → LogFile → LogFile → Prop
  | _, [], f, f' => f' = f
  | w, e :: es, f, f' => ∃ f₁, Writes w f f₁ e ∧ Written (w.apply e) es f₁ f'

variable {w : Transaction.Worker} {f f' : LogFile} {e : Transaction.WorkerEffect}

/-- **Step lemma**: one effect of the worker. -/
theorem Represents.apply (h : Represents f w) (hw : Writes w f f' e) : Represents f' (w.apply e) := by
  obtain ⟨x, bs, hf, hx, hlog⟩ := h
  cases e with
  | log r =>
      obtain ⟨b, hb, rfl⟩ := hw
      exact ⟨x, bs ++ [b], hf.append b, hx, List.rel_append hlog (.cons hb .nil)⟩
  | saveVectorTime =>
      obtain ⟨vc, hvc, rfl⟩ := hw
      refine ⟨_, bs, holds_saveVectorTime hf vectorClock vc, ?_, hlog⟩
      show CrashInfo.view _ = { w.crashInfo with vectorClock := w.mem.myVectorClock }
      rw [← hx, ← hvc]
      rfl
  | managerAddr a =>
      obtain ⟨b, rfl, rfl⟩ := hw
      refine ⟨_, bs, hf.storeField managerAddr b, ?_, hlog⟩
      show CrashInfo.view _ = { w.crashInfo with managerAddr := b.view }
      rw [← hx]
      rfl
  | objClock i =>
      obtain rfl := hw
      refine ⟨x, bs, hf, ?_, ?_⟩
      · simp only [Transaction.Worker.apply]
        split <;> exact hx
      · simp only [Transaction.Worker.apply]
        split <;> exact hlog
  | _ =>
      obtain rfl := hw
      exact ⟨x, bs, hf, hx, hlog⟩

/-- **Run lemma**: all effects of a run. -/
theorem Represents.exec {es : List Transaction.WorkerEffect} (h : Represents f w)
    (hw : Written w es f f') : Represents f' (Transaction.Worker.process.exec w es) := by
  induction es generalizing w f with
  | nil =>
      obtain rfl := hw
      exact h
  | cons e es ih =>
      obtain ⟨f₁, hfirst, hrest⟩ := hw
      exact ih (h.apply hfirst) hrest

/-! ## The scans agree -/

variable {b : Record} {r : Transaction.Record} {bs : List Record} {log : List Transaction.Record}
  {curTid : UInt32}

theorem Says.tid_eq_iff (h : Says b r) : b.tid = curTid ↔ r.tid = curTid.toNat := by
  rw [← h.tid, UInt32.toNat_inj]

theorem Says.msgID_eq_iff (h : Says b r) {k : Transaction.MsgId} (hk : kind (code k) = k) :
    b.msgID.toNat = code k ↔ r.msgID = k := by
  rw [← h.msgID, kind_eq_iff hk]

theorem isLocalAbortLoop_eq (h : List.Forall₂ Says bs log) :
    isLocalAbortLoop curTid bs = Transaction.isLocalAbortLoop curTid.toNat log := by
  induction h with
  | nil => rfl
  | @cons b r bs log hb _ ih =>
      have hif : b.tid = curTid ∧ b.msgID.toNat = 1009 ↔ r.tid = curTid.toNat ∧ r.msgID = .abort :=
        and_congr hb.tid_eq_iff (hb.msgID_eq_iff (k := .abort) rfl)
      rw [isLocalAbortLoop, Transaction.isLocalAbortLoop, if_congr hif rfl rfl, ih]

/-- The values that the loop of `readValFromRecord` carries. -/
structure SaysOld (old : OldValues) (old' : Transaction.OldValues) : Prop where
  oldA : old.oldA.toInt = old'.oldA
  oldB : old.oldB.toInt = old'.oldB
  oldID : text old.oldID = old'.oldID

theorem Says.read {old : OldValues} {old' : Transaction.OldValues} (h : Says b r) (hold : SaysOld old old') :
    SaysOld (old.read b) (old'.read r) := by
  by_cases hA : r.msgID = .newA
  · have hn : b.msgID.toNat = 1002 := (h.msgID_eq_iff (k := .newA) rfl).mpr hA
    simp only [OldValues.read, Transaction.OldValues.read, hn, hA]
    exact ⟨h.oldValue (Or.inl hA), hold.oldB, hold.oldID⟩
  by_cases hB : r.msgID = .newB
  · have hn : b.msgID.toNat = 1003 := (h.msgID_eq_iff (k := .newB) rfl).mpr hB
    simp only [OldValues.read, Transaction.OldValues.read, hn, hB]
    exact ⟨hold.oldA, h.oldValue (Or.inr hB), hold.oldID⟩
  by_cases hID : r.msgID = .newIdStr
  · have hn : b.msgID.toNat = 1004 := (h.msgID_eq_iff (k := .newIdStr) rfl).mpr hID
    simp only [OldValues.read, Transaction.OldValues.read, hn, hID]
    exact ⟨hold.oldA, hold.oldB, h.oldID hID⟩
  · -- any other record leaves the values alone
    have hA' : b.msgID.toNat ≠ 1002 := fun hn => hA ((h.msgID_eq_iff (k := .newA) rfl).mp hn)
    have hB' : b.msgID.toNat ≠ 1003 := fun hn => hB ((h.msgID_eq_iff (k := .newB) rfl).mp hn)
    have hID' : b.msgID.toNat ≠ 1004 := fun hn => hID ((h.msgID_eq_iff (k := .newIdStr) rfl).mp hn)
    have hbytes : old.read b = old := by
      unfold OldValues.read
      split <;> first | rfl | contradiction
    have hmodel : old'.read r = old' := by
      unfold Transaction.OldValues.read
      split <;> first | rfl | contradiction
    rwa [hbytes, hmodel]

/-- A restoration, with the values carried so far and the stamps of the join record. -/
structure SaysRestore (x : OldValues × Record) (y : Transaction.OldValues × Transaction.Record) :
    Prop where
  old : SaysOld x.1 y.1
  vectorClock : clockView x.2.vectorClock = y.2.vectorClock
  lastUpdateTime : x.2.lastUpdateTime.view = y.2.lastUpdateTime

theorem readValLoop_says {old : OldValues} {old' : Transaction.OldValues}
    (h : List.Forall₂ Says bs log) (hold : SaysOld old old') :
    List.Forall₂ SaysRestore (readValLoop curTid bs old)
      (Transaction.readValLoop curTid.toNat log old') := by
  induction h generalizing old old' with
  | nil => exact .nil
  | @cons b r bs log hb _ ih =>
      rw [readValLoop, Transaction.readValLoop]
      by_cases ht : r.tid = curTid.toNat
      · rw [if_pos (hb.tid_eq_iff.mpr ht), if_pos ht]
        by_cases hj : r.msgID = .jointx
        · have hn : b.msgID.toNat = 1001 := (hb.msgID_eq_iff (k := .jointx) rfl).mpr hj
          rw [if_pos hn, if_pos hj]
          exact .cons ⟨hold, hb.vectorClock hj, hb.lastUpdateTime hj⟩ (ih hold)
        · have hn : b.msgID.toNat ≠ 1001 := fun hn => hj ((hb.msgID_eq_iff (k := .jointx) rfl).mp hn)
          rw [if_neg hn, if_neg hj]
          exact ih (hb.read hold)
      · rw [if_neg fun hb' => ht (hb.tid_eq_iff.mp hb'), if_neg ht]
        exact .nil

/-! ## What lies on the page -/

/-- The record that the page ends in says what is left of the record of the log. -/
theorem Says.clip (h : Says b r) : Says (recordCodec.clip 120 b) r.cut := by
  rw [clip_record]
  refine ⟨h.msgID, h.tid, h.oldValue, h.oldID, fun hj => ?_, fun _ => timeval_view_blank⟩
  rw [Transaction.Record.cut, ← h.vectorClock hj]
  funext k
  simp only [clockView, Codec.clip_array]
  by_cases hlt : k < 5
  · rw [if_pos hlt, Codec.clip_of_le]
    show 8 ≤ 44 - k.val * 8
    have hk : k.val < 5 := hlt
    omega
  rw [if_neg hlt]
  by_cases heq : k = 5
  · subst heq
    rw [if_pos rfl]
    exact congrArg Clock.view (clip_clock (b.vectorClock 5))
  · rw [if_neg heq]
    have hgone : 44 - k.val * clockCodec.size = 0 := by
      show 44 - k.val * 8 = 0
      have hk : ¬ k.val < 5 := hlt
      have hk' : k.val ≠ 5 := fun h => heq (Fin.ext h)
      omega
    rw [hgone, Codec.clip_zero]
    rfl

/-- A record behind the page. -/
theorem says_blank : Says recordCodec.blank Transaction.Record.zero :=
  ⟨rfl, rfl, by decide, by decide, by decide, by decide⟩

/-- The scans of the file see what the scans of the log see. -/
structure ScansAgree (f : LogFile) (log : List Transaction.Record) : Prop where
  state : ∀ curTid,
    match Transaction.findStateFromRecord log with
    | some r => kind (findStateFromRecord f curTid).1.toNat = r.msgID ∧
        (findStateFromRecord f curTid).2.toNat = r.tid
    | none => findStateFromRecord f curTid = (0, curTid)
  localAbort : ∀ curTid, isLocalAbort f curTid = Transaction.isLocalAbort log curTid.toNat
  restorations : ∀ curTid old obj, SaysOld old obj.current →
    List.Forall₂ SaysRestore (readValFromRecord f curTid old)
      (Transaction.readValFromRecord log curTid.toNat obj)
  dump : List.Forall₂ Says (dumpObject f) (Transaction.mapped log)

variable {x : CrashInfo}

/-- The records that a scan copies are those that the page leaves of the log. -/
theorem copied_of_holds (hf : f.Holds x bs) (hlog : List.Forall₂ Says bs log) :
    List.Forall₂ Says (f.loadAll pageSize) (Transaction.mapped log) := by
  -- 4096 = 104 + 22 * 176 + 120
  have hpage : pageSize = crashInfoCodec.size + 22 * recordCodec.size + 120 := rfl
  rw [hf.loadAll hpage (by decide)]
  exact forall₂_window (fun _ _ => Says.clip) says_blank hlog

theorem scansAgree_of_holds (hf : f.Holds x bs) (hlog : List.Forall₂ Says bs log) : ScansAgree f log := by
  have hcopied := copied_of_holds hf hlog
  refine ⟨fun curTid => ?_, fun curTid => ?_, fun curTid old obj hold => ?_, hcopied⟩
  · have hnum : f.numRec = (f.loadAll pageSize).length := by
      rw [RecordFile.loadAll, List.length_map, List.length_range]
    by_cases hempty : Transaction.mapped log = []
    · rw [Transaction.findStateFromRecord, hempty, findStateFromRecord, hnum, hcopied.length_eq, hempty]
      rfl
    · -- the last record is the only one that is read
      have hpos : 0 < (Transaction.mapped log).length := List.length_pos_iff.mpr hempty
      have hlast : (Transaction.mapped log).length - 1 < (f.loadAll pageSize).length := by
        rw [hcopied.length_eq]
        omega
      have hread := hcopied.get hlast (by omega)
      have hload : f.load pageSize (f.numRec - 1) =
          (f.loadAll pageSize)[(Transaction.mapped log).length - 1] := by
        rw [hnum, hcopied.length_eq]
        simp only [RecordFile.loadAll, List.getElem_map, List.getElem_range]
      rw [Transaction.findStateFromRecord, List.getLast?_eq_getElem?, List.getElem?_eq_getElem (by omega),
        findStateFromRecord, if_pos (by rwa [hnum, hcopied.length_eq]), hload]
      exact ⟨hread.msgID, hread.tid⟩
  · rw [isLocalAbort, isLocalAbortLoop_eq (List.rel_reverse hcopied)]
    rfl
  · exact readValLoop_says (List.rel_reverse hcopied) hold

/-- The log file of worker 40 after its first start. -/
def freshFile : LogFile where
  bytes := crashInfoCodec.write ⟨0, ⟨fun _ => 0, fun _ => 0, 0, fun _ => 0⟩, ownClock 40 1⟩
  header_le := Nat.le_of_eq (crashInfoCodec.length_write _).symm

def joinAddr : SockAddrIn := ⟨fun _ => 2, fun i => if i.val = 0 then 0 else 7, 1, fun _ => 255⟩

/-- The record of the join; the fields that a join does not use hold garbage. -/
def joinRecord : Record := ⟨1001, 5, -1, fun _ => 65, ownClock 40 1, fun _ => 66, ⟨0, 0⟩⟩

/-- `JOIN_SUCCESS` for transaction 5. -/
def joinRun : List (Act Transaction.Worker.Input) :=
  [⟨.manager ⟨1, 7⟩ ⟨.joinSuccess, 5, 40, false, Transaction.emptyClock⟩, none⟩]

end DistributedSystem.LogFiles.Worker
