import DistributedSystem.LogFiles.Layout
import DistributedSystem.Transaction.VoteTimeout

/-!
# The manager's log file

The functions of `tmanager.c` that read and write the log, on its bytes. The table is the header
of the file, and every assignment to one of its fields is a store at the offset of the field. The
scans copy the records out of the mapping, which is one page long.
-/

namespace DistributedSystem.LogFiles.Manager

open Library

/-- The log file of the manager. -/
abbrev LogFile := RecordFile coordCrashInfoCodec coordRecordCodec

/-! ## The header -/

def vectorClock : Codec.Field coordCrashInfoCodec (clockCodec.array MAX_NODES) :=
  (Codec.Field.fst _ _).equiv coordCrashInfoEquiv

/-- `workerInfo[i]` -/
def slot (i : Fin MAX_TRANS) : Codec.Field coordCrashInfoCodec infoCodec :=
  ((Codec.Field.snd _ _).comp (Codec.Field.entry infoCodec i)).equiv coordCrashInfoEquiv

def tid (i : Fin MAX_TRANS) : Codec.Field coordCrashInfoCodec Codec.hostWord :=
  (slot i).comp ((Codec.Field.fst _ _).equiv infoEquiv)

def isCrash (i : Fin MAX_TRANS) : Codec.Field coordCrashInfoCodec Codec.hostSignedWord :=
  (slot i).comp (((Codec.Field.snd _ _).comp (Codec.Field.fst _ _)).equiv infoEquiv)

/-- `workerInfo[i].workers[j]` -/
def worker (i : Fin MAX_TRANS) (j : Fin MAX_NODES) : Codec.Field coordCrashInfoCodec wCodec :=
  (slot i).comp ((((Codec.Field.snd _ _).comp (Codec.Field.snd _ _)).comp
    (Codec.Field.entry wCodec j)).equiv infoEquiv)

def nodeId (i : Fin MAX_TRANS) (j : Fin MAX_NODES) : Codec.Field coordCrashInfoCodec Codec.hostWord :=
  (worker i j).comp ((Codec.Field.fst _ _).equiv wEquiv)

def port (i : Fin MAX_TRANS) (j : Fin MAX_NODES) : Codec.Field coordCrashInfoCodec Codec.hostWord :=
  (worker i j).comp (((Codec.Field.snd _ _).comp (Codec.Field.fst _ _)).equiv wEquiv)

def workerAddr (i : Fin MAX_TRANS) (j : Fin MAX_NODES) : Codec.Field coordCrashInfoCodec sockAddrCodec :=
  (worker i j).comp (((Codec.Field.snd _ _).comp ((Codec.Field.snd _ _).comp
    (Codec.Field.fst _ _))).equiv wEquiv)

def voteYes (i : Fin MAX_TRANS) (j : Fin MAX_NODES) : Codec.Field coordCrashInfoCodec Codec.hostWord :=
  (worker i j).comp (((Codec.Field.snd _ _).comp ((Codec.Field.snd _ _).comp
    (Codec.Field.snd _ _))).equiv wEquiv)

/-! ## The scans -/

/-- `isCommit` -/
def isCommit (f : LogFile) (curTid : UInt32) : Bool :=
  (f.loadAll pageSize).reverse.any fun r => r.tid = curTid ∧ r.msgID.toNat = 2001

/-- An entry of `state`. -/
structure State where
  tid : UInt32
  isCommit : Bool

/-- The body of the loop of `findStateFromRecord` over the records. -/
def markCommit (state : Fin MAX_TRANS → State) (r : CoordRecord) : Fin MAX_TRANS → State :=
  if r.msgID.toNat = 2001 then
    fun k => if r.tid = (state k).tid then { state k with isCommit := true } else state k
  else state

/-- `findStateFromRecord` -/
def findStateFromRecord (f : LogFile) : Fin MAX_TRANS → State :=
  (f.loadAll pageSize).reverse.foldl markCommit fun i => ⟨(f.header.workerInfo i).tid, false⟩

/-- The inner loop of `waitingForVotes`, on the records still to be read, last one first. -/
def waitingLoop (curTid : UInt32) : List CoordRecord → Bool
  | [] => false
  | r :: rs =>
      if r.tid = curTid then
        -- `DECIDE_ABORT || DECIDE_COMMIT`
        if r.msgID.toNat = 1 then false
        else if r.msgID.toNat = 1018 then true
        else waitingLoop curTid rs
      else waitingLoop curTid rs

/-- `waitingForVotes`, with the transaction it stores in `abortTid`. -/
def waitingForVotes (f : LogFile) : Option UInt32 :=
  let crashInfo := f.header
  (firstFin fun i => waitingLoop (crashInfo.workerInfo i).tid (f.loadAll pageSize).reverse).map fun i =>
    (crashInfo.workerInfo i).tid

/-! ## What the bytes say -/

/-- The file holds the clock, the table and the log of the manager. -/
def Represents (f : LogFile) (s : Transaction.Manager) : Prop :=
  ∃ x bs, f.Holds x bs ∧ clockView x.vectorClock = s.vectorClock ∧
    (∀ i, (x.workerInfo i).view = s.workerInfo i) ∧ bs.map CoordRecord.view = s.log

/-- What an effect of the manager does to the file. -/
def Writes (s : Transaction.Manager) (f f' : LogFile) : Transaction.ManagerEffect → Prop
  | .log r => ∃ b : CoordRecord, b.view = r ∧ f' = f.append b
  | .tid i t => ∃ v : UInt32, v.toNat = t ∧ f' = f.storeField (tid i) v
  | .isCrash i b => ∃ v : Int32, decide (v ≠ 0) = b ∧ f' = f.storeField (isCrash i) v
  | .nodeId i j n => ∃ v : UInt32, v.toNat = n ∧ f' = f.storeField (nodeId i j) v
  | .port i j p => ∃ v : UInt32, v.toNat = p ∧ f' = f.storeField (port i j) v
  | .workerAddr i j a => ∃ b : SockAddrIn, b.view = a ∧ f' = f.storeField (workerAddr i j) b
  | .voteYes i j v => ∃ b : UInt32, (if b = 0 then none else some (kind b.toNat)) = v ∧
      f' = f.storeField (voteYes i j) b
  | .saveVectorTime =>
      ∃ vc, clockView vc = s.mem.myVectorClock ∧ f' = saveVectorTime f vectorClock vc
  | _ => f' = f

/-- What the effects of the manager do to the file, one after the other. -/
def Written : Transaction.Manager → List Transaction.ManagerEffect → LogFile → LogFile → Prop
  | _, [], f, f' => f' = f
  | s, e :: es, f, f' => ∃ f₁, Writes s f f₁ e ∧ Written (s.apply e) es f₁ f'

variable {s : Transaction.Manager} {f f' : LogFile} {e : Transaction.ManagerEffect}

/-- A slot of the table is overwritten. -/
theorem view_update_slot {T : Fin MAX_TRANS → Info} {T' : Transaction.Table}
    (h : ∀ k, (T k).view = T' k) (i : Fin MAX_TRANS) {y : Info} {g : Transaction.Info → Transaction.Info}
    (hy : y.view = g (T i).view) (k : Fin MAX_TRANS) :
    (Function.update T i y k).view = Function.update T' i (g (T' i)) k := by
  by_cases hk : k = i
  · subst hk
    rw [Function.update_self, Function.update_self, hy, h]
  · rw [Function.update_of_ne hk, Function.update_of_ne hk, h]

/-- A participant of a slot is overwritten. -/
theorem view_update_worker (x : Info) (j : Fin MAX_NODES) {w : W} {g : Transaction.W → Transaction.W}
    (hw : w.view = g (x.workers j).view) :
    ({ x with workers := Function.update x.workers j w } : Info).view =
      { x.view with workers := Function.update x.view.workers j (g (x.view.workers j)) } := by
  simp only [Info.view, Transaction.Info.mk.injEq, true_and]
  funext k
  by_cases hk : k = j
  · subst hk
    rw [Function.update_self, Function.update_self, hw]
  · rw [Function.update_of_ne hk, Function.update_of_ne hk]

/-- **Step lemma**: one effect of the manager. -/
theorem Represents.apply (h : Represents f s) (hw : Writes s f f' e) : Represents f' (s.apply e) := by
  obtain ⟨x, bs, hf, hclock, htable, hlog⟩ := h
  have hentry : ∀ (i : Fin MAX_TRANS) (j : Fin MAX_NODES) (w : W) (g : Transaction.W → Transaction.W),
      w.view = g ((x.workerInfo i).workers j).view →
      ∀ k, (Function.update x.workerInfo i
          { x.workerInfo i with workers := Function.update (x.workerInfo i).workers j w } k).view =
        (s.withEntry i j g).workerInfo k := by
    intro i j w g hg
    exact view_update_slot (g := fun y => { y with workers := Function.update y.workers j (g (y.workers j)) })
      htable i (view_update_worker _ j hg)
  cases e with
  | log r =>
      obtain ⟨b, rfl, rfl⟩ := hw
      refine ⟨x, bs ++ [b], hf.append b, hclock, htable, ?_⟩
      rw [List.map_append, hlog]
      rfl
  | tid i t =>
      obtain ⟨v, rfl, rfl⟩ := hw
      exact ⟨_, bs, hf.storeField (tid i) v, hclock,
        view_update_slot (g := fun y => { y with tid := v.toNat }) htable i rfl, hlog⟩
  | isCrash i b =>
      obtain ⟨v, rfl, rfl⟩ := hw
      exact ⟨_, bs, hf.storeField (isCrash i) v, hclock,
        view_update_slot (g := fun y => { y with isCrash := decide (v ≠ 0) }) htable i rfl, hlog⟩
  | nodeId i j n =>
      obtain ⟨v, rfl, rfl⟩ := hw
      refine ⟨_, bs, hf.storeField (nodeId i j) v, hclock, ?_, hlog⟩
      exact hentry i j { (x.workerInfo i).workers j with nodeId := v } (fun w => { w with nodeId := v.toNat }) rfl
  | port i j p =>
      obtain ⟨v, rfl, rfl⟩ := hw
      refine ⟨_, bs, hf.storeField (port i j) v, hclock, ?_, hlog⟩
      exact hentry i j { (x.workerInfo i).workers j with port := v } (fun w => { w with port := v.toNat }) rfl
  | workerAddr i j a =>
      obtain ⟨b, rfl, rfl⟩ := hw
      refine ⟨_, bs, hf.storeField (workerAddr i j) b, hclock, ?_, hlog⟩
      exact hentry i j { (x.workerInfo i).workers j with workerAddr := b } (fun w => { w with workerAddr := b.view }) rfl
  | voteYes i j v =>
      obtain ⟨b, rfl, rfl⟩ := hw
      refine ⟨_, bs, hf.storeField (voteYes i j) b, hclock, ?_, hlog⟩
      exact hentry i j { (x.workerInfo i).workers j with voteYes := b }
        (fun w => { w with voteYes := if b = 0 then none else some (kind b.toNat) }) rfl
  | saveVectorTime =>
      obtain ⟨vc, hvc, rfl⟩ := hw
      exact ⟨_, bs, holds_saveVectorTime hf vectorClock vc, hvc, htable, hlog⟩
  | _ =>
      obtain rfl := hw
      exact ⟨x, bs, hf, hclock, htable, hlog⟩

/-- **Run lemma**: all effects of a run. -/
theorem Represents.exec {es : List Transaction.ManagerEffect} (h : Represents f s)
    (hw : Written s es f f') : Represents f' (Transaction.Manager.process.exec s es) := by
  induction es generalizing s f with
  | nil =>
      obtain rfl := hw
      exact h
  | cons e es ih =>
      obtain ⟨f₁, hfirst, hrest⟩ := hw
      exact ih (h.apply hfirst) hrest

/-! ## The scans agree -/

variable {r : CoordRecord} {bs : List CoordRecord} {curTid : UInt32} {x : CoordCrashInfo}

theorem CoordRecord.tid_eq_iff : r.tid = curTid ↔ r.view.tid = curTid.toNat := by
  rw [CoordRecord.view, UInt32.toNat_inj]

theorem CoordRecord.msgID_eq_iff {k : Transaction.MsgId} (hk : kind (code k) = k) :
    r.msgID.toNat = code k ↔ r.view.msgID = k := by
  rw [CoordRecord.view, kind_eq_iff hk]

/-- A record of a commit. -/
theorem decidesCommit_view : Transaction.decidesCommit curTid.toNat r.view =
    decide (r.tid = curTid ∧ r.msgID.toNat = 2001) := by
  have hkind : r.msgID.toNat = 2001 ↔ r.view.msgID = .decideCommit :=
    CoordRecord.msgID_eq_iff (k := .decideCommit) rfl
  rw [Transaction.decidesCommit, decide_eq_decide, CoordRecord.tid_eq_iff, hkind]

theorem any_commit : (bs.reverse.any fun r => r.tid = curTid ∧ r.msgID.toNat = 2001) =
    (bs.map CoordRecord.view).reverse.any (Transaction.decidesCommit curTid.toNat) := by
  rw [← List.map_reverse, List.any_map]
  exact congrArg _ (funext fun r => decidesCommit_view.symm)

/-- The loop of `findStateFromRecord` marks the transactions with a commit record. -/
theorem foldl_markCommit (state : Fin MAX_TRANS → State) (k : Fin MAX_TRANS) :
    (bs.foldl markCommit state) k = ⟨(state k).tid, (state k).isCommit ||
      bs.any fun r => r.tid = (state k).tid ∧ r.msgID.toNat = 2001⟩ := by
  induction bs generalizing state with
  | nil => simp
  | cons r bs ih =>
      rw [List.foldl_cons, ih, List.any_cons, markCommit]
      by_cases hr : r.msgID.toNat = 2001
      · by_cases ht : r.tid = (state k).tid
        · simp [hr, ht]
        · simp [hr, ht]
      · simp [hr]

theorem waitingLoop_view : waitingLoop curTid bs =
    Transaction.waitingLoop curTid.toNat (bs.map CoordRecord.view) := by
  induction bs with
  | nil => rfl
  | cons r bs ih =>
      have hmark : r.msgID.toNat = 1 ↔ r.view.msgID = .other 1 :=
        CoordRecord.msgID_eq_iff (k := .other 1) rfl
      have hreq : r.msgID.toNat = 1018 ↔ r.view.msgID = .commitReq :=
        CoordRecord.msgID_eq_iff (k := .commitReq) rfl
      rw [waitingLoop, List.map_cons, Transaction.waitingLoop, ih,
        if_congr CoordRecord.tid_eq_iff (if_congr hmark rfl (if_congr hreq rfl rfl)) rfl]

/-- The scans of the file see what the scans of the table and the log see. -/
structure ScansAgree (f : LogFile) (s : Transaction.Manager) : Prop where
  commit : ∀ curTid, isCommit f curTid = Transaction.isCommit s.log curTid.toNat
  state : ∀ k, (findStateFromRecord f k).tid.toNat = (s.workerInfo k).tid ∧
    (findStateFromRecord f k).isCommit = Transaction.isCommit s.log (s.workerInfo k).tid
  waiting : (waitingForVotes f).map UInt32.toNat = Transaction.waitingForVotes s.workerInfo s.log
  dump : (dumpObject f).map CoordRecord.view = Transaction.mappedCoord s.log

/-- The records that a scan copies are those that the page leaves of the log. -/
theorem copied_of_holds (hf : f.Holds x bs) (hlog : bs.map CoordRecord.view = s.log) :
    (f.loadAll pageSize).map CoordRecord.view = Transaction.mappedCoord s.log := by
  -- 4096 = 1520 + 214 * 12 + 8
  have hpage : pageSize = coordCrashInfoCodec.size + 214 * coordRecordCodec.size + 8 := rfl
  rw [hf.loadAll hpage (by decide), ← hlog]
  refine map_window _ _ fun b _ => ?_
  rw [clip_coordRecord]
  rfl

theorem scansAgree_of_holds (hf : f.Holds x bs) (htable : ∀ i, (x.workerInfo i).view = s.workerInfo i)
    (hlog : bs.map CoordRecord.view = s.log) : ScansAgree f s := by
  have hcopied := copied_of_holds hf hlog
  have htid : ∀ i, (f.header.workerInfo i).tid.toNat = (s.workerInfo i).tid := by
    intro i
    rw [hf.header, ← htable]
    rfl
  have hcommit : ∀ curTid : UInt32, isCommit f curTid = Transaction.isCommit s.log curTid.toNat := by
    intro curTid
    rw [isCommit, any_commit, hcopied]
    rfl
  refine ⟨hcommit, fun k => ?_, ?_, hcopied⟩
  · rw [findStateFromRecord, foldl_markCommit]
    refine ⟨htid k, ?_⟩
    rw [Bool.false_or, ← htid, ← hcommit]
    rfl
  · have hscan : ∀ i, waitingLoop (f.header.workerInfo i).tid (f.loadAll pageSize).reverse =
        Transaction.waitingLoop (s.workerInfo i).tid (Transaction.mappedCoord s.log).reverse := by
      intro i
      rw [waitingLoop_view, List.map_reverse, hcopied, htid]
    rw [waitingForVotes, Transaction.waitingForVotes, Option.map_map, funext hscan]
    exact congrArg (Option.map · _) (funext htid)

/-- The log file of the manager after its first start. -/
def freshFile : LogFile where
  bytes := coordCrashInfoCodec.write
    ⟨ownClock 0 0, fun _ => ⟨0, 0, fun _ => ⟨0, 0, ⟨fun _ => 0, fun _ => 0, 0, fun _ => 0⟩, 0⟩⟩⟩
  header_le := Nat.le_of_eq (coordCrashInfoCodec.length_write _).symm

/-- Worker 1 begins transaction 5 and asks to commit it. -/
def requestRun : List (Act Transaction.Manager.Input) :=
  [⟨.message ⟨1, 80⟩ ⟨.begintx, 5, 1, false, Transaction.emptyClock⟩ {}, none⟩,
    ⟨.message ⟨1, 80⟩ ⟨.commit, 5, 1, false, Transaction.emptyClock⟩ {}, none⟩]

end DistributedSystem.LogFiles.Manager
