import DistributedSystem.Library.RecordFile
import DistributedSystem.Transaction.ManagerState
import DistributedSystem.Transaction.WorkerLog
import DistributedSystem.WireFormats

/-!
# The bytes of the log files

The structures of `msg.h` and `tmanager.h` that are written to the transaction logs, in the
layout of an x86-64 machine: every field at its offset, in host order, with the padding that
`Record` needs. `view` is what the bytes of a structure mean to the programs.
-/

namespace DistributedSystem.LogFiles

open Library

abbrev MAX_NODES : ℕ := 10
abbrev MAX_TRANS : ℕ := 5
abbrev IDLEN : ℕ := 64

/-! ## Message kinds -/

/-- The number of a message kind. -/
def code : Transaction.MsgId → ℕ
  | .begintx => 1000 | .jointx => 1001 | .newA => 1002 | .newB => 1003 | .newIdStr => 1004
  | .delayResponse => 1005 | .crash => 1006 | .commit => 1007 | .commitCrash => 1008
  | .abort => 1009 | .abortCrash => 1010 | .voteAbort => 1011 | .voteCommit => 1012
  | .joinFail => 1013 | .joinSuccess => 1014 | .beginFail => 1015 | .beginSuccess => 1016
  | .prepareCommit => 1017 | .commitReq => 1018 | .pollDecision => 1019 | .restarted => 1020
  | .decideAbort => 2000 | .decideCommit => 2001 | .wait => 2002
  | .other id => id

/-- The kind with a given number. -/
def kind : ℕ → Transaction.MsgId
  | 1000 => .begintx | 1001 => .jointx | 1002 => .newA | 1003 => .newB | 1004 => .newIdStr
  | 1005 => .delayResponse | 1006 => .crash | 1007 => .commit | 1008 => .commitCrash
  | 1009 => .abort | 1010 => .abortCrash | 1011 => .voteAbort | 1012 => .voteCommit
  | 1013 => .joinFail | 1014 => .joinSuccess | 1015 => .beginFail | 1016 => .beginSuccess
  | 1017 => .prepareCommit | 1018 => .commitReq | 1019 => .pollDecision | 1020 => .restarted
  | 2000 => .decideAbort | 2001 => .decideCommit | 2002 => .wait
  | id => .other id

/-- Every number is the number of its kind. -/
theorem code_kind (n : ℕ) : code (kind n) = n := by
  unfold kind
  split <;> rfl

/-- A comparison of numbers is one of kinds. -/
theorem kind_eq_iff {n : ℕ} {k : Transaction.MsgId} (hk : kind (code k) = k) : kind n = k ↔ n = code k := by
  constructor
  · rintro rfl
    exact (code_kind n).symm
  · rintro rfl
    exact hk

/-! ## Structures -/

/-- `struct clock` -/
abbrev Clock := WireFormats.Clock

def Clock.view (c : Clock) : Transaction.Clock := ⟨c.nodeId.toNat, c.time.toNat⟩

/-- A clock array with one entry in use. -/
def ownClock (nodeId time : UInt32) : Fin MAX_NODES → Clock := fun i =>
  if i.val = 0 then ⟨nodeId, time⟩ else ⟨0, 0⟩

/-- What a clock array means. -/
def clockView (vc : Fin MAX_NODES → Clock) : Transaction.VClock := fun i => Clock.view (vc i)

/-- `struct sockaddr_in` -/
structure SockAddrIn where
  sin_family : Fin 2 → UInt8
  /-- in network order -/
  sin_port : Fin 2 → UInt8
  sin_addr : UInt32
  sin_zero : Fin 8 → UInt8

def SockAddrIn.view (a : SockAddrIn) : Transaction.SockAddr :=
  ⟨a.sin_addr.toNat, (a.sin_port 0).toNat * 256 + (a.sin_port 1).toNat⟩

/-- `struct timeval` -/
structure Timeval where
  tv_sec : UInt64
  tv_usec : UInt64

def Timeval.view (t : Timeval) : Transaction.Timeval := t.tv_sec.toNat * 1000000 + t.tv_usec.toNat

/-- `CrashInfo` -/
structure CrashInfo where
  sys_port : UInt64
  managerAddr : SockAddrIn
  vectorClock : Fin MAX_NODES → Clock

def CrashInfo.view (x : CrashInfo) : Transaction.CrashInfo where
  sys_port := x.sys_port.toNat
  managerAddr := x.managerAddr.view
  vectorClock := clockView x.vectorClock

/-- `Record`; the compiler aligns `lastUpdateTime` at a multiple of 8. -/
structure Record where
  msgID : UInt32
  tid : UInt32
  oldValue : Int32
  oldID : Fin IDLEN → UInt8
  vectorClock : Fin MAX_NODES → Clock
  padding : Fin 4 → UInt8
  lastUpdateTime : Timeval

/-- `CoordRecord` -/
structure CoordRecord where
  msgID : UInt32
  tid : UInt32
  nodeId : UInt32

def CoordRecord.view (r : CoordRecord) : Transaction.CoordRecord where
  msgID := kind r.msgID.toNat
  tid := r.tid.toNat
  nodeId := r.nodeId.toNat

/-- `struct w` -/
structure W where
  nodeId : UInt32
  port : UInt32
  workerAddr : SockAddrIn
  voteYes : UInt32

def W.view (w : W) : Transaction.W where
  nodeId := w.nodeId.toNat
  port := w.port.toNat
  workerAddr := w.workerAddr.view
  voteYes := if w.voteYes = 0 then none else some (kind w.voteYes.toNat)

/-- `struct info` -/
structure Info where
  tid : UInt32
  isCrash : Int32
  workers : Fin MAX_NODES → W

def Info.view (x : Info) : Transaction.Info where
  tid := x.tid.toNat
  isCrash := decide (x.isCrash ≠ 0)
  workers := fun j => (x.workers j).view

/-- `struct CoordCrashInfo` -/
structure CoordCrashInfo where
  vectorClock : Fin MAX_NODES → Clock
  workerInfo : Fin MAX_TRANS → Info

/-! ## Layouts -/

def clockEquiv : UInt32 × UInt32 ≃ Clock where
  toFun x := ⟨x.1, x.2⟩
  invFun c := (c.nodeId, c.time)
  left_inv := Prod.eta
  right_inv _ := rfl

def clockCodec : Codec Clock := (Codec.hostWord.seq Codec.hostWord).equiv clockEquiv

def sockAddrCodec : Codec SockAddrIn :=
  ((Codec.byte.array 2).seq <| (Codec.byte.array 2).seq <| Codec.hostWord.seq <| Codec.byte.array 8).equiv
    { toFun := fun x => ⟨x.1, x.2.1, x.2.2.1, x.2.2.2⟩
      invFun := fun a => (a.sin_family, a.sin_port, a.sin_addr, a.sin_zero)
      left_inv := fun _ => rfl
      right_inv := fun _ => rfl }

def timevalCodec : Codec Timeval :=
  (Codec.hostLong.seq Codec.hostLong).equiv
    { toFun := fun x => ⟨x.1, x.2⟩
      invFun := fun t => (t.tv_sec, t.tv_usec)
      left_inv := fun _ => rfl
      right_inv := fun _ => rfl }

def crashInfoEquiv : UInt64 × SockAddrIn × (Fin MAX_NODES → Clock) ≃ CrashInfo where
  toFun x := ⟨x.1, x.2.1, x.2.2⟩
  invFun x := (x.sys_port, x.managerAddr, x.vectorClock)
  left_inv _ := rfl
  right_inv _ := rfl

def crashInfoCodec : Codec CrashInfo :=
  (Codec.hostLong.seq <| sockAddrCodec.seq <| clockCodec.array MAX_NODES).equiv crashInfoEquiv

def recordEquiv : UInt32 × UInt32 × Int32 × (Fin IDLEN → UInt8) × (Fin MAX_NODES → Clock) ×
    (Fin 4 → UInt8) × Timeval ≃ Record where
  toFun x := ⟨x.1, x.2.1, x.2.2.1, x.2.2.2.1, x.2.2.2.2.1, x.2.2.2.2.2.1, x.2.2.2.2.2.2⟩
  invFun r := (r.msgID, r.tid, r.oldValue, r.oldID, r.vectorClock, r.padding, r.lastUpdateTime)
  left_inv _ := rfl
  right_inv _ := rfl

def recordCodec : Codec Record :=
  (Codec.hostWord.seq <| Codec.hostWord.seq <| Codec.hostSignedWord.seq <|
    (Codec.byte.array IDLEN).seq <| (clockCodec.array MAX_NODES).seq <|
    (Codec.byte.array 4).seq timevalCodec).equiv recordEquiv

def coordRecordEquiv : UInt32 × UInt32 × UInt32 ≃ CoordRecord where
  toFun x := ⟨x.1, x.2.1, x.2.2⟩
  invFun r := (r.msgID, r.tid, r.nodeId)
  left_inv _ := rfl
  right_inv _ := rfl

def coordRecordCodec : Codec CoordRecord :=
  (Codec.hostWord.seq <| Codec.hostWord.seq Codec.hostWord).equiv coordRecordEquiv

def wEquiv : UInt32 × UInt32 × SockAddrIn × UInt32 ≃ W where
  toFun x := ⟨x.1, x.2.1, x.2.2.1, x.2.2.2⟩
  invFun w := (w.nodeId, w.port, w.workerAddr, w.voteYes)
  left_inv _ := rfl
  right_inv _ := rfl

def wCodec : Codec W :=
  (Codec.hostWord.seq <| Codec.hostWord.seq <| sockAddrCodec.seq Codec.hostWord).equiv wEquiv

def infoEquiv : UInt32 × Int32 × (Fin MAX_NODES → W) ≃ Info where
  toFun x := ⟨x.1, x.2.1, x.2.2⟩
  invFun x := (x.tid, x.isCrash, x.workers)
  left_inv _ := rfl
  right_inv _ := rfl

def infoCodec : Codec Info :=
  (Codec.hostWord.seq <| Codec.hostSignedWord.seq <| wCodec.array MAX_NODES).equiv infoEquiv

def coordCrashInfoEquiv : (Fin MAX_NODES → Clock) × (Fin MAX_TRANS → Info) ≃ CoordCrashInfo where
  toFun x := ⟨x.1, x.2⟩
  invFun x := (x.vectorClock, x.workerInfo)
  left_inv _ := rfl
  right_inv _ := rfl

def coordCrashInfoCodec : Codec CoordCrashInfo :=
  ((clockCodec.array MAX_NODES).seq <| infoCodec.array MAX_TRANS).equiv coordCrashInfoEquiv

/-- The values of `sizeof`. -/
example : crashInfoCodec.size = 104 ∧ recordCodec.size = 176 ∧ coordCrashInfoCodec.size = 1520 ∧
    coordRecordCodec.size = 12 := ⟨rfl, rfl, rfl, rfl⟩

/-! ## The mapped page -/

/-- The bytes that `mmap(NULL, 512, ..)` maps. -/
abbrev pageSize : ℕ := 4096

/-- A clock whose node id is the last word on the page. -/
theorem clip_clock (c : Clock) : clockCodec.clip 4 c = ⟨c.nodeId, 0⟩ := by
  rw [clockCodec, Codec.clip_equiv, Codec.clip_seq, Codec.clip_of_le _ (Nat.le_refl 4)]
  rfl

theorem timeval_view_blank : timevalCodec.blank.view = 0 := by decide +kernel

/-- The page ends in the sixth clock of its last record, behind the node id. -/
theorem clip_record (b : Record) : recordCodec.clip 120 b =
    { b with
      vectorClock := (clockCodec.array MAX_NODES).clip 44 b.vectorClock
      padding := (Codec.byte.array 4).blank
      lastUpdateTime := timevalCodec.blank } := by
  simp only [recordCodec, Codec.clip_equiv, Codec.clip_seq]
  rw [Codec.clip_of_le Codec.hostWord (by decide), Codec.clip_of_le Codec.hostWord (by decide),
    Codec.clip_of_le Codec.hostSignedWord (by decide), Codec.clip_of_le (Codec.byte.array IDLEN) (by decide)]
  rfl

theorem clip_coordRecord (b : CoordRecord) : coordRecordCodec.clip 8 b = { b with nodeId := 0 } := by
  simp only [coordRecordCodec, Codec.clip_equiv, Codec.clip_seq]
  rw [Codec.clip_of_le Codec.hostWord (by decide), Codec.clip_of_le Codec.hostWord (by decide)]
  rfl

/-! ## Saving a clock -/

def clockNodeId : Codec.Field clockCodec Codec.hostWord := (Codec.Field.fst _ _).equiv clockEquiv

def clockTime : Codec.Field clockCodec Codec.hostWord := (Codec.Field.snd _ _).equiv clockEquiv

variable {η ρ : Type} {h : Codec η} {c : Codec ρ} {x : η} {rs : List ρ}

/-- The loop of `saveVectorTime`, two stores for every entry; `fld` is the clock in the header. -/
def saveVectorTime (f : RecordFile h c) (fld : Codec.Field h (clockCodec.array MAX_NODES))
    (myVectorClock : Fin MAX_NODES → Clock) : RecordFile h c :=
  (List.finRange MAX_NODES).foldl
    (fun f i =>
      let f := f.storeField (fld.comp ((Codec.Field.entry clockCodec i).comp clockNodeId))
        (myVectorClock i).nodeId
      f.storeField (fld.comp ((Codec.Field.entry clockCodec i).comp clockTime)) (myVectorClock i).time) f

/-- The records that `dumpObject` prints; its loops over the logs of a worker and of the manager
    differ in the types. -/
def dumpObject (f : RecordFile h c) : List ρ := f.loadAll pageSize

/-- The clock is saved, and the rest of the file stays. -/
theorem holds_saveVectorTime {f : RecordFile h c} (hf : f.Holds x rs)
    (fld : Codec.Field h (clockCodec.array MAX_NODES)) (vc : Fin MAX_NODES → Clock) :
    (saveVectorTime f fld vc).Holds (fld.set vc x) rs := by
  -- after `k` turns the first `k` entries are saved
  have hloop := foldl_finRange_invariant
    (fun (f : RecordFile h c) i =>
      let f := f.storeField (fld.comp ((Codec.Field.entry clockCodec i).comp clockNodeId)) (vc i).nodeId
      f.storeField (fld.comp ((Codec.Field.entry clockCodec i).comp clockTime)) (vc i).time)
    (P := fun k f => ∃ vc', f.Holds (fld.set vc' x) rs ∧ ∀ j : Fin MAX_NODES, j.val < k → vc' j = vc j)
    (s := f) ⟨fld.get x, by rwa [fld.set_get], fun j hj => absurd hj (Nat.not_lt_zero _)⟩ ?_
  · obtain ⟨vc', hholds, hentry⟩ := hloop
    rwa [show vc' = vc from funext fun j => hentry j j.isLt] at hholds
  · rintro i f' ⟨vc', hholds, hentry⟩
    have hsaved := (hholds.storeField (fld.comp ((Codec.Field.entry clockCodec i).comp clockNodeId))
      (vc i).nodeId).storeField (fld.comp ((Codec.Field.entry clockCodec i).comp clockTime)) (vc i).time
    have hset : ∀ (g : Codec.Field (clockCodec.array MAX_NODES) Codec.hostWord) (v : UInt32) vc',
        (fld.comp g).set v (fld.set vc' x) = fld.set (g.set v vc') x := by
      intro g v vc'
      simp only [Codec.Field.comp, fld.get_set, fld.set_set]
    rw [hset, hset] at hsaved
    refine ⟨_, hsaved, fun j hj => ?_⟩
    by_cases hji : j = i
    · subst hji
      simp only [Codec.Field.comp, Codec.Field.entry, Function.update_self]
      rfl
    · simp only [Codec.Field.comp, Codec.Field.entry, Function.update_of_ne hji]
      exact hentry j (by omega)

end DistributedSystem.LogFiles
