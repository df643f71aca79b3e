import DistributedSystem.Library.Codec

/-!
# The wire formats

The serialization functions of `helper.c` and of the bully `node.c`. A buffer under
construction is the list of the bytes written so far, and the buffer of a reader is the list
of the bytes behind its cursor. Each pair of functions is one codec, put together field by
field in the order of the source, and the round trips are those of the codec.
-/

namespace DistributedSystem.WireFormats

open Library

/-- `struct clock` -/
structure Clock where
  nodeId : UInt32
  time : UInt32
  deriving DecidableEq

/-! ## The transaction manager and its workers -/

namespace Transaction

def MAX_NODES : ℕ := 10
def IDLEN : ℕ := 64
def HOSTLEN : ℕ := IDLEN

/-- The message kind with a new string. -/
def NEW_IDSTR : UInt32 := 1004

/-- The union of the two string arms, which have the same length. -/
structure StrData where
  mem : Fin IDLEN → UInt8

def StrData.newID (u : StrData) : Fin IDLEN → UInt8 := u.mem
def StrData.hostName (u : StrData) : Fin HOSTLEN → UInt8 := u.mem
def StrData.ofNewID (s : Fin IDLEN → UInt8) : StrData := ⟨s⟩
def StrData.ofHostName (s : Fin HOSTLEN → UInt8) : StrData := ⟨s⟩

/-- `msgType`: a command. -/
structure MsgType where
  msgID : UInt32
  tid : UInt32
  port : UInt32
  newValue : Int32
  delay : Int32
  strData : StrData

/-- `txMessage`: a message between a worker and the manager. -/
structure TxMessage where
  msgID : UInt32
  tid : UInt32
  nodeId : UInt32
  isCrash : UInt32
  vectorClock : Fin MAX_NODES → Clock

/-! ### Writing -/

/-- `htonl` and `memcpy` -/
def serializeInt (buffer : List UInt8) (val : Int32) : List UInt8 :=
  buffer ++ Codec.signedWord.write val

def serializeUnsignedInt (buffer : List UInt8) (val : UInt32) : List UInt8 :=
  buffer ++ Codec.word.write val

def serializeMsg (m : MsgType) : List UInt8 :=
  let buffer := serializeUnsignedInt [] m.msgID
  let buffer := serializeUnsignedInt buffer m.tid
  let buffer := serializeUnsignedInt buffer m.port
  let buffer := serializeInt buffer m.newValue
  let buffer := serializeInt buffer m.delay
  if m.msgID = NEW_IDSTR then
    buffer ++ List.ofFn m.strData.newID
  else
    buffer ++ List.ofFn m.strData.hostName

/-- The unsigned fields of a clock pass through the signed parameter of `serializeInt`. -/
def serializeClock (buffer : List UInt8) (vc : Fin MAX_NODES → Clock) : List UInt8 :=
  (List.finRange MAX_NODES).foldl
    (fun buffer i =>
      serializeInt (serializeInt buffer (vc i).nodeId.toInt32) (vc i).time.toInt32) buffer

def serializeWorkerMsg (m : TxMessage) : List UInt8 :=
  let buffer := serializeUnsignedInt [] m.msgID
  let buffer := serializeUnsignedInt buffer m.tid
  let buffer := serializeUnsignedInt buffer m.nodeId
  let buffer := serializeUnsignedInt buffer m.isCrash
  serializeClock buffer m.vectorClock

/-! ### Reading -/

/-- `memcpy` and `ntohl` -/
def deserializeInt (buffer : List UInt8) : Int32 × List UInt8 := Codec.signedWord.read buffer

def deserializeUnsignedInt (buffer : List UInt8) : UInt32 × List UInt8 := Codec.word.read buffer

/-- `memcpy` of an array of `n` bytes. -/
def bytesAt (n : ℕ) (buffer : List UInt8) : Fin n → UInt8 := fun i => buffer.getD i 0

def deserializeMsg (buffer : List UInt8) : MsgType :=
  let (msgID, buffer) := deserializeUnsignedInt buffer
  let (tid, buffer) := deserializeUnsignedInt buffer
  let (port, buffer) := deserializeUnsignedInt buffer
  let (newValue, buffer) := deserializeInt buffer
  let (delay, buffer) := deserializeInt buffer
  let strData :=
    if msgID = NEW_IDSTR then StrData.ofNewID (bytesAt IDLEN buffer)
    else StrData.ofHostName (bytesAt HOSTLEN buffer)
  ⟨msgID, tid, port, newValue, delay, strData⟩

/-- The loop stores into the clock of a record that is not initialised. -/
def deserializeClock (buffer : List UInt8) (vc : Fin MAX_NODES → Clock) :
    (Fin MAX_NODES → Clock) × List UInt8 :=
  (List.finRange MAX_NODES).foldl
    (fun (r : (Fin MAX_NODES → Clock) × List UInt8) i =>
      let (nodeId, buffer) := deserializeUnsignedInt r.2
      let (time, buffer) := deserializeUnsignedInt buffer
      (Function.update r.1 i ⟨nodeId, time⟩, buffer)) (vc, buffer)

def deserializeWorkerMsg (buffer : List UInt8) (vc : Fin MAX_NODES → Clock) : TxMessage :=
  let (msgID, buffer) := deserializeUnsignedInt buffer
  let (tid, buffer) := deserializeUnsignedInt buffer
  let (nodeId, buffer) := deserializeUnsignedInt buffer
  let (isCrash, buffer) := deserializeUnsignedInt buffer
  let (vectorClock, _) := deserializeClock buffer vc
  ⟨msgID, tid, nodeId, isCrash, vectorClock⟩

end Transaction

/-! ## The bully program -/

namespace Bully

def MAX_NODES : ℕ := 9

/-- `struct msg` -/
structure Msg where
  msgID : UInt32
  electionID : UInt32
  vectorClock : Fin MAX_NODES → Clock

def serializeInt (buffer : List UInt8) (val : UInt32) : List UInt8 :=
  buffer ++ Codec.word.write val

def serializeClock (buffer : List UInt8) (vc : Fin MAX_NODES → Clock) : List UInt8 :=
  (List.finRange MAX_NODES).foldl
    (fun buffer i => serializeInt (serializeInt buffer (vc i).nodeId) (vc i).time) buffer

def serializeMsg (m : Msg) : List UInt8 :=
  let buffer := serializeInt [] m.msgID
  let buffer := serializeInt buffer m.electionID
  serializeClock buffer m.vectorClock

def deserializeInt (buffer : List UInt8) : UInt32 × List UInt8 := Codec.word.read buffer

/-- The cast to the enumeration keeps every value. -/
def deserializeMsgID (buffer : List UInt8) (r : Msg) : Msg × List UInt8 :=
  let (val, buffer) := deserializeInt buffer
  ({ r with msgID := val }, buffer)

def deserializeClock (buffer : List UInt8) (r : Msg) : Msg × List UInt8 :=
  (List.finRange MAX_NODES).foldl
    (fun (s : Msg × List UInt8) i =>
      let (nodeId, buffer) := deserializeInt s.2
      let (time, buffer) := deserializeInt buffer
      ({ s.1 with vectorClock := Function.update s.1.vectorClock i ⟨nodeId, time⟩ }, buffer))
    (r, buffer)

/-- The message that `r` points to is overwritten. -/
def deserializeMsg (buffer : List UInt8) (r : Msg) : Msg :=
  let (r, buffer) := deserializeMsgID buffer r
  let (val, buffer) := deserializeInt buffer
  let r := { r with electionID := val }
  (deserializeClock buffer r).1

end Bully

/-! ## The codecs -/

/-- A clock entry. -/
def clockCodec : Codec Clock :=
  (Codec.word.seq Codec.word).equiv
    { toFun := fun x => ⟨x.1, x.2⟩
      invFun := fun c => (c.nodeId, c.time)
      left_inv := fun _ => rfl
      right_inv := fun _ => rfl }

/-- Unsigned fields are written alike by the two functions. -/
theorem signedWord_write (v : UInt32) : Codec.signedWord.write v.toInt32 = Codec.word.write v := by
  show Codec.word.write v.toInt32.toUInt32 = Codec.word.write v
  rw [UInt32.toUInt32_toInt32]

namespace Transaction

/-- The string data; both arms are the same bytes. -/
def strCodec : Codec StrData :=
  (Codec.byte.array IDLEN).equiv
    { toFun := StrData.mk
      invFun := StrData.mem
      left_inv := fun _ => rfl
      right_inv := fun _ => rfl }

def msgCodec : Codec MsgType :=
  (Codec.word.seq <| Codec.word.seq <| Codec.word.seq <| Codec.signedWord.seq <|
    Codec.signedWord.seq strCodec).equiv
    { toFun := fun x => ⟨x.1, x.2.1, x.2.2.1, x.2.2.2.1, x.2.2.2.2.1, x.2.2.2.2.2⟩
      invFun := fun m => (m.msgID, m.tid, m.port, m.newValue, m.delay, m.strData)
      left_inv := fun _ => rfl
      right_inv := fun _ => rfl }

def workerMsgCodec : Codec TxMessage :=
  (Codec.word.seq <| Codec.word.seq <| Codec.word.seq <| Codec.word.seq <|
    clockCodec.array MAX_NODES).equiv
    { toFun := fun x => ⟨x.1, x.2.1, x.2.2.1, x.2.2.2.1, x.2.2.2.2⟩
      invFun := fun m => (m.msgID, m.tid, m.nodeId, m.isCrash, m.vectorClock)
      left_inv := fun _ => rfl
      right_inv := fun _ => rfl }

/-- Both arms of the union are written as its memory. -/
theorem strCodec_write (u : StrData) : strCodec.write u = List.ofFn u.mem :=
  Codec.byte_array_write u.mem

theorem strCodec_read (b : List UInt8) :
    strCodec.read b = (⟨bytesAt IDLEN b⟩, b.drop IDLEN) := by
  show (StrData.mk ((Codec.byte.array IDLEN).read b).1, ((Codec.byte.array IDLEN).read b).2) = _
  rw [Codec.byte_array_read]
  rfl

theorem serializeMsg_eq (m : MsgType) : serializeMsg m = msgCodec.write m := by
  -- both arms of the union write its memory
  have harm : serializeMsg m =
      serializeInt (serializeInt (serializeUnsignedInt (serializeUnsignedInt
        (serializeUnsignedInt [] m.msgID) m.tid) m.port) m.newValue) m.delay ++
          List.ofFn m.strData.mem := by
    unfold serializeMsg
    split <;> rfl
  rw [harm, ← strCodec_write]
  simp only [serializeInt, serializeUnsignedInt, List.nil_append, List.append_assoc]
  rfl

theorem deserializeMsg_eq (b : List UInt8) : deserializeMsg b = (msgCodec.read b).1 := by
  -- whatever the message kind, the same bytes are stored
  have harm : ∀ (v : UInt32) (b : List UInt8),
      (if v = NEW_IDSTR then StrData.ofNewID (bytesAt IDLEN b)
        else StrData.ofHostName (bytesAt HOSTLEN b)) = (strCodec.read b).1 := by
    intro v b
    rw [strCodec_read]
    split <;> rfl
  simp only [deserializeMsg, harm]
  rfl

theorem serializeClock_eq (b : List UInt8) (vc : Fin MAX_NODES → Clock) :
    serializeClock b vc = b ++ (clockCodec.array MAX_NODES).write vc := by
  rw [← Codec.foldl_write]
  unfold serializeClock
  -- entry by entry, the loop appends what the codec writes
  congr 1
  funext b i
  simp only [serializeInt, signedWord_write, List.append_assoc]
  rfl

theorem serializeWorkerMsg_eq (m : TxMessage) :
    serializeWorkerMsg m = workerMsgCodec.write m := by
  simp only [serializeWorkerMsg, serializeClock_eq, serializeUnsignedInt, List.nil_append,
    List.append_assoc]
  rfl

theorem deserializeClock_eq (b : List UInt8) (vc : Fin MAX_NODES → Clock) :
    deserializeClock b vc = (clockCodec.array MAX_NODES).read b := by
  rw [← clockCodec.foldl_read vc b]
  rfl

theorem deserializeWorkerMsg_eq (b : List UInt8) (vc : Fin MAX_NODES → Clock) :
    deserializeWorkerMsg b vc = (workerMsgCodec.read b).1 := by
  simp only [deserializeWorkerMsg, deserializeClock_eq]
  rfl

/-- The sizes of the encoded messages. -/
def MSG_SIZE : ℕ := 5 * 4 + IDLEN
def WORKER_MSG_SIZE : ℕ := 4 * 4 + MAX_NODES * 8

theorem msgCodec_size : msgCodec.size = MSG_SIZE := rfl

theorem workerMsgCodec_size : workerMsgCodec.size = WORKER_MSG_SIZE := rfl

end Transaction

namespace Bully

def msgCodec : Codec Msg :=
  (Codec.word.seq <| Codec.word.seq <| clockCodec.array MAX_NODES).equiv
    { toFun := fun x => ⟨x.1, x.2.1, x.2.2⟩
      invFun := fun m => (m.msgID, m.electionID, m.vectorClock)
      left_inv := fun _ => rfl
      right_inv := fun _ => rfl }

theorem serializeClock_eq (b : List UInt8) (vc : Fin MAX_NODES → Clock) :
    serializeClock b vc = b ++ (clockCodec.array MAX_NODES).write vc := by
  rw [← Codec.foldl_write]
  unfold serializeClock
  congr 1
  funext b i
  simp only [serializeInt, List.append_assoc]
  rfl

theorem serializeMsg_eq (m : Msg) : serializeMsg m = msgCodec.write m := by
  simp only [serializeMsg, serializeClock_eq, serializeInt, List.nil_append, List.append_assoc]
  rfl

/-- The loop over the clock of a message touches nothing else of it. -/
theorem deserializeClock_eq (b : List UInt8) (r : Msg) :
    deserializeClock b r =
      ({ r with vectorClock := ((clockCodec.array MAX_NODES).read b).1 },
        ((clockCodec.array MAX_NODES).read b).2) := by
  rw [← clockCodec.foldl_read r.vectorClock b]
  unfold deserializeClock
  -- the entries still to be read; `vc` is the clock as far as it has been overwritten
  have hloop : ∀ (l : List (Fin MAX_NODES)) (vc : Fin MAX_NODES → Clock) (b : List UInt8),
      l.foldl (fun (s : Msg × List UInt8) i =>
          let (nodeId, buffer) := deserializeInt s.2
          let (time, buffer) := deserializeInt buffer
          ({ s.1 with vectorClock := Function.update s.1.vectorClock i ⟨nodeId, time⟩ }, buffer))
          ({ r with vectorClock := vc }, b) =
        ({ r with vectorClock := (l.foldl
            (fun (s : (Fin MAX_NODES → Clock) × List UInt8) i =>
              (Function.update s.1 i (clockCodec.read s.2).1, (clockCodec.read s.2).2))
            (vc, b)).1 },
          (l.foldl
            (fun (s : (Fin MAX_NODES → Clock) × List UInt8) i =>
              (Function.update s.1 i (clockCodec.read s.2).1, (clockCodec.read s.2).2))
            (vc, b)).2) := by
    intro l
    induction l with
    | nil => exact fun _ _ => rfl
    | cons i l ih =>
      intro vc b
      exact ih (Function.update vc i (clockCodec.read b).1) (clockCodec.read b).2
  exact hloop _ r.vectorClock b

theorem deserializeMsg_eq (b : List UInt8) (r : Msg) :
    deserializeMsg b r = (msgCodec.read b).1 := by
  simp only [deserializeMsg, deserializeClock_eq]
  rfl

def MSG_SIZE : ℕ := 2 * 4 + MAX_NODES * 8

theorem msgCodec_size : msgCodec.size = MSG_SIZE := rfl

end Bully

/-! ## Round trips -/

/-- What one program serializes, it deserializes to the same message, and every buffer of the
    encoded size is serialized again as it was. -/
theorem wire_round_trips :
    (∀ m, Transaction.deserializeMsg (Transaction.serializeMsg m) = m) ∧
      (∀ b : List UInt8, b.length = Transaction.MSG_SIZE →
        Transaction.serializeMsg (Transaction.deserializeMsg b) = b) ∧
      (∀ m vc, Transaction.deserializeWorkerMsg (Transaction.serializeWorkerMsg m) vc = m) ∧
      (∀ (b : List UInt8) vc, b.length = Transaction.WORKER_MSG_SIZE →
        Transaction.serializeWorkerMsg (Transaction.deserializeWorkerMsg b vc) = b) ∧
      (∀ m r, Bully.deserializeMsg (Bully.serializeMsg m) r = m) ∧
      (∀ (b : List UInt8) r, b.length = Bully.MSG_SIZE →
        Bully.serializeMsg (Bully.deserializeMsg b r) = b) := by
  refine ⟨?_, ?_, ?_, ?_, ?_, ?_⟩
  · intro m
    rw [Transaction.serializeMsg_eq, Transaction.deserializeMsg_eq, Codec.decode_encode]
  · intro b hb
    rw [Transaction.serializeMsg_eq, Transaction.deserializeMsg_eq]
    exact Transaction.msgCodec.encode_decode (hb.trans Transaction.msgCodec_size.symm)
  · intro m vc
    rw [Transaction.serializeWorkerMsg_eq, Transaction.deserializeWorkerMsg_eq,
      Codec.decode_encode]
  · intro b vc hb
    rw [Transaction.serializeWorkerMsg_eq, Transaction.deserializeWorkerMsg_eq]
    exact Transaction.workerMsgCodec.encode_decode (hb.trans Transaction.workerMsgCodec_size.symm)
  · intro m r
    rw [Bully.serializeMsg_eq, Bully.deserializeMsg_eq, Codec.decode_encode]
  · intro b r hb
    rw [Bully.serializeMsg_eq, Bully.deserializeMsg_eq]
    exact Bully.msgCodec.encode_decode (hb.trans Bully.msgCodec_size.symm)

/-- Buffers of the three sizes with every bit set, the signs of the signed fields among them. -/
theorem wire_round_trips_ones :
    Transaction.serializeMsg (Transaction.deserializeMsg (List.replicate 84 255)) =
        List.replicate 84 255 ∧
      Transaction.serializeWorkerMsg (Transaction.deserializeWorkerMsg (List.replicate 96 255)
        fun _ => ⟨0, 0⟩) = List.replicate 96 255 ∧
      Bully.serializeMsg (Bully.deserializeMsg (List.replicate 80 255) ⟨0, 0, fun _ => ⟨0, 0⟩⟩) =
        List.replicate 80 255 := by
  obtain ⟨-, hmsg, -, hworker, -, hbully⟩ := wire_round_trips
  exact ⟨hmsg _ (by decide), hworker _ _ (by decide), hbully _ _ (by decide)⟩

end DistributedSystem.WireFormats
