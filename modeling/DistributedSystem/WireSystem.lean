import DistributedSystem.LogFiles.Worker
import DistributedSystem.Transaction.Bounds
import DistributedSystem.Transaction.Kinds

/-!
# The system over byte buffers

`Transaction.System` passes messages as values, with numbers of any size. Here the net holds
the buffers that `serializeWorkerMsg` fills with 32-bit words, the nodes read them back with
`deserializeWorkerMsg`, and a command is a buffer for `deserializeMsg`. As long as no clock can
have reached the end of its word the two systems are one: `decode` is a refinement mapping.
-/

namespace DistributedSystem.WireSystem

open Library
open Transaction (CmdCalls Config Manager ManagerEffect ManagerStimulus SockAddr System Worker WorkerEffect)
open WireFormats.Transaction (MSG_SIZE deserializeMsg deserializeWorkerMsg serializeWorkerMsg)
open LogFiles (clockView code kind)

/-! ## Messages -/

/-- What the words of a message mean. -/
def messageView (m : WireFormats.Transaction.TxMessage) : Transaction.TxMessage where
  msgID := kind m.msgID.toNat
  tid := m.tid.toNat
  nodeId := m.nodeId.toNat
  isCrash := decide (m.isCrash = 1)
  vectorClock := clockView m.vectorClock

/-- A message in words. -/
def messageWords (m : Transaction.TxMessage) : WireFormats.Transaction.TxMessage where
  msgID := UInt32.ofNat (code m.msgID)
  tid := UInt32.ofNat m.tid
  nodeId := UInt32.ofNat m.nodeId
  isCrash := if m.isCrash then 1 else 0
  vectorClock := fun i => ⟨UInt32.ofNat (m.vectorClock i).nodeId, UInt32.ofNat (m.vectorClock i).time⟩

/-- What the words of a command mean. -/
def commandView (m : WireFormats.Transaction.MsgType) : Transaction.MsgType where
  msgID := kind m.msgID.toNat
  tid := m.tid.toNat
  port := m.port.toNat
  newValue := m.newValue.toInt
  delay := m.delay.toInt
  strData := LogFiles.Worker.text (CString.arrayString m.strData.mem)

/-- The buffer in which a message is sent. -/
def sent (m : Transaction.TxMessage) : List UInt8 := serializeWorkerMsg (messageWords m)

/-- The message that a buffer is read as; `vc` is what the clock of the record held before. -/
def received (vc : Fin WireFormats.Transaction.MAX_NODES → WireFormats.Clock) (buffer : List UInt8) :
    Transaction.TxMessage := messageView (deserializeWorkerMsg buffer vc)

/-- The command in a buffer. -/
def command (buffer : Fin MSG_SIZE → UInt8) : Transaction.MsgType :=
  commandView (deserializeMsg (List.ofFn buffer))

/-! ## The system -/

/-- A datagram, with the address it comes from or goes to. -/
inductive Packet where
  | toManager (src : SockAddr) (buffer : List UInt8)
  | toWorker (dst : SockAddr) (buffer : List UInt8)

structure State where
  manager : Manager
  workers : ℕ → Worker
  net : List Packet

/-- What can happen to a worker. -/
inductive WorkerStimulus where
  | cmd (buffer : Fin MSG_SIZE → UInt8) (calls : CmdCalls)
  | deliver (k : ℕ)
  | pollTimeout
  | restart

inductive WireAct where
  | manager (a : Act ManagerStimulus)
  | worker (n : UInt32) (a : Act WorkerStimulus)

variable (cfg : Config) (vc : Fin WireFormats.Transaction.MAX_NODES → WireFormats.Clock)

/-- The input of the manager. -/
def managerInput (net : List Packet) : ManagerStimulus → Option Manager.Input
  | .deliver k u =>
      match net[k]? with
      | some (.toManager src buffer) => some (.message src (received vc buffer) u)
      | _ => none
  | .timeout => some .timeout
  | .restart => some .restart

/-- The input of worker `n`. -/
def workerInput (n : ℕ) (net : List Packet) : WorkerStimulus → Option Worker.Input
  | .cmd buffer calls => some (.cmd (command buffer) calls)
  | .deliver k =>
      match net[k]? with
      | some (.toWorker dst buffer) =>
          if dst = cfg.workerAddr n then some (.manager cfg.managerAddr (received vc buffer)) else none
      | _ => none
  | .pollTimeout => some .pollTimeout
  | .restart => some .restart

/-- The datagram an effect of the manager sends. -/
def managerPacket : ManagerEffect → Option Packet
  | .send dst m => some (.toWorker dst (sent m))
  | _ => none

/-- The datagram an effect of worker `n` sends. -/
def workerPacket (n : ℕ) : WorkerEffect → Option Packet
  | .send _ m => some (.toManager (cfg.workerAddr n) (sent m))
  | _ => none

/-- The manager handles an input. -/
def managerStep (s : State) (a : Act Manager.Input) : State :=
  { s with
    manager := Manager.process.step s.manager a
    net := s.net ++ (Manager.process.performed s.manager a).filterMap managerPacket }

/-- Worker `n` handles an input. -/
def workerStep (s : State) (n : ℕ) (a : Act Worker.Input) : State :=
  { s with
    workers := Function.update s.workers n (Worker.process.step (s.workers n) a)
    net := s.net ++ (Worker.process.performed (s.workers n) a).filterMap (workerPacket cfg n) }

/-- A step of the system. -/
def next (s : State) : WireAct → State
  | .manager a =>
      match managerInput vc s.net a.input with
      | some input => managerStep s { a with input }
      | none => s
  | .worker n a =>
      match workerInput cfg vc n.toNat s.net a.input with
      | some input => workerStep cfg s n.toNat { a with input }
      | none => s

/-- The step can happen. -/
def enabled (s : State) : WireAct → Prop
  | .manager a => ∃ input ∈ managerInput vc s.net a.input, s.manager.accepts input
  | .worker n a => n ≠ 0 ∧
      ∃ input ∈ workerInput cfg vc n.toNat s.net a.input, (s.workers n.toNat).accepts input

/-- The runs over byte buffers. -/
def machine : Machine State WireAct where
  enabled := enabled cfg vc
  next := next cfg vc

/-- All nodes freshly started, and nothing sent. -/
def start : State where
  manager := (System.start cfg).manager
  workers := (System.start cfg).workers
  net := []

/-! ## The refinement mapping -/

def Packet.decode : Packet → Transaction.Packet
  | .toManager src buffer => .toManager src (received vc buffer)
  | .toWorker dst buffer => .toWorker dst (received vc buffer)

def Packet.encode : Transaction.Packet → Packet
  | .toManager src m => .toManager src (sent m)
  | .toWorker dst m => .toWorker dst (sent m)

/-- The system that a state over byte buffers stands for. -/
def decode (s : State) : System where
  manager := s.manager
  workers := s.workers
  net := s.net.map (Packet.decode vc)

/-- The state over byte buffers of a system. -/
def encode (s : System) : State where
  manager := s.manager
  workers := s.workers
  net := s.net.map Packet.encode

def WorkerStimulus.view : WorkerStimulus → Transaction.WorkerStimulus
  | .cmd buffer calls => .cmd (command buffer) calls
  | .deliver k => .deliver k
  | .pollTimeout => .pollTimeout
  | .restart => .restart

/-- What a step over byte buffers stands for. -/
def WireAct.view : WireAct → Transaction.SystemAct
  | .manager a => .manager a
  | .worker n a => .worker n.toNat ⟨a.input.view, a.cut⟩

variable {cfg vc}

/-! ## Nothing is lost on the wire -/

/-- The number of ids and times that fit into a word. -/
def words : ℕ := 2 ^ 32

/-- A message kind of the enumeration. -/
def Numbered (k : Transaction.MsgId) : Prop := kind (code k) = k ∧ code k < words

instance (k : Transaction.MsgId) : Decidable (Numbered k) := inferInstanceAs (Decidable (_ ∧ _))

theorem numbered_workerKinds : ∀ k ∈ Transaction.workerKinds, Numbered k := by decide

theorem numbered_managerKinds : ∀ k ∈ Transaction.managerKinds, Numbered k := by decide

theorem messageView_messageWords {m : Transaction.TxMessage} {B : ℕ} (hm : m.Within words B)
    (hB : B < words) (hk : Numbered m.msgID) : messageView (messageWords m) = m := by
  have hkind : kind (UInt32.ofNat (code m.msgID)).toNat = m.msgID := by
    rw [UInt32.toNat_ofNat_of_lt' hk.2, hk.1]
  -- the flag is sent as 0 or 1
  have hcrash : decide ((messageWords m).isCrash = 1) = m.isCrash := by
    unfold messageWords
    cases m.isCrash <;> rfl
  have hclock : clockView (messageWords m).vectorClock = m.vectorClock := by
    funext i
    have hi := hm.clock i
    simp only [clockView, LogFiles.Clock.view, messageWords, UInt32.toNat_ofNat_of_lt' hi.1,
      UInt32.toNat_ofNat_of_lt' (Nat.lt_of_le_of_lt hi.2 hB)]
  simp only [messageView, hclock, hcrash]
  simp only [messageWords, hkind, UInt32.toNat_ofNat_of_lt' hm.tid, UInt32.toNat_ofNat_of_lt' hm.nodeId]

/-- **A message within the bounds is received as it was sent.** -/
theorem received_sent {m : Transaction.TxMessage} {B : ℕ} (hm : m.Within words B) (hB : B < words)
    (hk : Numbered m.msgID) : received vc (sent m) = m := by
  rw [received, sent, WireFormats.Transaction.serializeWorkerMsg_eq,
    WireFormats.Transaction.deserializeWorkerMsg_eq, Codec.decode_encode]
  exact messageView_messageWords hm hB hk

/-- The system after `k` steps: message kinds of the enumeration, and bounded numbers. -/
structure Fits (cfg : Config) (k : ℕ) (s : System) : Prop where
  kinded : System.Kinded cfg s
  within : s.Within words (1 + 256 * k)

variable {s : System} {k : ℕ}

theorem Fits.decode_encode_packet (h : Fits cfg k s) (hk : 1 + 256 * k < words) {p : Transaction.Packet}
    (hp : p ∈ s.net) : (Packet.encode p).decode vc = p := by
  cases p with
  | toManager src m =>
      exact congrArg (Transaction.Packet.toManager src) (received_sent (h.within.requests src m hp) hk
        (numbered_workerKinds _ (h.kinded.requests src m hp)))
  | toWorker dst m =>
      exact congrArg (Transaction.Packet.toWorker dst) (received_sent (h.within.replies dst m hp) hk
        (numbered_managerKinds _ (h.kinded.replies dst m hp)))

theorem Fits.decode_encode (h : Fits cfg k s) (hk : 1 + 256 * k < words) :
    decode vc (encode s) = s := by
  have hnet : (s.net.map Packet.encode).map (Packet.decode vc) = s.net := by
    rw [List.map_map]
    exact (List.map_congr_left fun p hp => h.decode_encode_packet hk hp).trans (List.map_id _)
  simp only [decode, encode, hnet]

/-! ## One step -/

theorem managerInput_encode (net : List Packet) (st : ManagerStimulus) :
    managerInput vc net st = System.managerInput (net.map (Packet.decode vc)) st := by
  cases st with
  | deliver j u =>
      simp only [managerInput, System.managerInput, List.getElem?_map]
      cases net[j]? with
      | none => rfl
      | some p => cases p <;> rfl
  | timeout => rfl
  | restart => rfl

theorem workerInput_encode (n : ℕ) (net : List Packet) (st : WorkerStimulus) :
    workerInput cfg vc n net st = System.workerInput cfg n (net.map (Packet.decode vc)) st.view := by
  cases st with
  | deliver j =>
      simp only [workerInput, System.workerInput, WorkerStimulus.view, List.getElem?_map]
      cases net[j]? with
      | none => rfl
      | some p => cases p <;> rfl
  | cmd buffer calls => rfl
  | pollTimeout => rfl
  | restart => rfl

/-- The nodes put onto the wire what they send. -/
theorem map_encode_managerPacket (es : List ManagerEffect) :
    (es.filterMap System.managerPacket).map Packet.encode = es.filterMap managerPacket := by
  rw [List.map_filterMap]
  congr 1
  funext e
  cases e <;> rfl

theorem map_encode_workerPacket (n : ℕ) (es : List WorkerEffect) :
    (es.filterMap (System.workerPacket cfg n)).map Packet.encode = es.filterMap (workerPacket cfg n) := by
  rw [List.map_filterMap]
  congr 1
  funext e
  cases e <;> rfl

theorem managerStep_encode (s : System) (a : Act Manager.Input) :
    managerStep (encode s) a = encode (s.managerStep a) := by
  simp only [managerStep, encode, System.managerStep, List.map_append, map_encode_managerPacket]

theorem workerStep_encode (s : System) (n : ℕ) (a : Act Worker.Input) :
    workerStep cfg (encode s) n a = encode (System.workerStep cfg s n a) := by
  simp only [workerStep, encode, System.workerStep, List.map_append, map_encode_workerPacket]

/-- A step over byte buffers is the step it stands for, as long as the net can be read back. -/
theorem next_encode (hnet : decode vc (encode s) = s) (a : WireAct) :
    next cfg vc (encode s) a = encode (System.next cfg s a.view) := by
  -- both sides take their input from the net that is read back
  have hread : (encode s).net.map (Packet.decode vc) = s.net := congrArg System.net hnet
  cases a with
  | manager a =>
      simp only [next, WireAct.view, System.next, managerInput_encode, hread]
      cases System.managerInput s.net a.input with
      | none => rfl
      | some input => exact managerStep_encode s _
  | worker n a =>
      simp only [next, WireAct.view, System.next, workerInput_encode, hread]
      cases System.workerInput cfg n.toNat s.net a.input.view with
      | none => rfl
      | some input => exact workerStep_encode s _ _

theorem enabled_encode (hnet : decode vc (encode s) = s) (a : WireAct) :
    enabled cfg vc (encode s) a ↔ System.enabled cfg s a.view := by
  have hread : (encode s).net.map (Packet.decode vc) = s.net := congrArg System.net hnet
  cases a with
  | manager a =>
      simp only [enabled, WireAct.view, System.enabled, managerInput_encode, hread]
      rfl
  | worker n a =>
      have hzero : n ≠ 0 ↔ n.toNat ≠ 0 := not_congr UInt32.toNat_inj.symm
      simp only [enabled, WireAct.view, System.enabled, workerInput_encode, hread, hzero]
      rfl

/-- The numbers of a step fit into words. -/
theorem actWithin_view (a : WireAct) : System.ActWithin words a.view := by
  cases a with
  | manager a => trivial
  | worker n a =>
      refine ⟨n.toNat_lt, fun c calls hc => ?_⟩
      obtain ⟨st, cut⟩ := a
      cases st with
      | cmd buffer calls' =>
          cases hc
          exact UInt32.toNat_lt _
      | _ => cases hc

theorem Fits.next (h : Fits cfg k s) (a : WireAct) : Fits cfg (k + 1) (System.next cfg s a.view) where
  kinded := System.kinded_next h.kinded
  within := (h.within.next (actWithin_view a)).mono (by omega)

theorem times_lt_words (h : k < 2 ^ 24) : 1 + 256 * k < words := by
  unfold words
  omega

/-- The byte buffers simulate the values for 2 ^ 24 steps. -/
def simulation (cfg : Config) (vc : Fin WireFormats.Transaction.MAX_NODES → WireFormats.Clock) :
    Machine.Simulation (System.machine cfg) (machine cfg vc) (2 ^ 24) where
  state := encode
  act := WireAct.view
  Inv := Fits cfg
  inv_next a _ h := h.next a
  next_eq a hk h := next_encode (h.decode_encode (times_lt_words hk)) a
  enabled_iff a hk h := enabled_encode (h.decode_encode (times_lt_words hk)) a

/-! ## The runs -/

/-- **In fewer than 2 ^ 24 steps the two systems are one.** The state over byte buffers encodes
    that of the system with values and decodes to it, the same steps are possible, and every id
    and every time still fits into a word. -/
theorem byte_runs (cfg : Config) (vc : Fin WireFormats.Transaction.MAX_NODES → WireFormats.Clock)
    (hport : cfg.managerAddr.port < words) (as : List WireAct) (hlen : as.length < 2 ^ 24) :
    let bytes := (machine cfg vc).after (start cfg) as
    let values := (System.machine cfg).after (System.start cfg) (as.map WireAct.view)
    bytes = encode values ∧ decode vc bytes = values ∧
      ((machine cfg vc).Along (machine cfg vc).enabled (start cfg) as ↔
        (System.machine cfg).Along (System.machine cfg).enabled (System.start cfg)
          (as.map WireAct.view)) ∧
      values.Within words (words - 1) := by
  intro bytes values
  have h0 : Fits cfg 0 (System.start cfg) := ⟨System.kinded_start cfg, System.within_start hport⟩
  have hlen' : 0 + as.length ≤ 2 ^ 24 := by omega
  obtain ⟨hbytes, hfits⟩ := (simulation cfg vc).after h0 hlen'
  have hend : 1 + 256 * (0 + as.length) < words := times_lt_words (by omega)
  refine ⟨hbytes, ?_, (simulation cfg vc).along_enabled h0 hlen', ?_⟩
  -- the bounds still hold at the end, so what is encoded there can be read back
  · exact (congrArg (decode vc) hbytes).trans (hfits.decode_encode hend)
  · exact hfits.within.mono (by omega)

/-- The buffer of a `BEGINTX` of transaction 1 for the manager at port 7. -/
def beginBuffer : Fin MSG_SIZE → UInt8 := fun i =>
  if i.val = 2 then 3 else if i.val = 3 then 232 else if i.val = 7 then 1 else if i.val = 11 then 7 else 0

/-- Worker 1 begins the transaction and gets the answer. -/
def beginRun : List WireAct :=
  [.worker 1 ⟨.cmd beginBuffer ⟨0, some 0⟩, none⟩, .manager ⟨.deliver 0 {}, none⟩, .worker 1 ⟨.deliver 1, none⟩]

theorem byte_runs_begin :
    let vc := fun _ => ⟨7, 7⟩
    decode vc ((machine System.smallConfig vc).after (start System.smallConfig) beginRun) =
        (System.machine System.smallConfig).after (System.start System.smallConfig)
          (beginRun.map WireAct.view) ∧
      (machine System.smallConfig vc).Along (machine System.smallConfig vc).enabled
        (start System.smallConfig) beginRun := by
  intro vc
  obtain ⟨-, hdecode, henabled, -⟩ := byte_runs System.smallConfig vc (by decide) beginRun (by decide)
  have hpossible : (System.machine System.smallConfig).Along (System.enabled System.smallConfig)
      (System.start System.smallConfig) (beginRun.map WireAct.view) := by decide
  exact ⟨hdecode, henabled.mpr hpossible⟩

end DistributedSystem.WireSystem
