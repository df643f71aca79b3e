import DistributedSystem.Transaction.ManagerEffects
import DistributedSystem.Transaction.WorkerEffects

/-!
# The manager and its workers

One manager, a worker for every node id, and the datagrams between them. `net` holds
every datagram that was ever sent: one that is never delivered is lost, one that is
delivered late is reordered, and one that is delivered again is duplicated. A step is one
input of one node, handled up to its end or up to a crash. Handlers touch the state of
their own node only, so runs in which handlers overlap add nothing.
-/

namespace DistributedSystem.Transaction

open DistributedSystem.Library

/-- A datagram, with the address it comes from or goes to. -/
inductive Packet where
  | toManager (src : SockAddr) (m : TxMessage)
  | toWorker (dst : SockAddr) (m : TxMessage)
  deriving DecidableEq

/-- Addresses and initial data. A worker is named by its node id, which is not 0. -/
structure Config where
  managerAddr : SockAddr
  workerAddr : NodeId → SockAddr
  workerAddr_injective : Function.Injective workerAddr
  port_ne_zero : ∀ n, (workerAddr n).port ≠ 0
  object : NodeId → ObjectData
  startTime : NodeId → Timeval

/-- The whole system. -/
structure System where
  manager : Manager
  workers : NodeId → Worker
  net : List Packet

/-- What can happen to the manager; a datagram is named by its place in `net`. -/
inductive ManagerStimulus where
  | deliver (k : ℕ) (u : Manager.Uninit)
  | timeout
  | restart
  deriving DecidableEq

/-- What can happen to a worker. -/
inductive WorkerStimulus where
  | cmd (m : MsgType) (calls : CmdCalls)
  | deliver (k : ℕ)
  | pollTimeout
  | restart
  deriving DecidableEq

/-- A step of the system: who gets what, and where it crashes, if it does. -/
inductive SystemAct where
  | manager (a : Act ManagerStimulus)
  | worker (n : NodeId) (a : Act WorkerStimulus)
  deriving DecidableEq

namespace System

/-- The input of the manager; a datagram of a worker may reach it whatever address the
    worker sent it to. -/
def managerInput (net : List Packet) : ManagerStimulus → Option Manager.Input
  | .deliver k u =>
      match net[k]? with
      | some (.toManager src m) => some (.message src m u)
      -- a datagram for a worker, or none
      | _ => none
  | .timeout => some .timeout
  | .restart => some .restart

/-- The input of worker `n`; a datagram reaches it when it carries its address. -/
def workerInput (cfg : Config) (n : NodeId) (net : List Packet) : WorkerStimulus → Option Worker.Input
  | .cmd m calls => some (.cmd m calls)
  | .deliver k =>
      match net[k]? with
      | some (.toWorker dst m) =>
          -- the manager sends from its own port
          if dst = cfg.workerAddr n then some (.manager cfg.managerAddr m) else none
      | _ => none
  | .pollTimeout => some .pollTimeout
  | .restart => some .restart

/-- The datagram an effect of the manager sends. -/
def managerPacket : ManagerEffect → Option Packet
  | .send dst m => some (.toWorker dst m)
  | _ => none

/-- The datagram an effect of worker `n` sends. -/
def workerPacket (cfg : Config) (n : NodeId) : WorkerEffect → Option Packet
  | .send _ m => some (.toManager (cfg.workerAddr n) m)
  | _ => none

/-- The manager handles an input. -/
def managerStep (s : System) (a : Act Manager.Input) : System :=
  { s with
    manager := Manager.process.step s.manager a
    net := s.net ++ (Manager.process.performed s.manager a).filterMap managerPacket }

/-- Worker `n` handles an input. -/
def workerStep (cfg : Config) (s : System) (n : NodeId) (a : Act Worker.Input) : System :=
  { s with
    workers := Function.update s.workers n (Worker.process.step (s.workers n) a)
    net := s.net ++ (Worker.process.performed (s.workers n) a).filterMap (workerPacket cfg n) }

/-- A step of the system. -/
def next (cfg : Config) (s : System) : SystemAct → System
  | .manager a =>
      match managerInput s.net a.input with
      | some input => s.managerStep { a with input }
      | none => s
  | .worker n a =>
      match workerInput cfg n s.net a.input with
      | some input => workerStep cfg s n { a with input }
      | none => s

/-- The step can happen. -/
def enabled (cfg : Config) (s : System) : SystemAct → Prop
  | .manager a => ∃ input ∈ managerInput s.net a.input, s.manager.accepts input
  | .worker n a => n ≠ 0 ∧ ∃ input ∈ workerInput cfg n s.net a.input, (s.workers n).accepts input

instance (cfg : Config) (s : System) : ∀ a, Decidable (enabled cfg s a)
  | .manager _ => inferInstanceAs (Decidable (∃ _ ∈ _, _))
  | .worker _ _ => inferInstanceAs (Decidable (_ ∧ _))

/-- The runs of the system. -/
def machine (cfg : Config) : Machine System SystemAct where
  enabled := enabled cfg
  next := next cfg

/-- All nodes freshly started, and nothing sent. -/
def start (cfg : Config) : System where
  manager := Manager.start cfg.managerAddr.port
  workers n := Worker.start n (cfg.workerAddr n).port (cfg.object n).A (cfg.object n).B
    (cfg.object n).IDstring (cfg.startTime n)
  net := []

variable {cfg : Config} {s : System}

/-- The messages the manager has sent. -/
def told (net : List Packet) : List TxMessage :=
  net.filterMap fun
    | .toWorker _ m => some m
    | .toManager _ _ => none

theorem mem_told {net : List Packet} {m : TxMessage} :
    m ∈ told net ↔ ∃ dst, .toWorker dst m ∈ net := by
  simp only [told, List.mem_filterMap]
  constructor
  · rintro ⟨p, hp, hm⟩
    cases p with
    | toManager src m' => simp at hm
    | toWorker dst m' =>
        cases hm
        exact ⟨dst, hp⟩
  · rintro ⟨dst, hp⟩
    exact ⟨_, hp, rfl⟩

@[simp] theorem told_append (net net' : List Packet) : told (net ++ net') = told net ++ told net' :=
  List.filterMap_append

@[simp] theorem told_workerPacket (n : NodeId) (es : List WorkerEffect) :
    told (es.filterMap (workerPacket cfg n)) = [] := by
  rw [told, List.filterMap_filterMap]
  refine List.filterMap_eq_nil_iff.mpr fun e _ => ?_
  cases e <;> rfl

theorem toManager_mem_workerPacket {n : NodeId} {es : List WorkerEffect} {src : SockAddr}
    {m : TxMessage} (h : .toManager src m ∈ es.filterMap (workerPacket cfg n)) :
    src = cfg.workerAddr n ∧ ∃ dst, .send dst m ∈ es := by
  obtain ⟨e, he, hp⟩ := List.mem_filterMap.mp h
  cases e <;> simp only [workerPacket, reduceCtorEq, Option.some.injEq, Packet.toManager.injEq] at hp
  obtain ⟨rfl, rfl⟩ := hp
  exact ⟨rfl, _, he⟩

theorem toWorker_mem_managerPacket {es : List ManagerEffect} {dst : SockAddr} {m : TxMessage}
    (h : .toWorker dst m ∈ es.filterMap managerPacket) : .send dst m ∈ es := by
  obtain ⟨e, he, hp⟩ := List.mem_filterMap.mp h
  cases e <;> simp only [managerPacket, reduceCtorEq, Option.some.injEq, Packet.toWorker.injEq] at hp
  obtain ⟨rfl, rfl⟩ := hp
  exact he

/-- The two components send in one direction only. -/
theorem toManager_notMem_managerPacket {es : List ManagerEffect} {src : SockAddr} {m : TxMessage} :
    .toManager src m ∉ es.filterMap managerPacket := by
  intro h
  obtain ⟨e, -, hp⟩ := List.mem_filterMap.mp h
  cases e <;> simp [managerPacket] at hp

theorem toWorker_notMem_workerPacket {n : NodeId} {es : List WorkerEffect} {dst : SockAddr}
    {m : TxMessage} : .toWorker dst m ∉ es.filterMap (workerPacket cfg n) := by
  intro h
  obtain ⟨e, -, hp⟩ := List.mem_filterMap.mp h
  cases e <;> simp [workerPacket] at hp

/-- A condition on what the manager handles, as a condition on steps of the system. -/
def OnManager (C : System → Act Manager.Input → Prop) (s : System) : SystemAct → Prop
  | .manager a => ∀ input ∈ managerInput s.net a.input, C s { a with input }
  | .worker _ _ => True

/-- A condition on what the workers handle, as a condition on steps of the system. -/
def OnWorker (cfg : Config) (C : System → NodeId → Act Worker.Input → Prop) (s : System) :
    SystemAct → Prop
  | .manager _ => True
  | .worker n a => ∀ input ∈ workerInput cfg n s.net a.input, C s n { a with input }

instance (C : System → Act Manager.Input → Prop) [∀ s a, Decidable (C s a)] (s : System) :
    ∀ a, Decidable (OnManager C s a)
  | .manager _ => inferInstanceAs (Decidable (∀ _ ∈ _, _))
  | .worker _ _ => isTrue trivial

instance (C : System → NodeId → Act Worker.Input → Prop) [∀ s n a, Decidable (C s n a)]
    (s : System) : ∀ a, Decidable (OnWorker cfg C s a)
  | .manager _ => isTrue trivial
  | .worker _ _ => inferInstanceAs (Decidable (∀ _ ∈ _, _))

/-- A message the manager gets is the one delivered to it. -/
theorem deliver_of_managerInput {st : ManagerStimulus} {src : SockAddr} {m : TxMessage}
    {u : Manager.Uninit} (h : managerInput s.net st = some (.message src m u)) :
    ∃ k, st = .deliver k u ∧ s.net[k]? = some (.toManager src m) := by
  unfold managerInput at h
  split at h
  · rename_i k u'
    split at h
    · rename_i hk
      cases h
      exact ⟨k, rfl, hk⟩
    · exact absurd h (by simp)
  · exact absurd h (by simp)
  · exact absurd h (by simp)

theorem mem_net_of_managerInput {st : ManagerStimulus} {src : SockAddr} {m : TxMessage}
    {u : Manager.Uninit} (h : managerInput s.net st = some (.message src m u)) :
    .toManager src m ∈ s.net := by
  obtain ⟨k, -, hk⟩ := deliver_of_managerInput h
  exact List.mem_of_getElem? hk

/-- A message a worker gets is the one delivered to it, with the address of that worker. -/
theorem deliver_of_workerInput {n : NodeId} {st : WorkerStimulus} {src : SockAddr} {m : TxMessage}
    (h : workerInput cfg n s.net st = some (.manager src m)) :
    ∃ k, st = .deliver k ∧ s.net[k]? = some (.toWorker (cfg.workerAddr n) m) := by
  unfold workerInput at h
  split at h
  · exact absurd h (by simp)
  · rename_i k
    split at h
    · rename_i hk
      split at h
      · rename_i hdst
        cases h
        exact ⟨k, rfl, hdst ▸ hk⟩
      · exact absurd h (by simp)
    · exact absurd h (by simp)
  · exact absurd h (by simp)
  · exact absurd h (by simp)

theorem mem_net_of_workerInput {n : NodeId} {st : WorkerStimulus} {src : SockAddr} {m : TxMessage}
    (h : workerInput cfg n s.net st = some (.manager src m)) :
    .toWorker (cfg.workerAddr n) m ∈ s.net := by
  obtain ⟨k, -, hk⟩ := deliver_of_workerInput h
  exact List.mem_of_getElem? hk

/-- A step of the manager whose stimulus is `input`. -/
theorem next_manager {a : Act ManagerStimulus} {input : Manager.Input}
    (hin : input ∈ managerInput s.net a.input) :
    next cfg s (.manager a) = s.managerStep ⟨input, a.cut⟩ := by
  simp only [next, Option.mem_def.mp hin]

/-- A step of worker `n` whose stimulus is `input`. -/
theorem next_worker {n : NodeId} {a : Act WorkerStimulus} {input : Worker.Input}
    (hin : input ∈ workerInput cfg n s.net a.input) :
    next cfg s (.worker n a) = workerStep cfg s n ⟨input, a.cut⟩ := by
  simp only [next, Option.mem_def.mp hin]

/-! ## A small system -/

/-- Workers at the addresses `⟨n, 80⟩` of a manager at port 7. -/
def smallConfig : Config where
  managerAddr := ⟨1, 7⟩
  workerAddr n := ⟨n, 80⟩
  workerAddr_injective n n' h := by simpa using h
  port_ne_zero _ := by simp
  object _ := { IDstring := "", lastUpdateTime := 0, A := 0, B := 0, vectorClock := emptyClock }
  startTime _ := 0

/-- A command of the cmd program for worker `n`. -/
def command (n : NodeId) (msgID : MsgId) : SystemAct :=
  .worker n ⟨.cmd { msgID, tid := 1, port := 7 } ⟨0, some 0⟩, none⟩

/-- Datagram `k` reaches worker `n`. -/
def toWorker (n : NodeId) (k : ℕ) : SystemAct := .worker n ⟨.deliver k, none⟩

/-- Datagram `k` reaches the manager. -/
def toManager (k : ℕ) : SystemAct := .manager ⟨.deliver k {}, none⟩

end System

end DistributedSystem.Transaction
