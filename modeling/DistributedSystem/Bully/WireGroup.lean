import DistributedSystem.Bully.Election
import DistributedSystem.Bully.Group
import DistributedSystem.WireFormats

/-!
# A group over byte buffers

The datagrams of `Bully.Group` carry messages with numbers of any size; those of `node.c` are
the buffers of `serializeMsg`. A step of a node advances its clock by at most one tick for each
member of the group and two more, so for a long time no clock leaves its word, and until then
the group over byte buffers is the group over messages.
-/

namespace DistributedSystem.Bully

open DistributedSystem.Library

/-! ## Bounds -/

/-- The number of ids and times that fit into a word. -/
def words : ℕ := 2 ^ 32

/-- The kinds of the enumeration. -/
def kinds : List MsgType := [.elect, .answer, .coord, .aya, .iaa]

/-- The ids of a clock fit into words, and its times are at most `B`. -/
def ClockWithin (B : ℕ) (vc : VClock) : Prop := ∀ i, (vc i).nodeId < words ∧ (vc i).time ≤ B

/-- The numbers of a message are within the bounds. -/
structure Msg.Within (B : ℕ) (m : Msg) : Prop where
  msgID : m.msgID ∈ kinds
  electionID : m.electionID < words
  clock : ClockWithin B m.vectorClock

/-- The numbers of a node are within the bounds. -/
structure Node.Within (B : ℕ) (n : Node) : Prop where
  counter : n.counter < words
  clock : ClockWithin B n.myVectorClock

/-- The numbers that an effect writes or sends are within the bounds. -/
def NodeEffect.Within (B : ℕ) : NodeEffect → Prop
  | .counter n => n < words
  | .clock vc => ClockWithin B vc
  | .send _ m => m.Within B
  | _ => True

/-- All effects are within the bounds. -/
def NodeEffect.AllWithin (B : ℕ) (es : List NodeEffect) : Prop := ∀ e ∈ es, e.Within B

variable {B B' : ℕ} {vc : VClock} {c : Config} {k : MsgType} {m : Msg}

theorem ClockWithin.mono (h : ClockWithin B vc) (hB : B ≤ B') : ClockWithin B' vc :=
  fun i => ⟨(h i).1, (h i).2.trans hB⟩

theorem ClockWithin.tick (h : ClockWithin B vc) (port : ℕ) :
    ClockWithin (B + 1) (Node.updateMyVectorClock port vc) := by
  intro i
  unfold Node.updateMyVectorClock
  split
  · exact ⟨(h i).1, (Nat.mod_le _ _).trans (Nat.succ_le_succ (h i).2)⟩
  · exact h.mono (Nat.le_succ B) i

theorem ClockWithin.merge (h : ClockWithin B vc) (hm : m.Within B) :
    ClockWithin B (Node.mergeVectorClock vc m) := by
  intro i
  unfold Node.mergeVectorClock
  split
  · exact hm.clock i
  · exact h i

theorem Msg.Within.mono (h : m.Within B) (hB : B ≤ B') : m.Within B' :=
  ⟨h.msgID, h.electionID, h.clock.mono hB⟩

namespace NodeEffect

variable {e : NodeEffect} {es es' : List NodeEffect}

@[simp] theorem allWithin_nil : AllWithin B [] := by simp [AllWithin]

@[simp] theorem allWithin_cons : AllWithin B (e :: es) ↔ e.Within B ∧ AllWithin B es :=
  List.forall_mem_cons

@[simp] theorem allWithin_append : AllWithin B (es ++ es') ↔ AllWithin B es ∧ AllWithin B es' :=
  List.forall_mem_append

theorem AllWithin.mono (h : AllWithin B es) (hB : B ≤ B') : AllWithin B' es := by
  intro e he
  have hwithin := h e he
  cases e with
  | clock vc => exact ClockWithin.mono hwithin hB
  | send dst m => exact Msg.Within.mono hwithin hB
  | _ => exact hwithin

end NodeEffect

namespace Node

open NodeEffect

variable {n : Node} {e : NodeEffect} {es : List NodeEffect} {dst src : SockAddr} {id : Option ℕ}
  {electionID counter : ℕ} {ms : List GroupMem}

theorem Within.mono (h : n.Within B) (hB : B ≤ B') : n.Within B' := ⟨h.counter, h.clock.mono hB⟩

/-- Effects within the bounds keep a node within them. -/
theorem Within.apply (h : n.Within B) (he : e.Within B) : (n.apply e).Within B := by
  cases e with
  | counter k => exact ⟨he, h.clock⟩
  | clock vc => exact ⟨h.counter, he⟩
  | control k => cases k <;> exact ⟨h.counter, h.clock⟩
  | _ => exact ⟨h.counter, h.clock⟩

theorem Within.exec (h : n.Within B) (hes : AllWithin B es) : ((process c).exec n es).Within B :=
  Process.exec_invariant h fun _ e he hwithin => hwithin.apply (hes e he)

theorem nextElection_lt (counter : ℕ) : nextElection counter < words := Nat.mod_lt _ (by decide)

theorem allWithin_sendMsg {drawn : Option ℕ} (hk : k ∈ kinds) (hid : electionID < words)
    (hvc : ClockWithin B vc) : AllWithin (B + 1) (sendMsg c vc dst k electionID drawn) := by
  simp only [sendMsg, allWithin_cons, allWithin_append]
  refine ⟨hvc.tick c.port, ?_, ⟨hk, hid, hvc.tick c.port⟩, trivial, allWithin_nil⟩
  cases drawn with
  | none => exact allWithin_nil
  | some counter => exact allWithin_cons.mpr ⟨nextElection_lt counter, allWithin_nil⟩

/-- One tick for each member of the list. -/
theorem allWithin_sendLoop (hk : k ∈ kinds) (hid : ∀ x ∈ id, x < words) (hcounter : counter < words)
    (hvc : ClockWithin B vc) : AllWithin (B + ms.length) (sendLoop c k id vc counter ms) := by
  induction ms generalizing B vc counter with
  | nil => exact allWithin_nil
  | cons m ms ih =>
      unfold sendLoop
      split
      · exact allWithin_cons.mpr ⟨trivial, allWithin_nil⟩
      · -- an election is called with the id given, or with the counter, which is then advanced
        have helection : id.getD counter < words := by
          cases id with
          | none => exact hcounter
          | some x => exact hid x rfl
        have hnext : (if id = none then nextElection counter else counter) < words := by
          split
          · exact nextElection_lt counter
          · exact hcounter
        have hrest := ih hnext (hvc.tick c.port)
        simp only [allWithin_append, List.length_cons]
        exact ⟨⟨(allWithin_sendMsg hk helection hvc).mono (by omega),
          allWithin_cons.mpr ⟨trivial, allWithin_nil⟩⟩, hrest.mono (by omega)⟩

theorem allWithin_startupLoop (hcounter : counter < words) (hvc : ClockWithin B vc) :
    AllWithin (B + ms.length) (startupLoop c vc counter ms) := by
  induction ms generalizing B vc counter with
  | nil => exact allWithin_nil
  | cons m ms ih =>
      unfold startupLoop
      simp only [allWithin_append, allWithin_cons, List.length_cons]
      refine ⟨⟨trivial, trivial, allWithin_nil⟩, ?_⟩
      split
      · split
        · exact allWithin_cons.mpr ⟨trivial, allWithin_nil⟩
        · have hrest := ih (nextElection_lt counter) (hvc.tick c.port)
          simp only [allWithin_append, allWithin_cons]
          exact ⟨⟨(allWithin_sendMsg (by decide) hcounter hvc).mono (by omega), trivial, allWithin_nil⟩,
            hrest.mono (by omega)⟩
      · exact (ih hcounter hvc).mono (by omega)

/-- The `ELECT`s of a called election carry its id, those of a new one the counter. -/
theorem allWithin_elect (hid : ∀ x ∈ id, x < words) (hcounter : counter < words)
    (hvc : ClockWithin B vc) :
    AllWithin (B + c.groupMems.length) (sendLoop c .elect id vc counter (higher c)) :=
  (allWithin_sendLoop (by decide) hid hcounter hvc).mono
    (Nat.add_le_add_left (List.length_filter_le _ _) B)

theorem allWithin_coord (hcounter : counter < words) (hvc : ClockWithin B vc) :
    AllWithin (B + c.groupMems.length) (sendLoop c .coord (some 0) vc counter (lower c)) := by
  have hid : ∀ x ∈ some 0, x < words := fun x hx => Option.some.inj hx ▸ by decide
  exact (allWithin_sendLoop (by decide) hid hcounter hvc).mono
    (Nat.add_le_add_left (List.length_filter_le _ _) B)

theorem allWithin_handleMsg (h : n.Within B) (hm : m.Within B') (hvc : ClockWithin B' vc) :
    AllWithin (B' + (c.groupMems.length + 1)) (handleMsg c n vc src m) := by
  unfold handleMsg
  split
  · -- ELECT: the ANSWER ticks once, and then at most one of the two loops runs over all members,
    -- as a node without higher members sends no ELECT and one with higher members no COORD
    simp only [allWithin_append, allWithin_cons]
    refine ⟨⟨(allWithin_sendMsg (by decide) hm.electionID hvc).mono (by omega), trivial,
      allWithin_nil⟩, ?_⟩
    split
    · exact allWithin_nil
    · have hid : ∀ x ∈ some m.electionID, x < words := fun x hx => Option.some.inj hx ▸ hm.electionID
      simp only [allWithin_append, allWithin_cons]
      refine ⟨⟨⟨trivial, allWithin_nil⟩,
        (allWithin_elect hid h.counter (hvc.tick c.port)).mono (by omega)⟩, ?_⟩
      split
      · exact (allWithin_coord h.counter (hvc.tick c.port)).mono (by omega)
      · exact allWithin_nil
  · split
    · simp only [allWithin_cons]
      exact ⟨trivial, trivial, allWithin_nil⟩
    · exact allWithin_nil
  · rw [allWithin_cons]
    refine ⟨trivial, ?_⟩
    split
    · exact allWithin_cons.mpr ⟨trivial, allWithin_nil⟩
    · exact allWithin_nil
  · simp only [allWithin_append, allWithin_cons]
    exact ⟨⟨trivial, trivial, allWithin_nil⟩,
      (allWithin_sendMsg (by decide) hm.electionID hvc).mono (by omega)⟩
  · exact allWithin_nil
  · exact allWithin_nil

theorem allWithin_receive (h : n.Within B) (hm : m.Within B) :
    AllWithin (B + (c.groupMems.length + 2)) (receive c n src m) := by
  -- merging takes over times of the message, and only the tick behind it goes past the bound
  have hmerged := h.clock.merge hm
  have hticked : ClockWithin (B + 1) (receivedClock c n m) := hmerged.tick c.port
  simp only [receive, allWithin_append, allWithin_cons]
  refine ⟨⟨hmerged.mono (by omega), hticked.mono (by omega), trivial, allWithin_nil⟩, ?_⟩
  exact (allWithin_handleMsg h (hm.mono (Nat.le_succ B)) hticked).mono (by omega)

theorem allWithin_receiveTimeout (h : n.Within B) :
    AllWithin (B + c.groupMems.length) (receiveTimeout c n) := by
  have hcoord : AllWithin (B + c.groupMems.length)
      (sendLoop c .coord (some 0) n.myVectorClock n.counter (lower c)) := allWithin_coord h.counter h.clock
  have hcall : AllWithin (B + c.groupMems.length)
      (sendLoop c .elect none n.myVectorClock n.counter (higher c)) :=
    allWithin_elect (by simp) h.counter h.clock
  unfold receiveTimeout
  split
  · exact hcoord
  · split
    · exact allWithin_cons.mpr ⟨trivial, hcall⟩
    · exact allWithin_cons.mpr ⟨trivial, allWithin_nil⟩
  · split
    · exact hcall
    · exact hcoord
    · exact allWithin_nil
  · exact allWithin_nil

theorem allWithin_threadIteration (h : n.Within B) : AllWithin (B + 1) (threadIteration c n) := by
  unfold threadIteration
  split
  · split
    · exact allWithin_cons.mpr ⟨trivial, allWithin_nil⟩
    · exact allWithin_cons.mpr ⟨trivial,
        allWithin_sendMsg (by decide) (Nat.mod_lt _ (by decide)) h.clock⟩
  · exact allWithin_nil

/-- The numbers of an input are within the bounds. -/
def Input.Within (B : ℕ) : Input → Prop
  | .message _ m => m.Within B
  | _ => True

/-- **One input advances the clock by at most one tick for each member and two more.** -/
theorem allWithin_handle {i : Input} (h : n.Within B) (hi : i.Within B) :
    AllWithin (B + (c.groupMems.length + 2)) (handle c n i) := by
  cases i with
  | message src m =>
      simp only [handle]
      split
      · -- at startup the message is handled by a node that has neither sent nor received anything
        rw [allWithin_append]
        have hfresh : Within B { n with lastReceived := none, lastSent := none } := ⟨h.counter, h.clock⟩
        refine ⟨?_, allWithin_receive hfresh hi⟩
        simp only [allWithin_cons]
        exact ⟨trivial, trivial, trivial, allWithin_nil⟩
      · exact allWithin_receive h hi
      · exact allWithin_nil
  | timeout =>
      simp only [handle]
      split
      · exact allWithin_cons.mpr ⟨trivial, (allWithin_startupLoop h.counter h.clock).mono (by omega)⟩
      · exact (allWithin_receiveTimeout h).mono (by omega)
      · exact allWithin_nil
  | thread => exact (allWithin_threadIteration h).mono (by omega)

end Node

namespace Group

open Node (Input)

/-- The numbers of all nodes and datagrams are within the bounds. -/
structure Within (B : ℕ) (s : GroupState) : Prop where
  nodes : ∀ p < words, (s.nodes p).Within B
  net : ∀ d ∈ s.net, d.msg.Within B

/-- The ports of a step fit into words. -/
def ActWithin : GroupAct → Prop
  | .run p _ | .restart p => p < words

/-- The number of members. -/
def size (g : Group) : ℕ := (g.groupMems 0).length

variable {g : Group} {s : GroupState} {p : ℕ} {i : Input} {cut : Option ℕ}

theorem length_groupMems (g : Group) (p : ℕ) : (g.config p).groupMems.length = g.size :=
  (g.known p 0).length_eq

theorem Within.mono (h : Within B s) (hB : B ≤ B') : Within B' s :=
  ⟨fun p hp => (h.nodes p hp).mono hB, fun d hd => (h.net d hd).mono hB⟩

theorem within_start_node (g : Group) (hp : p < words) (hB : 1 ≤ B) :
    (Node.start (g.config p)).Within B := by
  refine ⟨show 1 < words by decide, fun i => ?_⟩
  show (Node.startClock (g.config p) i).nodeId < words ∧ (Node.startClock (g.config p) i).time ≤ B
  unfold Node.startClock
  split
  · exact ⟨hp, hB⟩
  · exact ⟨by decide, Nat.zero_le B⟩

theorem within_start (g : Group) : Within 1 g.start where
  nodes _ hp := within_start_node g hp (Nat.le_refl 1)
  net _ hd := absurd hd List.not_mem_nil

theorem Within.nodeStep (h : Within B s) (hp : p < words) {st : Stimulus}
    (hin : input s.net p st = some i) : Within (B + (g.size + 2)) (g.nodeStep s p ⟨i, cut⟩) := by
  have hB : B ≤ B + (g.size + 2) := Nat.le_add_right B _
  have hinput : i.Within B := by
    cases i with
    | message src m =>
        cases st with
        | deliver k addr =>
            -- the message is that of a datagram on the net
            unfold input at hin
            cases hk : s.net[k]? with
            | none => simp [hk] at hin
            | some d =>
                simp only [hk, Option.ite_none_right_eq_some, Option.some.injEq,
                  Input.message.injEq] at hin
                obtain ⟨-, -, rfl⟩ := hin
                exact h.net d (List.mem_of_getElem? hk)
        | timeout => exact absurd hin (by simp [input])
        | thread => exact absurd hin (by simp [input])
    | _ => trivial
  have hperformed : NodeEffect.AllWithin (B + (g.size + 2))
      ((Node.process (g.config p)).performed (s.nodes p) ⟨i, cut⟩) := by
    intro e he
    -- a cut adds nothing but the crash
    rcases Process.mem_performed he with he | rfl
    · have hall := Node.allWithin_handle (c := g.config p) (h.nodes p hp) hinput
      rw [length_groupMems] at hall
      exact hall e he
    · trivial
  refine ⟨?_, fun d hd => ?_⟩
  · refine (Function.forall_update_iff s.nodes fun q (n : Node) => q < words → n.Within _).mpr
      ⟨fun _ => ?_, fun q _ hq => ?_⟩
    · exact ((h.nodes p hp).mono hB).exec hperformed
    · exact (h.nodes q hq).mono hB
  · rcases List.mem_append.mp hd with hd | hd
    · exact (h.net d hd).mono hB
    · exact hperformed _ (mem_filterMap_datagram.mp hd).2

/-- **One step adds at most one tick for each member and two more**, wherever it is cut off. -/
theorem Within.next {a : GroupAct} (h : Within B s) (hB : 1 ≤ B) (ha : ActWithin a) :
    Within (B + (g.size + 2)) (g.next s a) := by
  have hle : B ≤ B + (g.size + 2) := Nat.le_add_right B _
  cases a with
  | run p a =>
      unfold Group.next
      dsimp only
      split
      · exact h.nodeStep ha ‹_›
      · exact h.mono hle
  | restart p =>
      refine ⟨?_, (h.mono hle).net⟩
      exact (Function.forall_update_iff s.nodes fun q (n : Node) => q < words → n.Within _).mpr
        ⟨fun _ => within_start_node g ha (hB.trans hle), fun q _ hq => (h.nodes q hq).mono hle⟩

end Group

/-! ## Messages in words -/

namespace WireGroup

open Node (Input)
open WireFormats.Bully (serializeMsg deserializeMsg)

/-- The number of a message kind. -/
def code : MsgType → ℕ
  | .elect => 10 | .answer => 11 | .coord => 12 | .aya => 20 | .iaa => 21
  | .other id => id

/-- The kind with a given number. -/
def kind : ℕ → MsgType
  | 10 => .elect | 11 => .answer | 12 => .coord | 20 => .aya | 21 => .iaa
  | id => .other id

/-- What the words of a message mean. -/
def messageView (m : WireFormats.Bully.Msg) : Msg where
  msgID := kind m.msgID.toNat
  electionID := m.electionID.toNat
  vectorClock := fun i => ⟨(m.vectorClock i).nodeId.toNat, (m.vectorClock i).time.toNat⟩

/-- A message in words. -/
def messageWords (m : Msg) : WireFormats.Bully.Msg where
  msgID := UInt32.ofNat (code m.msgID)
  electionID := UInt32.ofNat m.electionID
  vectorClock := fun i => ⟨UInt32.ofNat (m.vectorClock i).nodeId, UInt32.ofNat (m.vectorClock i).time⟩

/-- The buffer in which a message is sent. -/
def sent (m : Msg) : List UInt8 := serializeMsg (messageWords m)

/-- The message that a buffer is read as; `old` is what the record held before. -/
def received (old : WireFormats.Bully.Msg) (buffer : List UInt8) : Msg :=
  messageView (deserializeMsg buffer old)

/-! ## The group -/

/-- A datagram: the port it comes from, the address it was sent to, and its bytes. -/
structure Datagram where
  src : ℕ
  dst : SockAddr
  buffer : List UInt8

structure State where
  nodes : ℕ → Node
  net : List Datagram

/-- A node handles a stimulus, and may die doing so, or it is started again. -/
inductive WireAct where
  | run (p : UInt16) (a : Act Stimulus)
  | restart (p : UInt16)

variable (g : Group) (old : WireFormats.Bully.Msg)

/-- The input a stimulus is for the node on port `p`. -/
def input (net : List Datagram) (p : ℕ) : Stimulus → Option Input
  | .deliver k addr =>
      match net[k]? with
      | some d => if d.dst.port = p then some (.message ⟨addr, d.src⟩ (received old d.buffer)) else none
      | none => none
  | .timeout => some .timeout
  | .thread => some .thread

/-- The datagram that an effect of the node on port `p` puts on the net. -/
def datagram (p : ℕ) : NodeEffect → Option Datagram
  | .send dst msg => some ⟨p, dst, sent msg⟩
  | _ => none

/-- The node on port `p` handles an input. -/
def nodeStep (s : State) (p : ℕ) (a : Act Input) : State where
  nodes := Function.update s.nodes p ((Node.process (g.config p)).step (s.nodes p) a)
  net := s.net ++ ((Node.process (g.config p)).performed (s.nodes p) a).filterMap (datagram p)

def next (s : State) : WireAct → State
  | .run p a =>
      match input old s.net p.toNat a.input with
      | some i => nodeStep g s p.toNat ⟨i, a.cut⟩
      | none => s
  | .restart p => { s with nodes := Function.update s.nodes p.toNat (Node.start (g.config p.toNat)) }

/-- The steps of the nodes of the group. -/
def enabled (s : State) : WireAct → Prop
  | .run p a =>
      p.toNat ∈ (g.groupMems p.toNat).map GroupMem.portno ∧
        ∃ i ∈ input old s.net p.toNat a.input, Node.accepts (g.config p.toNat) (s.nodes p.toNat) i
  | .restart p => p.toNat ∈ (g.groupMems p.toNat).map GroupMem.portno

/-- The runs over byte buffers. -/
def machine : Machine State WireAct where
  enabled := enabled g old
  next := next g old

def start : State where
  nodes := g.start.nodes
  net := []

/-! ## The refinement mapping -/

def Datagram.decode (d : Datagram) : Bully.Datagram := ⟨d.src, d.dst, received old d.buffer⟩

def Datagram.encode (d : Bully.Datagram) : Datagram := ⟨d.src, d.dst, sent d.msg⟩

/-- The group that a state over byte buffers stands for. -/
def decode (s : State) : GroupState where
  nodes := s.nodes
  net := s.net.map (Datagram.decode old)

/-- The state over byte buffers of a group. -/
def encode (s : GroupState) : State where
  nodes := s.nodes
  net := s.net.map Datagram.encode

/-- What a step over byte buffers stands for. -/
def WireAct.view : WireAct → GroupAct
  | .run p a => .run p.toNat a
  | .restart p => .restart p.toNat

variable {g old} {s : GroupState}

/-! ## Nothing is lost on the wire -/

theorem kind_code : ∀ k ∈ kinds, kind (code k) = k ∧ code k < words := by decide

theorem messageView_messageWords (hm : m.Within B) (hB : B < words) :
    messageView (messageWords m) = m := by
  obtain ⟨hkind, hcode⟩ := kind_code _ hm.msgID
  have hclock : (messageView (messageWords m)).vectorClock = m.vectorClock := by
    funext i
    have hi := hm.clock i
    simp only [messageView, messageWords, UInt32.toNat_ofNat_of_lt' hi.1,
      UInt32.toNat_ofNat_of_lt' (Nat.lt_of_le_of_lt hi.2 hB)]
  have hview : messageView (messageWords m) =
      ⟨m.msgID, m.electionID, (messageView (messageWords m)).vectorClock⟩ := by
    simp only [messageView, messageWords, UInt32.toNat_ofNat_of_lt' hcode, hkind,
      UInt32.toNat_ofNat_of_lt' hm.electionID]
  rw [hview, hclock]

/-- **A message within the bounds is received as it was sent.** -/
theorem received_sent (hm : m.Within B) (hB : B < words) : received old (sent m) = m := by
  rw [received, sent, WireFormats.Bully.serializeMsg_eq, WireFormats.Bully.deserializeMsg_eq,
    Codec.decode_encode]
  exact messageView_messageWords hm hB

theorem decode_encode (h : Group.Within B s) (hB : B < words) : decode old (encode s) = s := by
  have hnet : (s.net.map Datagram.encode).map (Datagram.decode old) = s.net := by
    rw [List.map_map]
    refine (List.map_congr_left fun d hd => ?_).trans (List.map_id _)
    exact congrArg (Bully.Datagram.mk d.src d.dst) (received_sent (h.net d hd) hB)
  simp only [decode, encode, hnet]

/-! ## One step -/

theorem input_decode (net : List Datagram) (p : ℕ) (st : Stimulus) :
    input old net p st = Group.input (net.map (Datagram.decode old)) p st := by
  cases st with
  | deliver j addr =>
      simp only [input, Group.input, List.getElem?_map]
      cases net[j]? with
      | none => rfl
      | some d => rfl
  | timeout => rfl
  | thread => rfl

theorem map_encode_datagram (p : ℕ) (es : List NodeEffect) :
    (es.filterMap (Group.datagram p)).map Datagram.encode = es.filterMap (datagram p) := by
  rw [List.map_filterMap]
  congr 1
  funext e
  cases e <;> rfl

theorem nodeStep_encode (s : GroupState) (p : ℕ) (a : Act Input) :
    nodeStep g (encode s) p a = encode (g.nodeStep s p a) := by
  simp only [nodeStep, encode, Group.nodeStep, List.map_append, map_encode_datagram]

/-- A step over byte buffers is the step it stands for, as long as the net can be read back. -/
theorem next_encode (hnet : decode old (encode s) = s) (a : WireAct) :
    next g old (encode s) a = encode (g.next s a.view) := by
  -- both sides take their input from the net that is read back
  have hread : (encode s).net.map (Datagram.decode old) = s.net := congrArg GroupState.net hnet
  cases a with
  | run p a =>
      simp only [next, WireAct.view, Group.next, input_decode, hread]
      cases Group.input s.net p.toNat a.input with
      | none => rfl
      | some i => exact nodeStep_encode s _ _
  | restart p => rfl

theorem enabled_encode (hnet : decode old (encode s) = s) (a : WireAct) :
    enabled g old (encode s) a ↔ g.enabled s a.view := by
  have hread : (encode s).net.map (Datagram.decode old) = s.net := congrArg GroupState.net hnet
  cases a with
  | run p a =>
      simp only [enabled, WireAct.view, Group.enabled, input_decode, hread]
      rfl
  | restart p => rfl

theorem actWithin_view (a : WireAct) : Group.ActWithin a.view := by
  cases a with
  | run p a => exact p.toNat_lt.trans (by decide)
  | restart p => exact p.toNat_lt.trans (by decide)

/-- The time that no clock has passed after `k` steps. -/
def latest (g : Group) (k : ℕ) : ℕ := 1 + (g.size + 2) * k

theorem latest_lt {k steps : ℕ} (hk : k ≤ steps) (h : latest g steps < words) : latest g k < words :=
  Nat.lt_of_le_of_lt (Nat.add_le_add_left (Nat.mul_le_mul_left _ hk) 1) h

/-- The byte buffers simulate the messages as long as no clock can leave its word. -/
def simulation (g : Group) (old : WireFormats.Bully.Msg) {steps : ℕ} (h : latest g steps < words) :
    Machine.Simulation g.machine (machine g old) steps where
  state := encode
  act := WireAct.view
  Inv k := Group.Within (latest g k)
  inv_next a _ hs := (hs.next (Nat.le_add_right 1 _) (actWithin_view a)).mono (by
    unfold latest
    rw [Nat.mul_succ]
    omega)
  next_eq a hk hs := next_encode (decode_encode hs (latest_lt hk.le h)) a
  enabled_iff a hk hs := enabled_encode (decode_encode hs (latest_lt hk.le h)) a

/-! ## The runs -/

/-- **Until a clock can leave its word the two groups are one.** The state over byte buffers
    encodes that of the group over messages and decodes to it, the same steps are possible, and
    every id and every time still fits into a word. -/
theorem byte_datagrams (g : Group) (old : WireFormats.Bully.Msg) (as : List WireAct)
    (hlen : 1 + (g.size + 2) * as.length < words) :
    let bytes := (machine g old).after (start g) as
    let messages := g.machine.after g.start (as.map WireAct.view)
    bytes = encode messages ∧ decode old bytes = messages ∧
      ((machine g old).Along (machine g old).enabled (start g) as ↔
        g.machine.Along g.machine.enabled g.start (as.map WireAct.view)) ∧
      Group.Within (words - 1) messages := by
  intro bytes messages
  have hlen' : 0 + as.length ≤ as.length := by omega
  have h0 : Group.Within (latest g 0) g.start := Group.within_start g
  obtain ⟨hbytes, hwithin⟩ := (simulation g old hlen).after h0 hlen'
  rw [Nat.zero_add] at hwithin
  have hend : latest g as.length < words := hlen
  refine ⟨hbytes, ?_, (simulation g old hlen).along_enabled h0 hlen', hwithin.mono (by omega)⟩
  exact (congrArg (decode old) hbytes).trans (decode_encode hwithin hend)

/-- Node 3 answers an election that node 2 calls, declares itself, and is started again. -/
def answered : List WireAct :=
  [.run 3 ⟨.timeout, none⟩, .run 2 ⟨.timeout, none⟩, .run 3 ⟨.deliver 0 1, none⟩,
    .run 2 ⟨.deliver 1 1, none⟩, .restart 3]

theorem byte_datagrams_three :
    let old : WireFormats.Bully.Msg := ⟨7, 7, fun _ => ⟨7, 7⟩⟩
    decode old ((machine Group.three old).after (start Group.three) answered) =
        Group.three.machine.after Group.three.start (answered.map WireAct.view) ∧
      (machine Group.three old).Along (machine Group.three old).enabled (start Group.three) answered := by
  intro old
  obtain ⟨-, hdecode, henabled, -⟩ := byte_datagrams Group.three old answered (by decide)
  have hpossible : Group.three.machine.Along Group.three.enabled Group.three.start
      (answered.map WireAct.view) := by decide
  exact ⟨hdecode, henabled.mpr hpossible⟩

end WireGroup

end DistributedSystem.Bully
