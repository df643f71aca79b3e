import DistributedSystem.Bully.Following
import Mathlib.Logic.Function.Basic
import Mathlib.Order.Monotone.Basic

/-!
# A group of nodes

The nodes of a group and the datagrams between them. A node has its group list in an order
of its own, and its own timeouts; it may die at any effect and be started again. The net is
the list of all datagrams ever sent: one that is lost is never delivered, and one may be
delivered late or twice. Of an address only the port tells who is meant: a host may have
several addresses.
-/

namespace DistributedSystem.Bully

open DistributedSystem.Library

/-- A group with distinct ports that all nodes know. -/
structure Group where
  /-- the group list of the node on a port -/
  groupMems : ℕ → List GroupMem
  timeoutValue : ℕ → ℕ
  AYATime : ℕ → ℕ
  gethostbyname : String → Option ℕ
  known : ∀ p q, (groupMems p).Perm (groupMems q)
  distinct : ∀ p, ((groupMems p).map GroupMem.portno).Nodup
  /-- the range of a UDP port -/
  range : ∀ p, ∀ m ∈ groupMems p, 0 < m.portno ∧ m.portno < 65536

/-- A datagram: the port it comes from, the address it was sent to, and the message. -/
structure Datagram where
  src : ℕ
  dst : SockAddr
  msg : Msg
  deriving DecidableEq

/-- The nodes, by port, and the net. -/
structure GroupState where
  nodes : ℕ → Node
  net : List Datagram := []

/-- What happens to a node of the group; `deliver` gives it a datagram of the net, from an
    address of the host that sent it. -/
inductive Stimulus where
  | deliver (k : ℕ) (addr : ℕ)
  | timeout
  | thread
  deriving DecidableEq

/-- A node handles a stimulus, and may die doing so, or it is started again. -/
inductive GroupAct where
  | run (p : ℕ) (a : Act Stimulus)
  | restart (p : ℕ)
  deriving DecidableEq

namespace Group

open Node

/-- The configuration of the node on a port. -/
def config (g : Group) (p : ℕ) : Config where
  port := p
  groupMems := g.groupMems p
  timeoutValue := g.timeoutValue p
  AYATime := g.AYATime p
  gethostbyname := g.gethostbyname

/-- The input a stimulus is for the node on port `p`. -/
def input (net : List Datagram) (p : ℕ) : Stimulus → Option Input
  | .deliver k addr =>
      match net[k]? with
      | some d => if d.dst.port = p then some (.message ⟨addr, d.src⟩ d.msg) else none
      | none => none
  | .timeout => some .timeout
  | .thread => some .thread

/-- The datagram that an effect of the node on port `p` puts on the net. -/
def datagram (p : ℕ) : NodeEffect → Option Datagram
  | .send dst msg => some ⟨p, dst, msg⟩
  | _ => none

/-- The node on port `p` handles an input. -/
def nodeStep (g : Group) (s : GroupState) (p : ℕ) (a : Act Input) : GroupState where
  nodes := Function.update s.nodes p ((process (g.config p)).step (s.nodes p) a)
  net := s.net ++ ((process (g.config p)).performed (s.nodes p) a).filterMap (datagram p)

def next (g : Group) (s : GroupState) : GroupAct → GroupState
  | .run p a =>
      match input s.net p a.input with
      | some i => g.nodeStep s p ⟨i, a.cut⟩
      | none => s
  | .restart p => { s with nodes := Function.update s.nodes p (Node.start (g.config p)) }

/-- The steps of the nodes of the group. -/
def enabled (g : Group) (s : GroupState) : GroupAct → Prop
  | .run p a =>
      p ∈ (g.groupMems p).map GroupMem.portno ∧
        ∃ i ∈ input s.net p a.input, accepts (g.config p) (s.nodes p) i
  | .restart p => p ∈ (g.groupMems p).map GroupMem.portno

instance (g : Group) (s : GroupState) : ∀ a, Decidable (enabled g s a)
  | .run _ _ => inferInstanceAs (Decidable (_ ∧ _))
  | .restart _ => inferInstanceAs (Decidable (_ ∈ _))

/-- The runs of a group. -/
def machine (g : Group) : Machine GroupState GroupAct where
  enabled := g.enabled
  next := g.next

def start (g : Group) : GroupState where
  nodes p := Node.start (g.config p)

/-! ## Messages follow the ports -/

/-- Calls for an election and AYA go up, their answers and COORD go down. -/
def InOrder (d : Datagram) : Prop :=
  match d.msg.msgID with
  | .elect | .aya => d.src < d.dst.port
  | .coord | .answer | .iaa => d.dst.port < d.src
  | .other _ => False

/-- A datagram in flight is in order, and a node asks somebody on a higher port whether he
    is alive. -/
structure Ordered (s : GroupState) : Prop where
  net : ∀ d ∈ s.net, InOrder d
  targets : ∀ p target, (s.nodes p).aya = some target → p < target.port

/-- The AYA thread of the node on port `p` sends to the one on port `q`. -/
def Follows (s : GroupState) (p q : ℕ) : Prop :=
  ∃ target, (s.nodes p).aya = some target ∧ target.port = q

variable {g : Group} {s : GroupState} {p : ℕ} {i : Input} {cut : Option ℕ} {d : Datagram}

theorem mem_filterMap_datagram {es : List NodeEffect} :
    d ∈ es.filterMap (datagram p) ↔ d.src = p ∧ .send d.dst d.msg ∈ es := by
  simp only [List.mem_filterMap]
  constructor
  · rintro ⟨e, he, hd⟩
    cases e with
    | send dst msg =>
        cases hd
        exact ⟨rfl, he⟩
    | _ => exact absurd hd (by simp [datagram])
  · rintro ⟨rfl, he⟩
    exact ⟨_, he, rfl⟩

/-- The address of a member has its port. -/
theorem port_of_memberAddr {m : GroupMem} {dst : SockAddr} (hm : m ∈ g.groupMems p)
    (hdst : memberAddr (g.config p) m = some dst) : dst.port = m.portno := by
  obtain ⟨addr, -, rfl⟩ := Option.map_eq_some_iff.mp hdst
  exact Nat.mod_eq_of_lt (g.range p m hm).2

/-- What the message that a node handles says about the two ports. -/
theorem inOrder_of_input {st : Stimulus} {src : SockAddr} {m : Msg} (h : Ordered s)
    (hin : input s.net p st = some (.message src m)) : InOrder ⟨src.port, ⟨0, p⟩, m⟩ := by
  cases st with
  | deliver k addr =>
      unfold input at hin
      cases hk : s.net[k]? with
      | none => simp [hk] at hin
      | some d =>
          simp only [hk, Option.ite_none_right_eq_some, Option.some.injEq, Input.message.injEq] at hin
          obtain ⟨rfl, rfl, rfl⟩ := hin
          exact h.net d (List.mem_of_getElem? hk)
  | timeout => exact absurd hin (by simp [input])
  | thread => exact absurd hin (by simp [input])

/-- **Send sites**: what a node sends is in order. -/
theorem inOrder_of_sends {st : Stimulus} (h : Ordered s) (hin : input s.net p st = some i)
    {dst : SockAddr} {m : Msg} (hsends : Sends (g.config p) (s.nodes p) i dst m.msgID) :
    InOrder ⟨p, dst, m⟩ := by
  unfold InOrder
  cases hk : m.msgID with
  | elect =>
      rw [hk] at hsends
      cases hsends with
      | elect hm hdst =>
          obtain ⟨hm, hport⟩ := mem_higher.mp hm
          show p < dst.port
          rw [port_of_memberAddr hm hdst]
          exact hport
  | coord =>
      rw [hk] at hsends
      show dst.port < p
      cases hsends with
      | coordOnTimeout _ _ hm hdst =>
          obtain ⟨hm, hport⟩ := mem_lower.mp hm
          rw [port_of_memberAddr hm hdst]
          exact hport
      | coordOnElect _ _ _ hm hdst =>
          obtain ⟨hm, hport⟩ := mem_lower.mp hm
          rw [port_of_memberAddr hm hdst]
          exact hport
  | answer =>
      rw [hk] at hsends
      cases hsends with
      | @answer msg hi hmsg =>
          -- the ELECT came from a lower port
          have helect := inOrder_of_input h (hi ▸ hin)
          simp only [InOrder, hmsg] at helect
          exact helect
  | aya =>
      rw [hk] at hsends
      cases hsends with
      | aya _ htarget => exact h.targets p dst htarget
  | iaa =>
      rw [hk] at hsends
      cases hsends with
      | @iaa msg hi hmsg =>
          have haya := inOrder_of_input h (hi ▸ hin)
          simp only [InOrder, hmsg] at haya
          exact haya
  | other id =>
      rw [hk] at hsends
      cases hsends

/-- A target comes from a COORD, which came from a higher port. -/
theorem target_of_step {st : Stimulus} (h : Ordered s) (hin : input s.net p st = some i)
    {target : SockAddr}
    (htarget : ((process (g.config p)).step (s.nodes p) ⟨i, cut⟩).aya = some target) :
    p < target.port := by
  cases cut with
  | none =>
      rcases target_of_handle htarget with hold | ⟨m, hi, hk⟩
      · exact h.targets p target hold
      · have hin' : input s.net p st = some (.message target m) := hin.trans (congrArg some hi)
        have hcoord := inOrder_of_input h hin'
        simp only [InOrder, hk] at hcoord
        exact hcoord
  | some k =>
      -- the thread dies with the process
      simp only [Process.step, Process.performed, Process.exec_append] at htarget
      exact absurd htarget (by simp [process, apply])

theorem ordered_nodeStep {st : Stimulus} (h : Ordered s) (hin : input s.net p st = some i) :
    Ordered (g.nodeStep s p ⟨i, cut⟩) := by
  refine ⟨fun d hd => ?_, fun p' target htarget => ?_⟩
  · rcases List.mem_append.mp hd with hd | hd
    · exact h.net d hd
    · obtain ⟨rfl, hsend⟩ := mem_filterMap_datagram.mp hd
      have hhandle := (Process.mem_performed hsend).resolve_right (by simp [process])
      exact inOrder_of_sends h hin (sends_handle hhandle)
  · by_cases hp : p' = p
    · subst hp
      simp only [nodeStep, Function.update_self] at htarget
      exact target_of_step h hin htarget
    · simp only [nodeStep, Function.update_of_ne hp] at htarget
      exact h.targets p' target htarget

/-- **Step lemma** -/
theorem ordered_next (h : Ordered s) (a : GroupAct) : Ordered (g.next s a) := by
  cases a with
  | run p a =>
      cases hin : input s.net p a.input with
      | none =>
          simp only [next, hin]
          exact h
      | some i =>
          simp only [next, hin]
          exact ordered_nodeStep h hin
  | restart p =>
      refine ⟨h.net, fun p' target htarget => ?_⟩
      by_cases hp : p' = p
      · subst hp
        simp [next, Node.start] at htarget
      · simp only [next, Function.update_of_ne hp] at htarget
        exact h.targets p' target htarget

theorem ordered_start (g : Group) : Ordered g.start where
  net _ hd := absurd hd (by simp [start])
  targets _ _ htarget := absurd htarget (by simp [start, Node.start])

/-- A relation that goes up has no cycle. -/
theorem Ordered.follows_acyclic (h : Ordered s) (p : ℕ) : ¬ Relation.TransGen (Follows s) p p := by
  have hup : ∀ p q, Follows s p q → p < q := by
    rintro p q ⟨target, htarget, rfl⟩
    exact h.targets p target htarget
  intro hcycle
  have hlt : Relation.TransGen (· < ·) p p := Relation.TransGen.mono hup p p hcycle
  rw [Relation.transGen_eq_self] at hlt
  exact absurd hlt (lt_irrefl p)

/-- **Messages follow the port order**, in every state that a run of the group reaches. -/
theorem messages_follow_ports (g : Group) (as : List GroupAct)
    (hrun : g.machine.Along g.enabled g.start as) :
    (∀ d ∈ (g.machine.after g.start as).net, InOrder d) ∧
      (∀ p target, ((g.machine.after g.start as).nodes p).aya = some target → p < target.port) ∧
      ∀ p, ¬ Relation.TransGen (Follows (g.machine.after g.start as)) p p := by
  have hordered : Ordered (g.machine.after g.start as) :=
    hrun.invariant (ordered_start g) fun s a h _ => ordered_next h a
  exact ⟨hordered.net, hordered.targets, hordered.follows_acyclic⟩

/-- A group of three on one host. -/
def three : Group where
  groupMems _ := (ofThree 0).groupMems
  timeoutValue _ := 5
  AYATime _ := 10
  gethostbyname _ := some 1
  known _ _ := List.Perm.refl _
  distinct _ := by decide
  range _ := by decide

/-- Node 2 calls an election that node 3 wins; node 1 follows it, and node 3 dies before it
    has answered the AYA. -/
def electionOfThree : List GroupAct :=
  [.run 3 ⟨.timeout, none⟩, .run 2 ⟨.timeout, none⟩, .run 3 ⟨.deliver 0 1, none⟩,
    .run 1 ⟨.deliver 2 1, none⟩, .run 2 ⟨.deliver 3 1, none⟩, .run 1 ⟨.thread, none⟩,
    .run 3 ⟨.deliver 4 1, some 5⟩, .restart 3]

theorem messages_follow_ports_three :
    (∀ d ∈ (three.machine.after three.start electionOfThree).net, InOrder d) ∧
      (∀ p target, ((three.machine.after three.start electionOfThree).nodes p).aya = some target →
        p < target.port) ∧
      ∀ p, ¬ Relation.TransGen (Follows (three.machine.after three.start electionOfThree)) p p :=
  messages_follow_ports three electionOfThree (by decide +kernel)

end Group

end DistributedSystem.Bully
