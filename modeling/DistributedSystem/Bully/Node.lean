import DistributedSystem.Library.Process
import DistributedSystem.Library.Search
import Mathlib.Algebra.Group.Nat.Defs
import Mathlib.Data.Fintype.Basic
import Mathlib.Data.Fin.Basic

/-!
# A node of the UDP bully program

`node.c`: the two phases of `sendUDPMsg` (the first `recvfrom` and the receive loop),
`handleMsg`, and one iteration of the AYA thread `ThreadMain`, as effect lists in the order
of the source. A datagram that `sendMsg` drops at random is one that the network loses.

A handler is one step: the AYA thread runs between handlers, and a cancelled thread sends
nothing more. The state of an election is the pair `lastSent`, `lastReceived`.
-/

namespace DistributedSystem.Bully

open DistributedSystem.Library

/-- `MAX_NODES` -/
abbrev maxNodes : ℕ := 9

/-- `enum msgKind`; `other` is any other number. -/
inductive MsgType where
  | elect | answer | coord | aya | iaa
  | other (id : ℕ)
  deriving DecidableEq, Repr

/-- `struct clock` -/
structure Clock where
  nodeId : ℕ
  time : ℕ
  deriving DecidableEq

abbrev VClock := Fin maxNodes → Clock

/-- `struct msg` -/
structure Msg where
  msgID : MsgType
  electionID : ℕ
  vectorClock : VClock
  deriving DecidableEq

/-- `struct sockaddr_in` -/
structure SockAddr where
  addr : ℕ
  port : ℕ
  deriving DecidableEq, Repr

/-- `struct groupMem` -/
structure GroupMem where
  hostname : String
  portno : ℕ
  deriving DecidableEq

/-- A line of the ShiViz log: the start, or a message sent or received. -/
inductive LogEvent where
  | start
  | message (msgID : MsgType) (electionID : ℕ) (isSend : Bool) (toFromNodeId : ℕ)
  deriving DecidableEq

/-- What does not change while a node runs: its command line, the group list, and the name
    resolution. -/
structure Config where
  port : ℕ
  groupMems : List GroupMem
  timeoutValue : ℕ
  AYATime : ℕ
  gethostbyname : String → Option ℕ

/-- Where the main thread is: in the first `recvfrom`, in that of the loop, or gone. -/
inductive Control where
  | starting | loop | exited
  deriving DecidableEq

/-- The global variables of `node.c` and its log file. The value 0 of `lastSent` and
    `lastReceived` is `none`. -/
structure Node where
  lastSent : Option MsgType := none
  lastReceived : Option MsgType := none
  counter : ℕ := 1
  myVectorClock : VClock
  /-- `threadPtr`, with the `from_addr` of the running AYA thread -/
  aya : Option SockAddr := none
  log : List (LogEvent × VClock)
  control : Control := .starting
  deriving DecidableEq

/-- The atomic effects of a node. -/
inductive NodeEffect where
  | lastSent (k : Option MsgType)
  | lastReceived (k : Option MsgType)
  | counter (n : ℕ)
  /-- `myVectorClock` -/
  | clock (vc : VClock)
  /-- `sendMsg` -/
  | send (dst : SockAddr) (m : Msg)
  /-- `writeEventToLog` -/
  | log (e : LogEvent)
  /-- `pthread_create` -/
  | startThread (target : SockAddr)
  /-- `pthread_cancel` -/
  | cancelThread
  | control (c : Control)
  deriving DecidableEq

namespace Node

/-- The state after one effect. The AYA thread ends with the process. -/
def apply (n : Node) : NodeEffect → Node
  | .lastSent k => { n with lastSent := k }
  | .lastReceived k => { n with lastReceived := k }
  | .counter c => { n with counter := c }
  | .clock vc => { n with myVectorClock := vc }
  | .send _ _ => n
  | .log e => { n with log := n.log ++ [(e, n.myVectorClock)] }
  | .startThread target => { n with aya := some target }
  | .cancelThread => { n with aya := none }
  | .control .exited => { n with control := .exited, aya := none }
  | .control c => { n with control := c }

/-! ## Clocks -/

/-- `mergeVectorClock`: slot by slot. -/
def mergeVectorClock (mine : VClock) (m : Msg) : VClock := fun i =>
  if (m.vectorClock i).time > (mine i).time then m.vectorClock i else mine i

/-- `updateMyVectorClock`; a time is an `unsigned int`. -/
def updateMyVectorClock (port : ℕ) (vc : VClock) : VClock := fun i =>
  if (vc i).nodeId = port then { vc i with time := ((vc i).time + 1) % 2 ^ 32 } else vc i

/-! ## Sending to members of the group -/

/-- The members with a higher port, and those with a lower one, in list order. -/
def higher (c : Config) : List GroupMem := c.groupMems.filter fun m => c.port < m.portno

def lower (c : Config) : List GroupMem := c.groupMems.filter fun m => m.portno < c.port

/-- `counter++` -/
def nextElection (counter : ℕ) : ℕ := (counter + 1) % 2 ^ 32

/-- `updateMyVectorClock`, `constructMsg`, `sendMsg` and `writeEventToLog`; `drawn` is the
    counter if `electionID` is drawn from it. -/
def sendMsg (c : Config) (vc : VClock) (dst : SockAddr) (msgID : MsgType) (electionID : ℕ)
    (drawn : Option ℕ := none) : List NodeEffect :=
  let vc := updateMyVectorClock c.port vc
  .clock vc :: ((drawn.map fun counter => .counter (nextElection counter)).toList ++
    [.send dst { msgID, electionID, vectorClock := vc },
      .log (.message msgID electionID true dst.port)])

/-- The loops that send a message to every member of a list. Without `electionID` every
    message takes the next value of `counter`. A name that does not resolve ends the
    program. -/
def sendLoop (c : Config) (msgID : MsgType) (electionID : Option ℕ) :
    VClock → ℕ → List GroupMem → List NodeEffect
  | _, _, [] => []
  | vc, counter, m :: ms =>
      match c.gethostbyname m.hostname with
      | none => [.control .exited]
      | some addr =>
          sendMsg c vc ⟨addr, m.portno % 65536⟩ msgID (electionID.getD counter)
              (if electionID = none then some counter else none) ++
            [.lastSent (some msgID)] ++
            sendLoop c msgID electionID (updateMyVectorClock c.port vc)
              (if electionID = none then nextElection counter else counter) ms

/-- The loop that calls the first election; it resets `lastSent` at every member. -/
def startupLoop (c : Config) : VClock → ℕ → List GroupMem → List NodeEffect
  | _, _, [] => []
  | vc, counter, m :: ms =>
      [.lastReceived (some .elect), .lastSent none] ++
        if c.port < m.portno then
          match c.gethostbyname m.hostname with
          | none => [.control .exited]
          | some addr =>
              sendMsg c vc ⟨addr, m.portno % 65536⟩ .elect counter (some counter) ++
                [.lastSent (some .elect)] ++
                startupLoop c (updateMyVectorClock c.port vc) (nextElection counter) ms
        else startupLoop c vc counter ms

/-! ## Messages -/

/-- `handleMsg`, on the clock `vc`. -/
def handleMsg (c : Config) (n : Node) (vc : VClock) (src : SockAddr) (m : Msg) : List NodeEffect :=
  match m.msgID with
  | .elect =>
      let vc' := updateMyVectorClock c.port vc
      sendMsg c vc src .answer m.electionID ++ [.lastReceived (some .elect)] ++
        if n.lastSent = some .elect then []
        else
          [.lastSent none] ++ sendLoop c .elect (some m.electionID) vc' n.counter (higher c) ++
            -- lastSent is still 0 when there is no higher member
            if higher c = [] then sendLoop c .coord (some 0) vc' n.counter (lower c) else []
  | .answer =>
      if n.lastSent = some .elect then [.lastReceived (some .answer), .lastSent none] else []
  | .coord => .lastReceived (some .coord) :: if n.aya = none then [.startThread src] else []
  | .aya => [.lastReceived (some .aya), .lastSent (some .iaa)] ++ sendMsg c vc src .iaa m.electionID
  | .iaa | .other _ => []

/-- The clock on which a received message is logged and handled. -/
def receivedClock (c : Config) (n : Node) (m : Msg) : VClock :=
  updateMyVectorClock c.port (mergeVectorClock n.myVectorClock m)

/-- A datagram arrives: the end of the loop body of `sendUDPMsg`. -/
def receive (c : Config) (n : Node) (src : SockAddr) (m : Msg) : List NodeEffect :=
  [.clock (mergeVectorClock n.myVectorClock m), .clock (receivedClock c n m),
    .log (.message m.msgID m.electionID false src.port)] ++
    handleMsg c n (receivedClock c n m) src m

/-! ## Timeouts -/

/-- The receive timeout in the loop of `sendUDPMsg`. -/
def receiveTimeout (c : Config) (n : Node) : List NodeEffect :=
  match n.lastSent with
  | some .elect => sendLoop c .coord (some 0) n.myVectorClock n.counter (lower c)
  | some .aya =>
      match n.aya with
      | some _ => .cancelThread :: sendLoop c .elect none n.myVectorClock n.counter (higher c)
      -- threadPtr is NULL
      | none => [.control .exited]
  | none =>
      match n.lastReceived with
      | some .answer => sendLoop c .elect none n.myVectorClock n.counter (higher c)
      | some .elect => sendLoop c .coord (some 0) n.myVectorClock n.counter (lower c)
      | _ => []
  | _ => []

/-- The length of the interval the AYA thread sleeps, from a random number; there is none
    when `2 * AYATime` is 0 as an `unsigned long`. -/
def AYARate (c : Config) (rn : ℕ) : Option ℕ :=
  if 2 * c.AYATime % 2 ^ 64 = 0 then none else some (rn % (2 * c.AYATime % 2 ^ 64))

/-- One iteration of `ThreadMain`. -/
def threadIteration (c : Config) (n : Node) : List NodeEffect :=
  match n.aya with
  | some target =>
      -- a division by zero ends the process
      if AYARate c 0 = none then [.control .exited]
      else .lastSent (some .aya) :: sendMsg c n.myVectorClock target .aya (c.port % 2 ^ 32)
  | none => []

/-! ## The process -/

/-- What can happen to a node: a datagram, the end of the receive timeout, and an
    iteration of its AYA thread. -/
inductive Input where
  | message (src : SockAddr) (m : Msg)
  | timeout
  | thread
  deriving DecidableEq

/-- The effects of an input. -/
def handle (c : Config) (n : Node) : Input → List NodeEffect
  | .message src m =>
      match n.control with
      | .starting =>
          [.control .loop, .lastReceived none, .lastSent none] ++
            receive c { n with lastReceived := none, lastSent := none } src m
      | .loop => receive c n src m
      | .exited => []
  | .timeout =>
      match n.control with
      | .starting => .control .loop :: startupLoop c n.myVectorClock n.counter c.groupMems
      | .loop => receiveTimeout c n
      | .exited => []
  | .thread => threadIteration c n

/-- The inputs that can arrive: a receive timeout of 0 never expires. -/
def accepts (c : Config) (n : Node) : Input → Prop
  | .message _ _ => n.control ≠ .exited
  | .timeout => n.control ≠ .exited ∧ c.timeoutValue ≠ 0
  | .thread => n.control ≠ .exited ∧ n.aya ≠ none

instance (c : Config) (n : Node) : ∀ i, Decidable (accepts c n i)
  | .message _ _ => inferInstanceAs (Decidable (_ ≠ _))
  | .timeout | .thread => inferInstanceAs (Decidable (_ ∧ _))

/-- The process of a node. -/
def process (c : Config) : Process Node NodeEffect Input where
  apply := apply
  handler := handle c
  crash _ := .control .exited
  accepts := accepts c

/-- `foundInGroup`, for the slot of the own clock. -/
def foundInGroup (c : Config) : ℕ := c.groupMems.findIdx fun m => c.port = m.portno

/-- The clock at the start: the own entry, at time 1. -/
def startClock (c : Config) : VClock := fun i =>
  if (i : ℕ) = foundInGroup c then ⟨c.port, 1⟩ else ⟨0, 0⟩

/-- A node when `sendUDPMsg` begins. -/
def start (c : Config) : Node where
  myVectorClock := startClock c
  log := [(.start, startClock c)]

/-- A node of a group of three on one host. -/
def ofThree (port : ℕ) : Config where
  port
  groupMems := [⟨"localhost", 1⟩, ⟨"localhost", 2⟩, ⟨"localhost", 3⟩]
  timeoutValue := 5
  AYATime := 10
  gethostbyname _ := some 1

/-- A message from the node on a port. -/
def fromPort (port : ℕ) (k : MsgType) : Input :=
  .message ⟨1, port⟩ { msgID := k, electionID := 0, vectorClock := fun _ => ⟨0, 0⟩ }

end Node

end DistributedSystem.Bully
