import DistributedSystem.Library.Machine
import Mathlib.Algebra.Group.Nat.Defs
import Mathlib.Data.Int.Notation
import Mathlib.Data.Nat.Notation
import Mathlib.Tactic.Common

/-!
# A rank of the MPI bully program

`bully.c`: `handleNode`, one iteration of its loop at a time. The locals are a record, and
the functions on it follow the statements of the source in their order. A message of
`MPI_Isend` that is cancelled is one that is never received. What `MPI_Test` leaves in
`status`, and what `random` returns, comes with the input.

The integers of the program are unbounded here, except in `2 * AYATime`.
-/

namespace DistributedSystem.MpiBully

/-- The message tags. -/
inductive Tag where
  | election | aya | iaa | coord | answer | clock
  deriving DecidableEq, Repr

/-- `MPI_Status` -/
structure Status where
  MPI_SOURCE : ℕ
  MPI_TAG : Tag
  deriving DecidableEq

/-- A message between ranks; its first word is the tag, its second one the DLC time. -/
structure Packet where
  src : ℕ
  dst : ℕ
  tag : Tag
  dlcTime : ℕ
  deriving DecidableEq, Repr

/-- The number of processes and the command line. -/
structure Config where
  size : ℕ
  timeoutValue : ℤ
  AYATime : ℤ
  sendFailure : ℤ
  deriving DecidableEq

/-- The locals of `handleNode`. The value 0 of `lastSent` and `lastReceived` is `none`. The
    ghost `outbox` is what the current iteration has sent, and `halted` is a division by zero. -/
structure Node where
  tick : ℕ := 0
  AYATick : ℕ := 0
  dlcTime : ℕ := 0
  lastSent : Option Tag := none
  lastReceived : Option Tag := none
  AYARate : ℕ := 0
  coordNode : ℕ := 0
  /-- inside the loop of a dead coordinator -/
  coordDead : Bool := false
  status : Status := ⟨0, .clock⟩
  outbox : List Packet := []
  halted : Bool := false
  deriving DecidableEq

/-- What the loop receives: a clock tick of rank 0, or a message. `rn` is the last number
    that `random` returns in the iteration, and `tested` what `MPI_Test` leaves in `status`. -/
inductive Input where
  | clock (rn : ℕ) (tested : Status)
  | message (m : Packet) (rn : ℕ) (tested : Status)
  /-- the time of a dead coordinator is up -/
  | revive (tested : Status)
  deriving DecidableEq

def Input.tested : Input → Status
  | .clock _ tested | .message _ _ tested | .revive tested => tested

/-- `2 * AYATime`, an `int` -/
def twiceAYATime (c : Config) : ℤ := (2 * c.AYATime).bmod (2 ^ 32)

/-- The ranks above, in the order of the loops `for (i = rank + 1; i < size; i++)`. -/
def higher (c : Config) (rank : ℕ) : List ℕ := List.range' (rank + 1) (c.size - (rank + 1))

/-- The ranks below, in the order of the loops `for (i = 1; i < rank; i++)`. -/
def lower (rank : ℕ) : List ℕ := List.range' 1 (rank - 1)

namespace Node

/-- `dlcTime++` -/
def count (n : Node) : Node := { n with dlcTime := n.dlcTime + 1 }

/-- `constructMsg`, `MPI_Isend` and `MPI_Test` -/
def isend (rank : ℕ) (tested : Status) (tag : Tag) (dst : ℕ) (n : Node) : Node :=
  { n with outbox := n.outbox ++ [⟨rank, dst, tag, n.dlcTime⟩], status := tested }

/-- The loops that send a message to a list of ranks. -/
def sendLoop (rank : ℕ) (tested : Status) (tag : Tag) : List ℕ → Node → Node
  | [], n => n
  | i :: is, n =>
      sendLoop rank tested tag is { isend rank tested tag i n.count with lastSent := some tag }

/-! ## The clock -/

/-- A tick of the clock, up to the timeout check. -/
def onClock (c : Config) (rank rn : ℕ) (tested : Status) (n : Node) : Node :=
  let n := { n with tick := n.tick + 1, AYATick := n.AYATick + 1 }
  if (n.AYARate = 0 ∨ n.AYATick % n.AYARate = 0) ∧ n.coordNode ≠ 0 then
    if twiceAYATime c = 0 then { n with halted := true }
    else
      -- the remainder of a number that is not negative
      let n := { n with AYARate := rn % (twiceAYATime c).natAbs, lastSent := some .aya }
      isend rank tested .aya n.coordNode n.count
  else n

/-! ## Messages -/

def onElection (c : Config) (rank : ℕ) (tested : Status) (n : Node) : Node :=
  let n := { isend rank tested .answer n.status.MPI_SOURCE n.count with
    lastReceived := some .election }
  -- an election of its own is running
  if n.lastSent = some .election then n
  else
    let n := sendLoop rank tested .election (higher c rank) { n with lastSent := none }
    -- nobody above was called
    if n.lastSent = none then sendLoop rank tested .coord (lower rank) n else n

def onAnswer (n : Node) : Node :=
  -- a late answer
  if n.lastReceived = some .coord then { n with lastSent := none }
  else if n.lastSent = some .election then
    { n with lastReceived := some .answer, lastSent := none }
  else n

def onCoord (n : Node) : Node :=
  { n with lastReceived := some .coord, coordNode := n.status.MPI_SOURCE }

/-- The coordinator answers, or dies. -/
def onAYA (c : Config) (rank rn : ℕ) (tested : Status) (n : Node) : Node :=
  let n := { n with lastReceived := some .aya, lastSent := some .iaa }.count
  if c.sendFailure ≤ ((rn % 100 : ℕ) : ℤ) then isend rank tested .iaa n.status.MPI_SOURCE n
  else { n with coordDead := true }

/-- The `switch` on the tag. -/
def onMessage (c : Config) (rank rn : ℕ) (tested : Status) (n : Node) : Node :=
  match n.status.MPI_TAG with
  | .election => onElection c rank tested n
  | .answer => onAnswer n
  | .coord => onCoord n
  | .aya => onAYA c rank rn tested n
  | .iaa => { n with lastReceived := some .iaa }
  | .clock => n

/-! ## The timeout -/

/-- The timeout is due. -/
def TimedOut (c : Config) (n : Node) : Prop := n.tick % c.timeoutValue.natAbs = 0 ∧ n.tick ≠ 0

instance (c : Config) (n : Node) : Decidable (TimedOut c n) := by unfold TimedOut; infer_instance

/-- The loop over the ranks below sends COORD. -/
def declare (rank : ℕ) (tested : Status) (n : Node) : Node :=
  { sendLoop rank tested .coord (lower rank) n with tick := 0, coordNode := 0 }

/-- The loop over the ranks above sends ELECTION. -/
def callElection (c : Config) (rank : ℕ) (tested : Status) (n : Node) : Node :=
  { sendLoop rank tested .election (higher c rank) n with tick := 0, coordNode := 0 }

/-- The first condition of the case 0; the product has the precedence of the source. -/
def Abandons (c : Config) (n : Node) : Prop :=
  n.lastReceived = none ∨
    n.lastReceived = some .answer ∧ ((n.tick % (c.size - 1) : ℕ) : ℤ) * c.timeoutValue = 0

instance (c : Config) (n : Node) : Decidable (Abandons c n) := by unfold Abandons; infer_instance

/-- The case 0. -/
def timeoutIdle (c : Config) (rank : ℕ) (tested : Status) (n : Node) : Node :=
  let n :=
    if n.Abandons c then
      -- the loop also sets lastReceived to 0
      { callElection c rank tested n with
        lastReceived := if higher c rank = [] then n.lastReceived else none }
    else n
  if n.lastReceived = some .election then declare rank tested n else n

/-- The `switch` on `lastSent`. -/
def onTimeout (c : Config) (rank : ℕ) (tested : Status) (n : Node) : Node :=
  match n.lastSent with
  | none => timeoutIdle c rank tested n
  | some .election => declare rank tested n
  | some .aya => callElection c rank tested n
  | _ => n

/-- The end of an iteration. -/
def checkTimeout (c : Config) (rank : ℕ) (tested : Status) (n : Node) : Node :=
  if n.halted ∨ n.coordDead then n
  -- a division by zero
  else if c.timeoutValue = 0 then { n with halted := true }
  else if n.TimedOut c then onTimeout c rank tested n
  else n

/-! ## The loop -/

/-- `MPI_Irecv` and `MPI_Wait` -/
def await (status : Status) (n : Node) : Node := { n with outbox := [], status }

/-- A message or a tick, up to the timeout check. A dead coordinator receives and forgets. -/
def receive (c : Config) (rank : ℕ) (n : Node) : Input → Node
  | .clock rn tested =>
      let n := n.await ⟨0, .clock⟩
      if n.coordDead then n else onClock c rank rn tested n
  | .message m rn tested =>
      let n := n.await ⟨m.src, m.tag⟩
      if n.coordDead then n
      else
        -- every message puts the timeout off and advances the DLC time
        onMessage c rank rn tested
          { n with tick := 0, dlcTime := if m.dlcTime > n.dlcTime then m.dlcTime else n.dlcTime }
  | .revive _ =>
      { n with outbox := [], coordDead := false, lastSent := none, lastReceived := none }

/-- An iteration of the loop, or a part of it that ends where a dead coordinator waits. -/
def handle (c : Config) (rank : ℕ) (n : Node) (i : Input) : Node :=
  checkTimeout c rank i.tested (receive c rank n i)

/-- `random` returns 31 bits. -/
def randomBound : ℕ := 2 ^ 31

/-- The inputs that can arrive. -/
def accepts (n : Node) : Input → Prop
  | .clock rn _ => n.halted = false ∧ rn < randomBound
  | .message _ rn _ => n.halted = false ∧ rn < randomBound
  | .revive _ => n.halted = false ∧ n.coordDead = true

instance (n : Node) : ∀ i, Decidable (accepts n i)
  | .clock _ _ | .message _ _ _ | .revive _ => inferInstanceAs (Decidable (_ ∧ _))

theorem not_halted_of_accepts {n : Node} {i : Input} (h : n.accepts i) : n.halted = false := by
  cases i with
  | clock rn tested => exact h.1
  | message m rn tested => exact h.1
  | revive tested => exact h.1

/-- A rank before its first receive: rank 1 has called an election. -/
def start (c : Config) (rank : ℕ) : Node :=
  if rank = 1 then sendLoop rank ⟨0, .clock⟩ .election (higher c rank) {} else {}

/-! ## The loops that send -/

/-- The messages of a loop. -/
def packets (rank : ℕ) (tag : Tag) : ℕ → List ℕ → List Packet
  | _, [] => []
  | dlcTime, i :: is => ⟨rank, i, tag, dlcTime + 1⟩ :: packets rank tag (dlcTime + 1) is

variable {c : Config} {rank rn : ℕ} {tested : Status} {tag : Tag} {is : List ℕ} {n : Node} {m : Packet}

theorem sendLoop_eq (rank : ℕ) (tested : Status) (tag : Tag) (is : List ℕ) (n : Node) :
    ∃ st, sendLoop rank tested tag is n =
    { n with
      dlcTime := n.dlcTime + is.length
      lastSent := if is = [] then n.lastSent else some tag
      outbox := n.outbox ++ packets rank tag n.dlcTime is
      status := st } := by
  induction is generalizing n with
  | nil => exact ⟨n.status, by simp [sendLoop, packets]⟩
  | cons i is ih =>
      obtain ⟨st, hst⟩ := ih { isend rank tested tag i n.count with lastSent := some tag }
      refine ⟨st, ?_⟩
      rw [sendLoop, hst]
      simp only [isend, count, packets, List.append_assoc, List.singleton_append, List.length_cons,
        reduceCtorEq, if_false, ite_self]
      congr 1
      omega

@[simp] theorem sendLoop_tick : (sendLoop rank tested tag is n).tick = n.tick := by
  obtain ⟨st, h⟩ := sendLoop_eq rank tested tag is n
  rw [h]

@[simp] theorem sendLoop_AYATick : (sendLoop rank tested tag is n).AYATick = n.AYATick := by
  obtain ⟨st, h⟩ := sendLoop_eq rank tested tag is n
  rw [h]

@[simp] theorem sendLoop_dlcTime : (sendLoop rank tested tag is n).dlcTime =
    n.dlcTime + is.length := by
  obtain ⟨st, h⟩ := sendLoop_eq rank tested tag is n
  rw [h]

@[simp] theorem sendLoop_lastSent : (sendLoop rank tested tag is n).lastSent =
    if is = [] then n.lastSent else some tag := by
  obtain ⟨st, h⟩ := sendLoop_eq rank tested tag is n
  rw [h]

@[simp] theorem sendLoop_lastReceived : (sendLoop rank tested tag is n).lastReceived =
    n.lastReceived := by
  obtain ⟨st, h⟩ := sendLoop_eq rank tested tag is n
  rw [h]

@[simp] theorem sendLoop_AYARate : (sendLoop rank tested tag is n).AYARate = n.AYARate := by
  obtain ⟨st, h⟩ := sendLoop_eq rank tested tag is n
  rw [h]

@[simp] theorem sendLoop_coordNode : (sendLoop rank tested tag is n).coordNode = n.coordNode := by
  obtain ⟨st, h⟩ := sendLoop_eq rank tested tag is n
  rw [h]

@[simp] theorem sendLoop_coordDead : (sendLoop rank tested tag is n).coordDead = n.coordDead := by
  obtain ⟨st, h⟩ := sendLoop_eq rank tested tag is n
  rw [h]

@[simp] theorem sendLoop_outbox : (sendLoop rank tested tag is n).outbox =
    n.outbox ++ packets rank tag n.dlcTime is := by
  obtain ⟨st, h⟩ := sendLoop_eq rank tested tag is n
  rw [h]

@[simp] theorem sendLoop_halted : (sendLoop rank tested tag is n).halted = n.halted := by
  obtain ⟨st, h⟩ := sendLoop_eq rank tested tag is n
  rw [h]

@[simp] theorem await_outbox (status : Status) : (n.await status).outbox = [] := rfl

/-- A dead coordinator forgets what it receives. -/
theorem receive_clock_dead (h : n.coordDead = true) :
    receive c rank n (.clock rn tested) = n.await ⟨0, .clock⟩ := if_pos h

theorem receive_message_dead (h : n.coordDead = true) :
    receive c rank n (.message m rn tested) = n.await ⟨m.src, m.tag⟩ := if_pos h

theorem receive_clock (h : n.coordDead = false) : receive c rank n (.clock rn tested) =
    onClock c rank rn tested (n.await ⟨0, .clock⟩) := by
  simp only [receive, await, h, Bool.false_eq_true, if_false]

theorem receive_message (h : n.coordDead = false) : receive c rank n (.message m rn tested) =
    onMessage c rank rn tested { n.await ⟨m.src, m.tag⟩ with
      tick := 0, dlcTime := if m.dlcTime > n.dlcTime then m.dlcTime else n.dlcTime } := by
  simp only [receive, await, h, Bool.false_eq_true, if_false]

theorem declare_outbox : (declare rank tested n).outbox =
    n.outbox ++ packets rank .coord n.dlcTime (lower rank) := by
  simp [declare]

theorem callElection_outbox : (callElection c rank tested n).outbox =
    n.outbox ++ packets rank .election n.dlcTime (higher c rank) := by
  simp [callElection]

/-- The case 0 is one of the two loops, or nothing. -/
theorem timeoutIdle_cases (c : Config) (rank : ℕ) (tested : Status) (n : Node) :
    (timeoutIdle c rank tested n = { callElection c rank tested n with
        lastReceived := if higher c rank = [] then n.lastReceived else none } ∧ n.Abandons c) ∨
      (timeoutIdle c rank tested n = declare rank tested n ∧ n.lastReceived = some .election) ∨
      timeoutIdle c rank tested n = n := by
  unfold timeoutIdle
  by_cases habandons : n.Abandons c
  · refine Or.inl ⟨?_, habandons⟩
    simp only [if_pos habandons]
    refine if_neg ?_
    rcases habandons with hnone | ⟨hanswer, -⟩
    · simp [hnone]
    · simp [hanswer]
  · simp only [if_neg habandons]
    by_cases helection : n.lastReceived = some .election
    · exact Or.inr (Or.inl ⟨if_pos helection, helection⟩)
    · exact Or.inr (Or.inr (if_neg helection))

/-- What the end of an iteration can do: nothing, a division by zero, or a case of the
    `switch`. -/
theorem checkTimeout_cases (c : Config) (rank : ℕ) (tested : Status) (n : Node) :
    checkTimeout c rank tested n = n ∨
      (checkTimeout c rank tested n = { n with halted := true } ∧ c.timeoutValue = 0) ∨
      (checkTimeout c rank tested n = onTimeout c rank tested n ∧ n.halted = false ∧
        n.coordDead = false ∧ c.timeoutValue ≠ 0 ∧ n.TimedOut c) := by
  unfold checkTimeout
  by_cases hgone : n.halted ∨ n.coordDead
  · exact Or.inl (if_pos hgone)
  rw [if_neg hgone]
  by_cases hzero : c.timeoutValue = 0
  · exact Or.inr (Or.inl ⟨if_pos hzero, hzero⟩)
  rw [if_neg hzero]
  by_cases hdue : n.TimedOut c
  · simp only [not_or, Bool.not_eq_true] at hgone
    exact Or.inr (Or.inr ⟨if_pos hdue, hgone.1, hgone.2, hzero, hdue⟩)
  · exact Or.inl (if_neg hdue)

/-- The cases of the `switch` on `lastSent`. -/
theorem onTimeout_cases (c : Config) (rank : ℕ) (tested : Status) (n : Node) :
    (onTimeout c rank tested n = timeoutIdle c rank tested n ∧ n.lastSent = none) ∨
      (onTimeout c rank tested n = declare rank tested n ∧ n.lastSent = some .election) ∨
      (onTimeout c rank tested n = callElection c rank tested n ∧ n.lastSent = some .aya) ∨
      onTimeout c rank tested n = n := by
  unfold onTimeout
  cases hs : n.lastSent with
  | none => exact Or.inl ⟨rfl, rfl⟩
  | some tag =>
      cases tag with
      | election => exact Or.inr (Or.inl ⟨rfl, rfl⟩)
      | aya => exact Or.inr (Or.inr (Or.inl ⟨rfl, rfl⟩))
      | _ => exact Or.inr (Or.inr (Or.inr rfl))

theorem mem_packets {dlcTime : ℕ} (h : m ∈ packets rank tag dlcTime is) :
    m.src = rank ∧ m.tag = tag ∧ m.dst ∈ is := by
  induction is generalizing dlcTime with
  | nil => exact absurd h (by simp [packets])
  | cons i is ih =>
      rcases List.mem_cons.mp h with rfl | h
      · exact ⟨rfl, rfl, List.mem_cons_self⟩
      · obtain ⟨hsrc, htag, hdst⟩ := ih h
        exact ⟨hsrc, htag, List.mem_cons_of_mem _ hdst⟩

/-- The loop sends to every rank of its list. -/
theorem exists_mem_packets (rank : ℕ) (tag : Tag) (dlcTime : ℕ) {dst : ℕ} (h : dst ∈ is) :
    ∃ d, ⟨rank, dst, tag, d⟩ ∈ packets rank tag dlcTime is := by
  induction is generalizing dlcTime with
  | nil => exact absurd h (by simp)
  | cons i is ih =>
      rcases List.mem_cons.mp h with rfl | h
      · exact ⟨_, List.mem_cons_self⟩
      · obtain ⟨d, hd⟩ := ih (dlcTime + 1) h
        exact ⟨d, List.mem_cons_of_mem _ hd⟩

end Node

theorem mem_higher {c : Config} {rank i : ℕ} : i ∈ higher c rank ↔ rank < i ∧ i < c.size := by
  simp only [higher, List.mem_range'_1]
  omega

theorem mem_lower {rank i : ℕ} : i ∈ lower rank ↔ 0 < i ∧ i < rank := by
  simp only [lower, List.mem_range'_1]
  omega

end DistributedSystem.MpiBully
