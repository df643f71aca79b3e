import DistributedSystem.MpiBully.Memory

/-!
# Runs that reach a timeout

The pieces of a run in which a rank lets its timeout pass without an AYA: what single
iterations do, and how a run of the system is put together from them. `Waiting` is a rank
inside the gap that an AYA interval of `timeoutValue + 1` ticks leaves.
-/

namespace DistributedSystem.MpiBully

open DistributedSystem.Library

/-- `2 * AYATime` does not exceed what `random` returns. -/
theorem twiceAYATime_le (c : Config) : (twiceAYATime c).natAbs ≤ Node.randomBound := by
  have hlow : -(2 ^ 31 : ℤ) ≤ twiceAYATime c := Int.le_bmod (by decide)
  have hhigh : twiceAYATime c < 2 ^ 31 := Int.bmod_lt (by decide)
  unfold Node.randomBound
  omega

theorem higher_highest {c : Config} (h : 0 < c.size) : higher c (c.size - 1) = [] := by
  unfold higher
  rw [Nat.sub_add_cancel h, Nat.sub_self]
  rfl

namespace Node

variable {c : Config} {rank rn : ℕ} {n : Node} {m : Packet} {tested : Status}

/-- The rank takes part: no division by zero has ended it, and it does not play dead. -/
def Running (n : Node) : Prop := n.halted = false ∧ n.coordDead = false

/-! ## Iterations -/

theorem checkTimeout_of_not_timedOut (hne : c.timeoutValue ≠ 0) (h : ¬ n.TimedOut c) :
    checkTimeout c rank tested n = n := by
  simp only [checkTimeout, if_neg hne, if_neg h, ite_self]

theorem checkTimeout_of_timedOut (hne : c.timeoutValue ≠ 0) (hrun : n.Running) (h : n.TimedOut c) :
    checkTimeout c rank tested n = onTimeout c rank tested n := by
  unfold checkTimeout
  rw [if_neg (by simp [hrun.1, hrun.2]), if_neg hne, if_pos h]

/-- A message ends the wait for the timeout. -/
theorem handle_message (rank rn : ℕ) (m : Packet) (tested : Status) (hne : c.timeoutValue ≠ 0)
    (hrun : n.Running) :
    handle c rank n (.message m rn tested) = onMessage c rank rn tested { n.await ⟨m.src, m.tag⟩ with
      tick := 0, dlcTime := if m.dlcTime > n.dlcTime then m.dlcTime else n.dlcTime } := by
  unfold handle
  rw [receive_message hrun.2]
  exact checkTimeout_of_not_timedOut hne fun hdue => hdue.2 tick_onMessage

/-- No AYA is due at the next tick. -/
def Quiet (n : Node) : Prop :=
  n.coordNode ≠ 0 → n.AYARate ≠ 0 ∧ (n.AYATick + 1) % n.AYARate ≠ 0

/-- A tick at which nothing is due. -/
def ticked (n : Node) : Node :=
  { n.await ⟨0, .clock⟩ with tick := n.tick + 1, AYATick := n.AYATick + 1 }

theorem onClock_of_quiet (hquiet : n.Quiet) :
    onClock c rank rn tested (n.await ⟨0, .clock⟩) = n.ticked := by
  refine if_neg ?_
  rintro ⟨hdue, hcoord⟩
  obtain ⟨hrate, hmod⟩ := hquiet hcoord
  exact hdue.elim hrate hmod

theorem handle_quiet (hne : c.timeoutValue ≠ 0) (hrun : n.Running) (hquiet : n.Quiet)
    (hearly : n.tick + 1 < c.timeoutValue.natAbs) :
    handle c rank n (.clock rn tested) = n.ticked := by
  unfold handle
  rw [receive_clock hrun.2, onClock_of_quiet hquiet]
  refine checkTimeout_of_not_timedOut hne fun hdue => ?_
  have hmod : (n.tick + 1) % c.timeoutValue.natAbs = 0 := hdue.1
  rw [Nat.mod_eq_of_lt hearly] at hmod
  omega

theorem timedOut_ticked (hdue : n.tick + 1 = c.timeoutValue.natAbs) : n.ticked.TimedOut c := by
  refine ⟨?_, Nat.succ_ne_zero _⟩
  show (n.tick + 1) % c.timeoutValue.natAbs = 0
  rw [hdue, Nat.mod_self]

/-- The tick of the timeout, without an AYA. -/
theorem handle_due (hne : c.timeoutValue ≠ 0) (hrun : n.Running) (hquiet : n.Quiet)
    (hdue : n.tick + 1 = c.timeoutValue.natAbs) :
    handle c rank n (.clock rn tested) = onTimeout c rank tested n.ticked := by
  unfold handle
  rw [receive_clock hrun.2, onClock_of_quiet hquiet]
  exact checkTimeout_of_timedOut hne hrun (timedOut_ticked hdue)

/-- A rank that has just learnt of its first coordinator asks at the next tick. -/
def asked (c : Config) (rank rn : ℕ) (tested : Status) (n : Node) : Node :=
  { n.ticked with
    AYARate := rn % (twiceAYATime c).natAbs
    lastSent := some .aya
    dlcTime := n.dlcTime + 1
    outbox := [⟨rank, n.coordNode, .aya, n.dlcTime + 1⟩]
    status := tested }

theorem receive_asked (hrun : n.Running) (htwice : twiceAYATime c ≠ 0) (hrate : n.AYARate = 0)
    (hcoord : n.coordNode ≠ 0) :
    receive c rank n (.clock rn tested) = n.asked c rank rn tested := by
  rw [receive_clock hrun.2]
  unfold onClock
  rw [if_pos ⟨Or.inl hrate, hcoord⟩, if_neg htwice]
  rfl

/-! ## Messages -/

/-- What a running rank counts, after a message: the wait begins anew. -/
structure Restarted (n n' : Node) : Prop where
  running : n'.Running
  tick : n'.tick = 0
  AYATick : n'.AYATick = n.AYATick
  AYARate : n'.AYARate = n.AYARate

theorem handle_coord (hne : c.timeoutValue ≠ 0) (hrun : n.Running) (htag : m.tag = .coord) :
    Restarted n (handle c rank n (.message m rn tested)) ∧
      (handle c rank n (.message m rn tested)).lastSent = n.lastSent ∧
        (handle c rank n (.message m rn tested)).coordNode = m.src := by
  rw [handle_message rank rn m tested hne hrun]
  have htag' : (n.await ⟨m.src, m.tag⟩).status.MPI_TAG = .coord := htag
  simp only [onMessage, htag']
  exact ⟨⟨hrun, rfl, rfl, rfl⟩, rfl, rfl⟩

theorem handle_iaa (hne : c.timeoutValue ≠ 0) (hrun : n.Running) (htag : m.tag = .iaa) :
    Restarted n (handle c rank n (.message m rn tested)) ∧
      (handle c rank n (.message m rn tested)).lastSent = n.lastSent ∧
        (handle c rank n (.message m rn tested)).coordNode = n.coordNode := by
  rw [handle_message rank rn m tested hne hrun]
  have htag' : (n.await ⟨m.src, m.tag⟩).status.MPI_TAG = .iaa := htag
  simp only [onMessage, htag']
  exact ⟨⟨hrun, rfl, rfl, rfl⟩, rfl, rfl⟩

/-- A coordinator that does not die answers. -/
theorem handle_aya (rank rn : ℕ) (tested : Status) (hne : c.timeoutValue ≠ 0) (hrun : n.Running)
    (htag : m.tag = .aya) (hrn : c.sendFailure ≤ ((rn % 100 : ℕ) : ℤ)) :
    ∃ d, ⟨rank, m.src, .iaa, d⟩ ∈ (handle c rank n (.message m rn tested)).outbox := by
  rw [handle_message rank rn m tested hne hrun]
  have htag' : (n.await ⟨m.src, m.tag⟩).status.MPI_TAG = .aya := htag
  simp only [onMessage, htag', onAYA, if_pos hrn]
  exact ⟨_, List.mem_singleton.mpr rfl⟩

/-- After an ELECTION an election of the rank is under way, if there are ranks above. -/
theorem onElection_of_higher (tested : Status) (n : Node) (hhigher : higher c rank ≠ []) :
    (onElection c rank tested n).lastSent = some .election ∧
      (onElection c rank tested n).halted = n.halted ∧
      (onElection c rank tested n).coordDead = n.coordDead ∧
      (onElection c rank tested n).AYATick = n.AYATick ∧
      (onElection c rank tested n).AYARate = n.AYARate := by
  unfold onElection
  by_cases hbusy : n.lastSent = some .election
  · -- only the answer is sent
    have hbusy' : ({ isend rank tested .answer n.status.MPI_SOURCE n.count with
        lastReceived := some .election } : Node).lastSent = some .election := hbusy
    simp only [if_pos hbusy']
    exact ⟨hbusy, rfl, rfl, rfl, rfl⟩
  · -- there are ranks above, so the call sets lastSent
    have hidle : ({ isend rank tested .answer n.status.MPI_SOURCE n.count with
        lastReceived := some .election } : Node).lastSent ≠ some .election := hbusy
    simp only [if_neg hidle, sendLoop_lastSent, if_neg hhigher, reduceCtorEq, if_false]
    refine ⟨trivial, ?_, ?_, ?_, ?_⟩
    · simp [isend, count]
    · simp [isend, count]
    · simp [isend, count]
    · simp [isend, count]

/-- The highest rank declares itself to all others. -/
theorem onElection_of_highest (tested : Status) (hhigher : higher c rank = [])
    (hidle : n.lastSent ≠ some .election) :
    (onElection c rank tested n).lastSent ≠ some .election ∧
      (onElection c rank tested n).halted = n.halted ∧
      (onElection c rank tested n).coordDead = n.coordDead ∧
      ∀ q ∈ lower rank, ∃ d, ⟨rank, q, .coord, d⟩ ∈ (onElection c rank tested n).outbox := by
  unfold onElection
  -- nobody is above, so the loop of COORD is entered
  have hidle' : ({ isend rank tested .answer n.status.MPI_SOURCE n.count with
      lastReceived := some .election } : Node).lastSent ≠ some .election := hidle
  simp only [if_neg hidle', hhigher, sendLoop, if_true]
  refine ⟨?_, ?_, ?_, fun q hq => ?_⟩
  · rw [sendLoop_lastSent]
    split
    · simp
    · simp
  · simp [isend, count]
  · simp [isend, count]
  · rw [sendLoop_outbox]
    obtain ⟨d, hd⟩ := exists_mem_packets rank .coord
      { isend rank tested .answer n.status.MPI_SOURCE n.count with
        lastReceived := some .election, lastSent := none }.dlcTime hq
    exact ⟨d, List.mem_append_right _ hd⟩

theorem handle_election (hne : c.timeoutValue ≠ 0) (hrun : n.Running) (htag : m.tag = .election)
    (hhigher : higher c rank ≠ []) :
    Restarted n (handle c rank n (.message m rn tested)) ∧
      (handle c rank n (.message m rn tested)).lastSent = some .election := by
  have heq := handle_message rank rn m tested hne hrun
  have htick := congrArg Node.tick heq
  rw [tick_onMessage] at htick
  have htag' : (n.await ⟨m.src, m.tag⟩).status.MPI_TAG = .election := htag
  simp only [onMessage, htag'] at heq
  obtain ⟨hsent, hhalted, hdead, hAYATick, hAYARate⟩ := onElection_of_higher tested
    { n.await ⟨m.src, m.tag⟩ with
      tick := 0, dlcTime := if m.dlcTime > n.dlcTime then m.dlcTime else n.dlcTime } hhigher
  rw [← heq] at hsent hhalted hdead hAYATick hAYARate
  exact ⟨⟨⟨hhalted.trans hrun.1, hdead.trans hrun.2⟩, htick, hAYATick, hAYARate⟩, hsent⟩

theorem handle_election_highest (rn : ℕ) (tested : Status) (hne : c.timeoutValue ≠ 0)
    (hrun : n.Running) (htag : m.tag = .election) (hhigher : higher c rank = []) (hs : n.lastSent ≠ some .election) :
    (handle c rank n (.message m rn tested)).Running ∧
      (handle c rank n (.message m rn tested)).lastSent ≠ some .election ∧
      ∀ q ∈ lower rank, ∃ d, ⟨rank, q, .coord, d⟩ ∈ (handle c rank n (.message m rn tested)).outbox := by
  have heq := handle_message rank rn m tested hne hrun
  have htag' : (n.await ⟨m.src, m.tag⟩).status.MPI_TAG = .election := htag
  simp only [onMessage, htag'] at heq
  have hidle : ({ n.await ⟨m.src, m.tag⟩ with
      tick := 0, dlcTime := if m.dlcTime > n.dlcTime then m.dlcTime else n.dlcTime } : Node).lastSent ≠
        some .election := hs
  obtain ⟨hsent, hhalted, hdead, hcoords⟩ := onElection_of_highest tested hhigher hidle
  rw [← heq] at hsent hhalted hdead hcoords
  exact ⟨⟨hhalted.trans hrun.1, hdead.trans hrun.2⟩, hsent, hcoords⟩

/-! ## The first timeout and the first AYA -/

/-- A rank that has called an election and has not asked anybody yet. -/
structure Called (n : Node) : Prop where
  running : n.Running
  lastSent : n.lastSent = some .election
  AYARate : n.AYARate = 0

/-- A rank before its first timeout. -/
structure Fresh (rank : ℕ) (n : Node) : Prop where
  running : n.Running
  rank_one : rank = 1 → n.lastSent = some .election
  others : rank ≠ 1 → n.lastSent = none ∧ n.lastReceived = none
  coord : n.coordNode = 0
  AYARate : n.AYARate = 0

theorem fresh_start (h : rank + 1 < c.size) : Fresh rank (start c rank) := by
  unfold start
  split
  · rename_i hone
    refine ⟨⟨by simp, by simp⟩, fun _ => ?_, fun hne => absurd hone hne, by simp, by simp⟩
    rw [sendLoop_lastSent, if_neg (higher_ne_nil h)]
  · rename_i hne
    exact ⟨⟨rfl, rfl⟩, fun hone => absurd hone hne, fun _ => ⟨rfl, rfl⟩, rfl, rfl⟩

theorem Fresh.quiet (h : Fresh rank n) : n.Quiet := fun hcoord => absurd h.coord hcoord

theorem Fresh.ticked (h : Fresh rank n) : Fresh rank n.ticked :=
  ⟨h.running, h.rank_one, h.others, h.coord, h.AYARate⟩

/-- The first timeout leaves an election under way. -/
theorem handle_first_timeout (rn : ℕ) (tested : Status) (hne : c.timeoutValue ≠ 0)
    (h : Fresh rank n) (hpos : 0 < rank) (hsize : rank + 1 < c.size) (hdue : n.tick + 1 = c.timeoutValue.natAbs) :
    Called (handle c rank n (.clock rn tested)) ∧
      (handle c rank n (.clock rn tested)).AYATick = n.AYATick + 1 ∧
      (rank ≠ 1 → (handle c rank n (.clock rn tested)).outbox =
        packets rank .election n.dlcTime (higher c rank)) := by
  have hhigher := higher_ne_nil hsize
  have hticked := h.ticked
  rw [handle_due hne h.running h.quiet hdue]
  by_cases hone : rank = 1
  · -- rank 1 has nobody to declare itself to
    subst hone
    have hs : n.ticked.lastSent = some .election := hticked.rank_one rfl
    have hlower : lower 1 = [] := rfl
    simp only [onTimeout, hs, declare, hlower, sendLoop]
    exact ⟨⟨hticked.running, rfl, hticked.AYARate⟩, rfl, fun hno => absurd rfl hno⟩
  · have hs : n.ticked.lastSent = none := (hticked.others hone).1
    have hr : n.ticked.lastReceived = none := (hticked.others hone).2
    simp only [onTimeout, hs]
    rcases timeoutIdle_cases c rank tested n.ticked with ⟨heq, -⟩ | ⟨-, hr'⟩ | heq
    · rw [heq]
      refine ⟨⟨⟨?_, ?_⟩, ?_, ?_⟩, ?_, fun _ => ?_⟩
      · simpa [callElection] using hticked.running.1
      · simpa [callElection] using hticked.running.2
      · simp [callElection, hhigher]
      · simpa [callElection] using hticked.AYARate
      · simp [callElection, Node.ticked]
      · show (callElection c rank tested n.ticked).outbox = _
        rw [callElection_outbox]
        rfl
    · exact absurd (hr.symm.trans hr') (by simp)
    · -- the first condition of the case 0 holds
      have habandons : n.ticked.Abandons c := Or.inl hr
      simp only [timeoutIdle, if_pos habandons, hhigher, if_false, reduceCtorEq] at heq
      have hsent := congrArg Node.lastSent heq
      simp only [callElection, sendLoop_lastSent, if_neg hhigher, hs] at hsent
      exact absurd hsent (by simp)

/-- The first AYA, which may coincide with a timeout: the interval is the one drawn, and no
    COORD is sent. -/
theorem handle_first_aya (hne : c.timeoutValue ≠ 0) (hrun : n.Running) (htwice : twiceAYATime c ≠ 0)
    (hrate : n.AYARate = 0) (hcoord : n.coordNode ≠ 0) :
    (handle c rank n (.clock rn tested)).Running ∧
      (handle c rank n (.clock rn tested)).AYARate = rn % (twiceAYATime c).natAbs ∧
      (handle c rank n (.clock rn tested)).AYATick = n.AYATick + 1 := by
  unfold handle
  rw [receive_asked hrun htwice hrate hcoord]
  by_cases hdue : (n.asked c rank rn tested).TimedOut c
  · have hs : (n.asked c rank rn tested).lastSent = some .aya := rfl
    have hrun' : (n.asked c rank rn tested).Running := hrun
    rw [checkTimeout_of_timedOut hne hrun' hdue]
    simp only [onTimeout, hs, callElection, Running, sendLoop_halted, sendLoop_coordDead,
      sendLoop_AYARate, sendLoop_AYATick]
    exact ⟨hrun, rfl, rfl⟩
  · rw [checkTimeout_of_not_timedOut hne hdue]
    exact ⟨hrun, rfl, rfl⟩

/-! ## An AYA interval longer than the timeout -/

/-- The rank is in a gap between two AYAs that are `timeoutValue + 1` ticks apart, and has
    been so for `tick` ticks. -/
structure Waiting (c : Config) (s : Option Tag) (n : Node) : Prop where
  running : n.Running
  lastSent : n.lastSent = s
  coord : n.coordNode ≠ 0
  rate : n.AYARate = c.timeoutValue.natAbs + 1
  aligned : n.AYATick % (c.timeoutValue.natAbs + 1) = n.tick
  early : n.tick < c.timeoutValue.natAbs

variable {s : Option Tag}

/-- A rank whose last AYA fell on a multiple of its interval, after a message. -/
theorem waiting_of_restarted {n' : Node} (hne : c.timeoutValue ≠ 0) (h : Restarted n n')
    (hs : n'.lastSent = s) (hcoord : n'.coordNode ≠ 0)
    (hrate : n.AYARate = c.timeoutValue.natAbs + 1)
    (hmultiple : n.AYATick % (c.timeoutValue.natAbs + 1) = 0) : Waiting c s n' := by
  refine ⟨h.running, hs, hcoord, h.AYARate.trans hrate, ?_, ?_⟩
  · rw [h.AYATick, hmultiple, h.tick]
  · rw [h.tick]
    exact Int.natAbs_pos.mpr hne

/-- The next AYA is due only after the timeout. -/
theorem Waiting.quiet (h : Waiting c s n) : n.Quiet := by
  intro _
  rw [h.rate]
  refine ⟨Nat.succ_ne_zero _, ?_⟩
  have hearly := h.early
  rw [← Nat.mod_add_mod, h.aligned, Nat.mod_eq_of_lt (by omega)]
  exact Nat.succ_ne_zero _

theorem Waiting.ticked (h : Waiting c s n) (hearly : n.tick + 1 < c.timeoutValue.natAbs) :
    Waiting c s n.ticked := by
  refine ⟨h.running, h.lastSent, h.coord, h.rate, ?_, hearly⟩
  show (n.AYATick + 1) % (c.timeoutValue.natAbs + 1) = n.tick + 1
  rw [← Nat.mod_add_mod, h.aligned, Nat.mod_eq_of_lt (by omega)]

end Node

namespace System

/-- What a step of rank `p` leaves behind; `lost` is the message that it takes off the net. -/
structure After (c : Config) (x y : System × (ℕ → Memory)) (p : ℕ) (i : Input)
    (lost : Option Packet) : Prop where
  node : y.1.nodes p = (x.1.nodes p).handle c p i
  others : ∀ q, q ≠ p → y.1.nodes q = x.1.nodes q
  memory : y.2 p = (x.1.nodes p).remember c p (x.2 p) i
  unheard : ∀ q, q ≠ p → y.2 q = x.2 q
  kept : ∀ m ∈ x.1.net, some m ≠ lost → m ∈ y.1.net
  sent : ∀ m ∈ ((x.1.nodes p).handle c p i).outbox, m ∈ y.1.net

/-- A run of the system can break the condition. -/
def CanBreak (c : Config) (D : System × (ℕ → Memory) → SystemAct → Prop) (x : System × (ℕ → Memory)) :
    Prop := (remembered c).CanBreak (fun x a => enabled c x.1 a) D x

variable {c : Config} {D : System × (ℕ → Memory) → SystemAct → Prop} {x y : System × (ℕ → Memory)}
  {p rn : ℕ} {i : Input} {m : Packet}

theorem after_nodeStep {st : Stimulus} {lost : Option Packet}
    (hin : input x.1.net p st = some i)
    (hkept : ∀ m ∈ x.1.net, some m ≠ lost → m ∈ remaining x.1.net st) :
    After c x ((remembered c).next x ⟨p, st⟩) p i lost := by
  rw [remembered_next hin]
  refine ⟨?_, fun q hq => ?_, ?_, fun q hq => ?_, fun m hm hne => ?_, fun m hm => ?_⟩
  · simp only [nodeStep, Function.update_self]
  · simp only [nodeStep, Function.update_of_ne hq]
  · simp only [Function.update_self]
  · simp only [Function.update_of_ne hq]
  · exact List.mem_append_left _ (hkept m hm hne)
  · exact List.mem_append_right _ hm

theorem After.first_timeout {tested : Status} {lost : Option Packet}
    (h : After c x y p (.clock rn tested) lost) (hne : c.timeoutValue ≠ 0)
    (hfresh : Node.Fresh p (x.1.nodes p)) (hpos : 0 < p) (hsize : p + 1 < c.size)
    (hdue : (x.1.nodes p).tick + 1 = c.timeoutValue.natAbs) :
    Node.Called (y.1.nodes p) ∧ (y.1.nodes p).AYATick = (x.1.nodes p).AYATick + 1 ∧
      (p ≠ 1 → ∀ q ∈ higher c p, ∃ d, ⟨p, q, .election, d⟩ ∈ y.1.net) := by
  rw [h.node]
  obtain ⟨hcalled, hticks, hout⟩ := Node.handle_first_timeout rn tested hne hfresh hpos hsize hdue
  refine ⟨hcalled, hticks, fun hp q hq => ?_⟩
  obtain ⟨d, hd⟩ := Node.exists_mem_packets p .election (x.1.nodes p).dlcTime hq
  rw [← hout hp] at hd
  exact ⟨d, h.sent _ hd⟩

theorem After.first_aya {tested : Status} {lost : Option Packet}
    (h : After c x y p (.clock rn tested) lost) (hne : c.timeoutValue ≠ 0)
    (hrun : (x.1.nodes p).Running) (htwice : twiceAYATime c ≠ 0) (hrate : (x.1.nodes p).AYARate = 0)
    (hcoord : (x.1.nodes p).coordNode ≠ 0) :
    (y.1.nodes p).Running ∧ (y.1.nodes p).AYARate = rn % (twiceAYATime c).natAbs ∧
      (y.1.nodes p).AYATick = (x.1.nodes p).AYATick + 1 := by
  rw [h.node]
  exact Node.handle_first_aya hne hrun htwice hrate hcoord

theorem After.coord {tested : Status} {lost : Option Packet}
    (h : After c x y p (.message m rn tested) lost) (hne : c.timeoutValue ≠ 0)
    (hrun : (x.1.nodes p).Running) (htag : m.tag = .coord) :
    Node.Restarted (x.1.nodes p) (y.1.nodes p) ∧
      (y.1.nodes p).lastSent = (x.1.nodes p).lastSent ∧ (y.1.nodes p).coordNode = m.src := by
  rw [h.node]
  exact Node.handle_coord hne hrun htag

theorem After.iaa {tested : Status} {lost : Option Packet}
    (h : After c x y p (.message m rn tested) lost) (hne : c.timeoutValue ≠ 0)
    (hrun : (x.1.nodes p).Running) (htag : m.tag = .iaa) :
    Node.Restarted (x.1.nodes p) (y.1.nodes p) ∧
      (y.1.nodes p).lastSent = (x.1.nodes p).lastSent ∧
        (y.1.nodes p).coordNode = (x.1.nodes p).coordNode := by
  rw [h.node]
  exact Node.handle_iaa hne hrun htag

theorem After.aya {tested : Status} {lost : Option Packet}
    (h : After c x y p (.message m rn tested) lost) (hne : c.timeoutValue ≠ 0)
    (hrun : (x.1.nodes p).Running) (htag : m.tag = .aya)
    (hrn : c.sendFailure ≤ ((rn % 100 : ℕ) : ℤ)) : ∃ d, ⟨p, m.src, .iaa, d⟩ ∈ y.1.net := by
  obtain ⟨d, hd⟩ := Node.handle_aya p rn tested hne hrun htag hrn
  exact ⟨d, h.sent _ hd⟩

theorem After.election {tested : Status} {lost : Option Packet}
    (h : After c x y p (.message m rn tested) lost) (hne : c.timeoutValue ≠ 0)
    (hrun : (x.1.nodes p).Running) (htag : m.tag = .election) (hhigher : higher c p ≠ []) :
    Node.Restarted (x.1.nodes p) (y.1.nodes p) ∧ (y.1.nodes p).lastSent = some .election := by
  rw [h.node]
  exact Node.handle_election hne hrun htag hhigher

theorem After.election_highest {tested : Status} {lost : Option Packet}
    (h : After c x y p (.message m rn tested) lost) (hne : c.timeoutValue ≠ 0)
    (hrun : (x.1.nodes p).Running) (htag : m.tag = .election) (hhigher : higher c p = [])
    (hs : (x.1.nodes p).lastSent ≠ some .election) :
    (y.1.nodes p).Running ∧ (y.1.nodes p).lastSent ≠ some .election ∧
      ∀ q ∈ lower p, ∃ d, ⟨p, q, .coord, d⟩ ∈ y.1.net := by
  rw [h.node]
  obtain ⟨hrun', hs', hcoords⟩ := Node.handle_election_highest rn tested hne hrun htag hhigher hs
  refine ⟨hrun', hs', fun q hq => ?_⟩
  obtain ⟨d, hd⟩ := hcoords q hq
  exact ⟨d, h.sent _ hd⟩

/-- A tick. -/
theorem canBreak_of_clock (rn : ℕ) (hpos : 0 < p) (hlt : p < c.size) (hrun : (x.1.nodes p).Running)
    (hrn : rn < Node.randomBound)
    (h : ∀ y, After c x y p (.clock rn ⟨0, .clock⟩) none → CanBreak c D y) : CanBreak c D x := by
  refine Machine.CanBreak.of_step ⟨p, .clock rn ⟨0, .clock⟩⟩ ?_ (h _ ?_)
  · exact ⟨hpos, hlt, .clock rn ⟨0, .clock⟩, rfl, hrun.1, hrn⟩
  · exact after_nodeStep rfl fun m hm _ => hm

/-- A message in flight is delivered. -/
theorem canBreak_of_deliver (p rn : ℕ) (hm : m ∈ x.1.net) (hdst : m.dst = p) (hpos : 0 < p)
    (hlt : p < c.size) (hrun : (x.1.nodes p).Running) (hrn : rn < Node.randomBound)
    (h : ∀ y, After c x y p (.message m rn ⟨0, .clock⟩) (some m) → CanBreak c D y) :
    CanBreak c D x := by
  obtain ⟨k, hk⟩ := List.getElem?_of_mem hm
  have hin : input x.1.net p (.deliver k rn ⟨0, .clock⟩) = some (.message m rn ⟨0, .clock⟩) := by
    simp only [input, hk, if_pos hdst]
  refine Machine.CanBreak.of_step ⟨p, .deliver k rn ⟨0, .clock⟩⟩ ?_ (h _ ?_)
  · exact ⟨hpos, hlt, _, hin, hrun.1, hrn⟩
  · refine after_nodeStep hin fun m' hm' hne => ?_
    obtain ⟨k', hk'⟩ := List.getElem?_of_mem hm'
    refine List.mem_eraseIdx_iff_getElem?.mpr ⟨k', fun heq => ?_, hk'⟩
    rw [heq, hk] at hk'
    exact hne hk'.symm

/-- Ticks without an AYA, up to the one of the timeout. -/
theorem canBreak_of_quiet (hne : c.timeoutValue ≠ 0) (hpos : 0 < p) (hlt : p < c.size)
    (I : Node → Prop) (hI : ∀ n, I n → n.Running ∧ n.Quiet ∧ n.tick < c.timeoutValue.natAbs)
    (hstep : ∀ n, I n → n.tick + 1 < c.timeoutValue.natAbs → I n.ticked) (hx : I (x.1.nodes p))
    (h : ∀ y, I (y.1.nodes p) → (y.1.nodes p).tick + 1 = c.timeoutValue.natAbs →
      (y.1.nodes p).AYATick + (x.1.nodes p).tick = (x.1.nodes p).AYATick + (y.1.nodes p).tick →
      (∀ q, q ≠ p → y.1.nodes q = x.1.nodes q) → y.2 p = x.2 p →
      (∀ m ∈ x.1.net, m ∈ y.1.net) → CanBreak c D y) : CanBreak c D x := by
  -- the induction is on the ticks that are left before the timeout
  obtain ⟨k, hk⟩ : ∃ k, (x.1.nodes p).tick + 1 + k = c.timeoutValue.natAbs :=
    ⟨_, Nat.add_sub_cancel' (hI _ hx).2.2⟩
  induction k generalizing x with
  | zero => exact h x hx hk rfl (fun _ _ => rfl) rfl fun _ hm => hm
  | succ k ih =>
      obtain ⟨hrun, hquiet, -⟩ := hI _ hx
      refine canBreak_of_clock 0 hpos hlt hrun (by decide) fun y hy => ?_
      -- a tick before the timeout only counts
      have hnode : y.1.nodes p = (x.1.nodes p).ticked :=
        hy.node.trans (Node.handle_quiet hne hrun hquiet (by omega))
      have hmemory : y.2 p = x.2 p := by
        rw [hy.memory, Node.remember, Node.handle_quiet hne hrun hquiet (by omega)]
        rfl
      have hticks : (y.1.nodes p).tick = (x.1.nodes p).tick + 1 ∧
          (y.1.nodes p).AYATick = (x.1.nodes p).AYATick + 1 := by
        rw [hnode]
        exact ⟨rfl, rfl⟩
      refine ih ?_ (fun z hz hdue hAYA hothers hmem hnet => ?_) (by omega)
      · rw [hnode]
        exact hstep _ hx (by omega)
      · refine h z hz hdue (by omega) (fun q hq => (hothers q hq).trans (hy.others q hq))
          (hmem.trans hmemory) fun m hm => hnet m (hy.kept m hm (by simp))

/-! ## A rank that has learnt of a coordinator -/

/-- Rank `r` has called an election in its first timeout, has then been told that the highest
    rank is the coordinator, and has not asked it yet. -/
structure Elected (c : Config) (r : ℕ) (x : System × (ℕ → Memory)) : Prop where
  running : (x.1.nodes r).Running
  tick : (x.1.nodes r).tick = 0
  AYATick : (x.1.nodes r).AYATick = c.timeoutValue.natAbs
  AYARate : (x.1.nodes r).AYARate = 0
  coordNode : (x.1.nodes r).coordNode = c.size - 1
  highest : (x.1.nodes (c.size - 1)).Running ∧ (x.1.nodes (c.size - 1)).lastSent ≠ some .election
  elections : r ≠ 1 → (∃ d, ⟨1, r, .election, d⟩ ∈ x.1.net) ∧
    ∃ d, ⟨r, c.size - 1, .election, d⟩ ∈ x.1.net

theorem start_idle {r : ℕ} (hr : r ≠ 1) : Node.start c r = {} := if_neg hr

theorem start_ticks (c : Config) (r : ℕ) :
    (Node.start c r).tick = 0 ∧ (Node.start c r).AYATick = 0 := by
  unfold Node.start
  split
  · simp
  · exact ⟨rfl, rfl⟩

/-- The elections of rank 1 are in flight at the start. -/
theorem exists_election_start {r : ℕ} (h : 1 < r) (hlt : r < c.size) :
    ∃ d, ⟨1, r, .election, d⟩ ∈ (start c).net := by
  obtain ⟨d, hd⟩ := Node.exists_mem_packets 1 .election 0 (mem_higher.mpr ⟨h, hlt⟩)
  refine ⟨d, ?_⟩
  show _ ∈ (Node.start c 1).outbox
  simp only [Node.start, if_true, Node.sendLoop_outbox]
  exact List.mem_append_right _ hd

/-- Such a state can be reached: the election of rank 1 makes the highest rank coordinator,
    and its COORD arrives after the first timeout. -/
theorem canBreak_of_elected {r : ℕ} (hne : c.timeoutValue ≠ 0) (hpos : 0 < r) (hsize : r + 1 < c.size)
    (h : ∀ y, Elected c r y → CanBreak c D y) : CanBreak c D (beginning c) := by
  have htop : c.size - 1 < c.size := by omega
  have hlt : r < c.size - 1 := by omega
  have hrtop : r ≠ c.size - 1 := Nat.ne_of_lt hlt
  have hhighest := higher_highest (c := c) (by omega)
  -- the highest rank declares itself
  obtain ⟨d, hd⟩ := exists_election_start (c := c) (by omega) htop
  have htopRunning : ((beginning c).1.nodes (c.size - 1)).Running := by
    show (Node.start c (c.size - 1)).Running
    rw [start_idle (by omega)]
    exact ⟨rfl, rfl⟩
  have htopIdle : ((beginning c).1.nodes (c.size - 1)).lastSent ≠ some .election := by
    show (Node.start c (c.size - 1)).lastSent ≠ _
    rw [start_idle (by omega)]
    simp
  refine canBreak_of_deliver (c.size - 1) 0 hd rfl (by omega) htop htopRunning (by decide) fun x₁ h₁ => ?_
  obtain ⟨hrun₁, hsent₁, hcoords₁⟩ := h₁.election_highest hne htopRunning rfl hhighest htopIdle
  obtain ⟨e, hcoord₁⟩ := hcoords₁ r (mem_lower.mpr ⟨hpos, hlt⟩)
  have hnode₁ : x₁.1.nodes r = Node.start c r := h₁.others r hrtop
  -- rank r waits for its first timeout
  have hfresh : Node.Fresh r (x₁.1.nodes r) ∧ (x₁.1.nodes r).tick < c.timeoutValue.natAbs := by
    rw [hnode₁, (start_ticks c r).1]
    exact ⟨Node.fresh_start hsize, Int.natAbs_pos.mpr hne⟩
  refine canBreak_of_quiet hne hpos (by omega)
    (fun n => Node.Fresh r n ∧ n.tick < c.timeoutValue.natAbs)
    (fun n hn => ⟨hn.1.running, hn.1.quiet, hn.2⟩) (fun n hn hearly => ⟨hn.1.ticked, hearly⟩)
    hfresh fun x₂ hfresh₂ hdue₂ hticks₂ hothers₂ _ hnet₂ => ?_
  rw [hnode₁, (start_ticks c r).1, (start_ticks c r).2] at hticks₂
  -- the timeout
  refine canBreak_of_clock 0 hpos (by omega) hfresh₂.1.running (by decide) fun x₃ h₃ => ?_
  obtain ⟨hcalled₃, hticks₃, helection₃⟩ := h₃.first_timeout hne hfresh₂.1 hpos hsize hdue₂
  -- the COORD arrives
  have hcoord₃ := h₃.kept _ (hnet₂ _ hcoord₁) (by simp)
  refine canBreak_of_deliver r 0 hcoord₃ rfl hpos (by omega) hcalled₃.running (by decide)
    fun x₄ h₄ => h x₄ ?_
  obtain ⟨hrestarted, -, hsrc⟩ := h₄.coord hne hcalled₃.running rfl
  have htop₄ : x₄.1.nodes (c.size - 1) = x₁.1.nodes (c.size - 1) :=
    (h₄.others _ hrtop.symm).trans ((h₃.others _ hrtop.symm).trans (hothers₂ _ hrtop.symm))
  refine ⟨hrestarted.running, hrestarted.tick, ?_, ?_, hsrc, ?_, fun hr => ⟨?_, ?_⟩⟩
  · rw [hrestarted.AYATick]
    omega
  · exact hrestarted.AYARate.trans hcalled₃.AYARate
  · rw [htop₄]
    exact ⟨hrun₁, hsent₁⟩
  · obtain ⟨f, hf⟩ := exists_election_start (c := c) (r := r) (by omega) (by omega)
    refine ⟨f, h₄.kept _ (h₃.kept _ (hnet₂ _ (h₁.kept _ hf ?_)) (by simp)) (by simp)⟩
    simp only [ne_eq, Option.some.injEq, Packet.mk.injEq, not_and]
    exact fun _ heq => absurd heq hrtop
  · obtain ⟨f, hf⟩ := helection₃ hr _ (mem_higher.mpr ⟨hlt, htop⟩)
    exact ⟨f, h₄.kept _ hf (by simp)⟩

end System

end DistributedSystem.MpiBully
