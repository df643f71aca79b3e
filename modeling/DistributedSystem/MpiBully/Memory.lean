import DistributedSystem.MpiBully.Order

/-!
# What a rank has heard

A ghost remembers, for every rank, whether it has processed an ANSWER or a COORD since its
latest call for an election, and whether its latest AYA has been answered. A rank that has
heard of a coordinator and lets a timeout pass without an AYA had an AYA interval longer
than the timeout: `Window` measures the ticks since the last message against the interval.
-/

namespace DistributedSystem.MpiBully

open DistributedSystem.Library

/-- What is remembered of the messages of a rank. -/
structure Memory where
  /-- an ANSWER or a COORD has been processed since the latest call for an election -/
  settled : Bool := false
  /-- where the latest AYA went -/
  latestAYA : ℕ := 0
  /-- an IAA from there has been processed since -/
  answered : Bool := false
  deriving DecidableEq

namespace Memory

/-- After a message has been processed. -/
def hears (g : Memory) (n : Node) : Input → Memory
  | .message m _ _ =>
      if n.coordDead then g
      else
        { g with
          settled := g.settled ∨ m.tag = .answer ∨ m.tag = .coord
          answered := g.answered ∨ (m.tag = .iaa ∧ m.src = g.latestAYA) }
  | _ => g

/-- After a message has been sent. -/
def send (g : Memory) (m : Packet) : Memory :=
  match m.tag with
  | .election => { g with settled := false }
  | .aya => { g with latestAYA := m.dst, answered := false }
  | _ => g

def sends (g : Memory) (ms : List Packet) : Memory := ms.foldl send g

theorem sends_append (g : Memory) (ms ms' : List Packet) :
    g.sends (ms ++ ms') = (g.sends ms).sends ms' := List.foldl_append

/-- Messages that are neither ELECTION nor AYA are not remembered. -/
theorem sends_of_quiet {g : Memory} {ms : List Packet}
    (h : ∀ m ∈ ms, m.tag ≠ .election ∧ m.tag ≠ .aya) : g.sends ms = g := by
  induction ms with
  | nil => rfl
  | cons m ms ih =>
      have hsend : g.send m = g := by
        obtain ⟨helection, haya⟩ := h m (by simp)
        unfold send
        split
        · rename_i htag
          exact absurd htag helection
        · rename_i htag
          exact absurd htag haya
        · rfl
      show (g.send m).sends ms = g
      rw [hsend]
      exact ih fun m' hm' => h m' (by simp [hm'])

theorem sends_coord (g : Memory) (rank dlcTime : ℕ) (is : List ℕ) :
    g.sends (Node.packets rank .coord dlcTime is) = g := by
  refine sends_of_quiet fun m hm => ?_
  rw [(Node.mem_packets hm).2.1]
  simp

/-- A call for an election begins a new account. -/
theorem sends_election (g : Memory) (rank dlcTime : ℕ) (is : List ℕ) :
    g.sends (Node.packets rank .election dlcTime is) =
      if is = [] then g else { g with settled := false } := by
  induction is generalizing g dlcTime with
  | nil => rfl
  | cons i is ih =>
      show ({ g with settled := false } : Memory).sends (Node.packets rank .election (dlcTime + 1) is) = _
      rw [ih]
      split
      · simp
      · simp

end Memory

namespace Node

/-- No AYA has been sent for `tick` ticks, although there is a coordinator. -/
def Window (n : Node) : Prop :=
  n.coordNode ≠ 0 ∧ (n.tick = 0 ∨ n.AYARate ≠ 0 ∧ n.tick ≤ n.AYATick % n.AYARate)

/-- An AYA interval stays below `2 * AYATime`, an AYA is sent to a coordinator, and only the
    highest rank takes an ELECTION for its own. -/
structure Steady (c : Config) (rank : ℕ) (n : Node) : Prop where
  rate : n.AYARate ≤ (twiceAYATime c).natAbs - 1
  asking : n.lastSent = some .aya → n.coordNode ≠ 0
  idle : rank + 1 < c.size → n.lastSent = none → n.lastReceived ≠ some .election

/-- A rank that has heard of its coordinator, since it called an election or since its
    latest AYA. -/
def Heard (n : Node) (g : Memory) : Prop :=
  g.settled = true ∧ n.lastSent = some .election ∨ g.answered = true ∧ n.lastSent = some .aya

/-- The memory when the timeout is checked. -/
def memoryAt (c : Config) (rank : ℕ) (n : Node) (g : Memory) (i : Input) : Memory :=
  (g.hears n i).sends (receive c rank n i).outbox

/-- The memory after an iteration. -/
def remember (c : Config) (rank : ℕ) (n : Node) (g : Memory) (i : Input) : Memory :=
  (g.hears n i).sends (handle c rank n i).outbox

variable {c : Config} {rank rn : ℕ} {n : Node} {g : Memory} {i : Input} {m : Packet} {tested : Status}

theorem higher_ne_nil (h : rank + 1 < c.size) : higher c rank ≠ [] := by
  intro hnil
  have hmem : rank + 1 ∈ higher c rank := mem_higher.mpr ⟨Nat.lt_succ_self _, h⟩
  rw [hnil] at hmem
  exact absurd hmem (by simp)

/-- A rank with a coordinator is not the highest. -/
theorem higher_ne_nil_of_hasCoord {coordNode : ℕ} (h : System.HasCoord c rank coordNode)
    (hne : coordNode ≠ 0) : higher c rank ≠ [] := by
  obtain ⟨hlt, hsize⟩ := h.resolve_left hne
  exact higher_ne_nil (by omega)

theorem steady_of_eq {n' : Node} (h : Steady c rank n) (hrate : n'.AYARate = n.AYARate)
    (hsent : n'.lastSent = n.lastSent) (hcoord : n'.coordNode = n.coordNode)
    (hreceived : n'.lastReceived = n.lastReceived) : Steady c rank n' := by
  refine ⟨?_, ?_, ?_⟩
  · rw [hrate]
    exact h.rate
  · rw [hsent, hcoord]
    exact h.asking
  · rw [hsent, hreceived]
    exact h.idle

/-! ## Up to the timeout check -/

/-- The three outcomes of a tick. -/
theorem onClock_cases (c : Config) (rank rn : ℕ) (tested : Status) (n : Node) :
    (onClock c rank rn tested n = { n with tick := n.tick + 1, AYATick := n.AYATick + 1 } ∧
      (n.coordNode ≠ 0 → n.AYARate ≠ 0 ∧ (n.AYATick + 1) % n.AYARate ≠ 0)) ∨
    (onClock c rank rn tested n =
      { n with tick := n.tick + 1, AYATick := n.AYATick + 1, halted := true } ∧
      twiceAYATime c = 0) ∨
    (onClock c rank rn tested n =
      { n with
        tick := n.tick + 1
        AYATick := n.AYATick + 1
        AYARate := rn % (twiceAYATime c).natAbs
        lastSent := some .aya
        dlcTime := n.dlcTime + 1
        outbox := n.outbox ++ [⟨rank, n.coordNode, .aya, n.dlcTime + 1⟩]
        status := tested } ∧ n.coordNode ≠ 0 ∧ twiceAYATime c ≠ 0) := by
  unfold onClock
  simp only
  -- an AYA is due; it is sent, or the rate divides by zero
  by_cases hsend : (n.AYARate = 0 ∨ (n.AYATick + 1) % n.AYARate = 0) ∧ n.coordNode ≠ 0
  · rw [if_pos hsend]
    by_cases hzero : twiceAYATime c = 0
    · exact Or.inr (Or.inl ⟨if_pos hzero, hzero⟩)
    · refine Or.inr (Or.inr ⟨?_, hsend.2, hzero⟩)
      rw [if_neg hzero]
      rfl
  · -- none is due
    refine Or.inl ⟨if_neg hsend, fun hcoord => ?_⟩
    have hno := not_and.mp hsend
    exact not_or.mp fun hdue => hno hdue hcoord

theorem steady_onClock (h : Steady c rank n) : Steady c rank (onClock c rank rn tested n) := by
  rcases onClock_cases c rank rn tested n with ⟨heq, -⟩ | ⟨heq, -⟩ | ⟨heq, hcoord, hne⟩
  · rw [heq]
    exact steady_of_eq h rfl rfl rfl rfl
  · rw [heq]
    exact steady_of_eq h rfl rfl rfl rfl
  · rw [heq]
    refine ⟨?_, fun _ => hcoord, fun _ hnone => absurd hnone (by simp)⟩
    have hlt := Nat.mod_lt rn (Int.natAbs_pos.mpr hne)
    show rn % (twiceAYATime c).natAbs ≤ (twiceAYATime c).natAbs - 1
    omega

theorem steady_onElection (h : Steady c rank n) : Steady c rank (onElection c rank tested n) := by
  unfold onElection
  simp only
  split
  · -- an election is running, so only the answer is sent
    rename_i helection
    refine ⟨h.rate, fun haya => ?_, fun _ hnone => ?_⟩
    · exact absurd (helection.symm.trans haya) (by simp)
    · exact absurd (helection.symm.trans hnone) (by simp)
  · split
    · -- nobody above: lastSent is what the loop of COORD has left
      rename_i hnone
      simp only [sendLoop_lastSent, ite_eq_left_iff, reduceCtorEq, imp_false, not_not] at hnone
      refine ⟨?_, fun haya => ?_, fun hsize _ => absurd hnone (higher_ne_nil hsize)⟩
      · simpa [isend, count] using h.rate
      · simp only [sendLoop_lastSent, hnone, if_pos] at haya
        split at haya
        · exact absurd haya (by simp)
        · exact absurd haya (by simp)
    · rename_i hsome
      refine ⟨?_, fun haya => ?_, fun _ hnone => absurd hnone hsome⟩
      · simpa [isend, count] using h.rate
      · simp only [sendLoop_lastSent] at haya
        split at haya
        · exact absurd haya (by simp)
        · exact absurd haya (by simp)

theorem steady_onMessage (h : Steady c rank n) (hsrc : n.status.MPI_SOURCE ≠ 0) :
    Steady c rank (onMessage c rank rn tested n) := by
  unfold onMessage
  split
  · exact steady_onElection h
  · -- ANSWER
    unfold onAnswer
    split
    · rename_i hcoord
      refine ⟨h.rate, fun haya => absurd haya (by simp), fun _ _ => ?_⟩
      rw [hcoord]
      simp
    · split
      · exact ⟨h.rate, fun haya => absurd haya (by simp), fun _ _ => by simp⟩
      · exact h
  · -- COORD: the new coordinator is not the clock
    exact ⟨h.rate, fun _ => hsrc, fun _ _ => by simp [onCoord]⟩
  · -- AYA
    unfold onAYA
    simp only
    split
    · exact ⟨h.rate, fun haya => absurd haya (by simp [isend, count]),
        fun _ hnone => absurd hnone (by simp [isend, count])⟩
    · exact ⟨h.rate, fun haya => absurd haya (by simp [count]),
        fun _ hnone => absurd hnone (by simp [count])⟩
  · exact ⟨h.rate, h.asking, fun _ _ => by simp⟩
  · exact h

/-- **Step lemma**, up to the timeout check. -/
theorem steady_receive (h : Steady c rank n)
    (hsrc : ∀ m rn tested, i = .message m rn tested → m.src ≠ 0) :
    Steady c rank (receive c rank n i) := by
  cases i with
  | clock rn tested =>
      unfold receive
      simp only
      split
      · exact steady_of_eq h rfl rfl rfl rfl
      · exact steady_onClock (steady_of_eq h rfl rfl rfl rfl)
  | message m rn tested =>
      unfold receive
      simp only
      split
      · exact steady_of_eq h rfl rfl rfl rfl
      · exact steady_onMessage (steady_of_eq h rfl rfl rfl rfl) (hsrc m rn tested rfl)
  | revive tested =>
      exact ⟨h.rate, fun haya => absurd haya (by simp [receive]), fun _ _ => by simp [receive]⟩

/-- The interval of AYA goes by while nothing is sent. -/
theorem window_tick (h : Window n)
    (hrate : n.AYARate ≠ 0 ∧ (n.AYATick + 1) % n.AYARate ≠ 0) :
    Window { n with tick := n.tick + 1, AYATick := n.AYATick + 1 } := by
  obtain ⟨hcoord, hticks⟩ := h
  obtain ⟨hne, hmod⟩ := hrate
  refine ⟨hcoord, Or.inr ⟨hne, ?_⟩⟩
  show n.tick + 1 ≤ (n.AYATick + 1) % n.AYARate
  have hnext : (n.AYATick + 1) % n.AYARate = n.AYATick % n.AYARate + 1 := by
    rw [← Nat.mod_add_mod] at hmod ⊢
    have hbound := Nat.mod_lt n.AYATick (Nat.pos_of_ne_zero hne)
    refine Nat.mod_eq_of_lt ?_
    by_contra hge
    have heq : n.AYATick % n.AYARate + 1 = n.AYARate := by omega
    rw [heq, Nat.mod_self] at hmod
    exact hmod rfl
  rw [hnext]
  rcases hticks with hzero | ⟨-, hle⟩
  · omega
  · omega

/-- An ELECTION that finds none under way makes the rank call one, or take it for its own. -/
theorem onElection_settled (hne : n.lastSent ≠ some .election)
    (hs : (onElection c rank tested n).lastSent = some .election) (g : Memory) :
    (g.sends (onElection c rank tested n).outbox).settled = false := by
  unfold onElection at hs ⊢
  have hidle : ({ isend rank tested .answer n.status.MPI_SOURCE n.count with
      lastReceived := some .election } : Node).lastSent ≠ some .election := hne
  simp only [if_neg hidle] at hs ⊢
  by_cases hhigher : higher c rank = []
  · -- the highest rank sends COORD
    simp only [sendLoop_lastSent, hhigher, if_pos] at hs
    split at hs
    · exact absurd hs (by simp)
    · exact absurd hs (by simp)
  · simp only [sendLoop_lastSent, if_neg hhigher, reduceCtorEq, if_false]
    simp only [sendLoop_outbox, Memory.sends_append, Memory.sends_election, if_neg hhigher]

theorem onElection_of_election (hn : n.outbox = []) (hs : n.lastSent = some .election) (g : Memory) :
    (onElection c rank tested n).lastSent = some .election ∧
      (onElection c rank tested n).coordNode = n.coordNode ∧
      g.sends (onElection c rank tested n).outbox = g := by
  have hbusy : ({ isend rank tested .answer n.status.MPI_SOURCE n.count with
      lastReceived := some .election } : Node).lastSent = some .election := hs
  unfold onElection
  simp only [if_pos hbusy]
  refine ⟨hbusy, rfl, Memory.sends_of_quiet fun m hm => ?_⟩
  simp only [isend, count, hn, List.nil_append, List.mem_singleton] at hm
  rw [hm]
  simp

/-- After a message: a rank that waits for the end of its election, and is told of a
    coordinator, has one. -/
theorem coord_of_settled {n' : Node} (hn : n'.outbox = []) (htag : n'.status.MPI_TAG = m.tag)
    (hsrc : n'.status.MPI_SOURCE ≠ 0) (hdead : n.coordDead = false)
    (hold : g.settled = true → n'.lastSent = some .election → n'.coordNode ≠ 0)
    (hs : (onMessage c rank rn tested n').lastSent = some .election)
    (hg : ((g.hears n (.message m rn tested)).sends (onMessage c rank rn tested n').outbox).settled = true) :
    (onMessage c rank rn tested n').coordNode ≠ 0 := by
  -- the other kinds settle nothing
  have hhears : ∀ g' : Memory, g' = g.hears n (.message m rn tested) → m.tag ≠ .answer →
      m.tag ≠ .coord → g'.settled = g.settled := by
    rintro g' rfl hanswer hcoord
    simp [Memory.hears, hdead, hanswer, hcoord]
  unfold onMessage at hs hg ⊢
  rw [htag] at hs hg ⊢
  cases hk : m.tag with
  | election =>
      simp only [hk] at hs hg ⊢
      -- a running election goes on, a new one is not settled
      by_cases hbusy : n'.lastSent = some .election
      · obtain ⟨-, hcoord, hsends⟩ := onElection_of_election (c := c) hn hbusy
          (g.hears n (.message m rn tested))
        rw [hsends, hhears _ rfl (by simp [hk]) (by simp [hk])] at hg
        rw [hcoord]
        exact hold hg hbusy
      · rw [onElection_settled hbusy hs] at hg
        exact absurd hg (by simp)
  | answer =>
      simp only [hk, onAnswer] at hs
      split at hs
      · exact absurd hs (by simp)
      · split at hs
        · exact absurd hs (by simp)
        · -- lastSent is left alone, and was no ELECTION
          rename_i hne
          exact absurd hs hne
  | coord => exact hsrc
  | aya =>
      simp only [hk, onAYA] at hs
      split at hs
      · exact absurd hs (by simp [isend, count])
      · exact absurd hs (by simp [count])
  | iaa =>
      simp only [hk, hn] at hs hg ⊢
      exact hold ((hhears _ rfl (by simp [hk]) (by simp [hk])).symm.trans hg) hs
  | clock =>
      simp only [hk, hn] at hs hg ⊢
      exact hold ((hhears _ rfl (by simp [hk]) (by simp [hk])).symm.trans hg) hs

theorem tick_onMessage : (onMessage c rank rn tested n).tick = n.tick := by
  unfold onMessage
  split
  · unfold onElection
    simp only
    split
    · rfl
    · split
      · simp [isend, count]
      · simp [isend, count]
  · unfold onAnswer
    split
    · rfl
    · split
      · rfl
      · rfl
  · rfl
  · unfold onAYA
    simp only
    split
    · rfl
    · rfl
  · rfl
  · rfl

/-- **Step lemma**, up to the timeout check. -/
theorem window_receive (h : Steady c rank n) (hw : Heard n g → Window n)
    (hsrc : ∀ m rn tested, i = .message m rn tested → m.src ≠ 0) :
    (receive c rank n i).halted = false → Heard (receive c rank n i) (memoryAt c rank n g i) →
      Window (receive c rank n i) := by
  intro hrunning hheard
  have hsteady := steady_receive h hsrc
  cases hdead : n.coordDead with
  | true =>
      -- a dead coordinator forgets what it receives
      cases i with
      | clock rn tested =>
          unfold memoryAt at hheard
          rw [receive_clock_dead hdead] at hheard ⊢
          exact hw hheard
      | message m rn tested =>
          unfold memoryAt at hheard
          rw [receive_message_dead hdead, Memory.hears, if_pos hdead] at hheard
          rw [receive_message_dead hdead]
          exact hw hheard
      | revive tested =>
          rcases hheard with ⟨-, hs⟩ | ⟨-, hs⟩
          · exact absurd hs (by simp [receive])
          · exact absurd hs (by simp [receive])
  | false =>
      cases i with
      | clock rn tested =>
          unfold memoryAt at hheard
          rw [receive_clock hdead] at hheard hrunning ⊢
          rcases onClock_cases c rank rn tested (n.await ⟨0, .clock⟩) with
            ⟨heq, hrate⟩ | ⟨heq, -⟩ | ⟨heq, -⟩
          · rw [heq] at hheard ⊢
            have hwindow : Window n := hw hheard
            exact window_tick hwindow (hrate hwindow.1)
          · rw [heq] at hrunning
            exact absurd hrunning (by simp)
          · -- an AYA has just been sent
            rw [heq] at hheard
            rcases hheard with ⟨-, hs⟩ | ⟨hanswered, -⟩
            · exact absurd hs (by simp)
            · exact absurd hanswered (by simp [Memory.sends, Memory.send])
      | message m rn tested =>
          unfold memoryAt at hheard
          rw [receive_message hdead] at hheard hsteady ⊢
          refine ⟨?_, Or.inl tick_onMessage⟩
          rcases hheard with ⟨hsettled, hs⟩ | ⟨-, hs⟩
          · exact coord_of_settled rfl rfl (hsrc m rn tested rfl) hdead
              (fun hg hs => (hw (Or.inl ⟨hg, hs⟩)).1) hs hsettled
          · exact hsteady.asking hs
      | revive tested =>
          rcases hheard with ⟨-, hs⟩ | ⟨-, hs⟩
          · exact absurd hs (by simp [receive])
          · exact absurd hs (by simp [receive])

/-! ## The timeout check -/

/-- Every AYA interval fits into a timeout. -/
def Fits (c : Config) : Prop := (twiceAYATime c).natAbs ≤ c.timeoutValue.natAbs + 1

instance (c : Config) : Decidable (Fits c) := by unfold Fits; infer_instance

/-- When the timeout is due, an AYA was due before. -/
theorem not_window_of_timedOut (hfits : Fits c) (h : Steady c rank n)
    (hdue : n.TimedOut c) : ¬ Window n := by
  rintro ⟨-, hzero | ⟨hrate, hticks⟩⟩
  · exact hdue.2 hzero
  · have hle : c.timeoutValue.natAbs ≤ n.tick :=
      Nat.le_of_dvd (Nat.pos_of_ne_zero hdue.2) (Nat.dvd_of_mod_eq_zero hdue.1)
    have hlt := Nat.mod_lt n.AYATick (Nat.pos_of_ne_zero hrate)
    have hmax := h.rate
    unfold Fits at hfits
    omega

theorem steady_declare (h : Steady c rank n) (hne : n.lastSent ≠ some .aya)
    (hidle : rank + 1 < c.size → n.lastSent = some .election) :
    Steady c rank (declare rank tested n) := by
  refine ⟨?_, fun haya => ?_, fun hsize hnone => ?_⟩
  · simpa [declare] using h.rate
  · simp only [declare, sendLoop_lastSent] at haya
    split at haya
    · exact absurd haya hne
    · exact absurd haya (by simp)
  · simp only [declare, sendLoop_lastSent] at hnone
    split at hnone
    · exact absurd (hnone.symm.trans (hidle hsize)) (by simp)
    · exact absurd hnone (by simp)

theorem steady_callElection (h : Steady c rank n) (r : Option Tag)
    (hne : n.lastSent = some .aya → higher c rank ≠ []) :
    Steady c rank { callElection c rank tested n with lastReceived := r } := by
  refine ⟨?_, fun haya => ?_, fun hsize hnone => ?_⟩
  · simpa [callElection] using h.rate
  · simp only [callElection, sendLoop_lastSent] at haya
    split at haya
    · rename_i hnil
      exact absurd hnil (hne haya)
    · exact absurd haya (by simp)
  · simp only [callElection, sendLoop_lastSent, if_neg (higher_ne_nil hsize)] at hnone
    exact absurd hnone (by simp)

/-- **Step lemma** -/
theorem steady_checkTimeout (h : Steady c rank n) (hcoord : System.HasCoord c rank n.coordNode) :
    Steady c rank (checkTimeout c rank tested n) := by
  rcases checkTimeout_cases c rank tested n with heq | ⟨heq, -⟩ | ⟨heq, -⟩
  · rw [heq]
    exact h
  · rw [heq]
    exact steady_of_eq h rfl rfl rfl rfl
  rw [heq]
  -- the cases 0, ELECTION and AYA, and the others
  rcases onTimeout_cases c rank tested n with ⟨heq, hs⟩ | ⟨heq, hs⟩ | ⟨heq, hs⟩ | heq
  · rw [heq]
    rcases timeoutIdle_cases c rank tested n with ⟨heq, -⟩ | ⟨heq, hr⟩ | heq
    · rw [heq]
      exact steady_callElection h _ fun haya => absurd (hs.symm.trans haya) (by simp)
    · rw [heq]
      -- an idle node has received no ELECTION
      refine steady_declare h (by simp [hs]) fun hsize => ?_
      exact absurd hr (h.idle hsize hs)
    · rw [heq]
      exact h
  · rw [heq]
    exact steady_declare h (by simp [hs]) fun _ => hs
  · rw [heq]
    exact steady_callElection h _ fun haya => higher_ne_nil_of_hasCoord hcoord (h.asking haya)
  · rw [heq]
    exact h

/-- A rank that has called an election has not heard anything since. -/
theorem not_heard_callElection (r : Option Tag) (hhigher : n.lastSent = some .aya → higher c rank ≠ [])
    (hnot : n.lastSent ≠ some .election) :
    ¬ Heard { callElection c rank tested n with lastReceived := r }
      (g.sends (callElection c rank tested n).outbox) := by
  rintro (⟨hsettled, hs⟩ | ⟨-, hs⟩)
  · rw [callElection_outbox, Memory.sends_append, Memory.sends_election] at hsettled
    simp only [callElection, sendLoop_lastSent] at hs
    split at hs
    · exact absurd hs hnot
    · rename_i hnonempty
      rw [if_neg hnonempty] at hsettled
      exact absurd hsettled (by simp)
  · simp only [callElection, sendLoop_lastSent] at hs
    split at hs
    · rename_i hnil
      exact absurd hnil (hhigher hs)
    · exact absurd hs (by simp)

/-- **Step lemma**, with AYA intervals that fit into a timeout. -/
theorem window_checkTimeout (hfits : Fits c) (h : Steady c rank n)
    (hcoord : System.HasCoord c rank n.coordNode)
    (hw : n.halted = false → Heard n (g.sends n.outbox) → Window n) :
    (checkTimeout c rank tested n).halted = false →
      Heard (checkTimeout c rank tested n) (g.sends (checkTimeout c rank tested n).outbox) →
        Window (checkTimeout c rank tested n) := by
  intro hrunning hheard
  rcases checkTimeout_cases c rank tested n with heq | ⟨heq, -⟩ | ⟨heq, hok, -, -, hdue⟩
  · rw [heq] at hrunning hheard ⊢
    exact hw hrunning hheard
  · rw [heq] at hrunning
    exact absurd hrunning (by simp)
  -- nobody has been heard of when the timeout is due
  have hnot : ¬ Heard n (g.sends n.outbox) := fun hn =>
    not_window_of_timedOut hfits h hdue (hw hok hn)
  have hdeclare : n.lastSent ≠ some .aya →
      ¬ Heard (declare rank tested n) (g.sends (declare rank tested n).outbox) := by
    rintro haya (⟨hsettled, hs⟩ | ⟨-, hs⟩)
    · rw [declare_outbox, Memory.sends_append, Memory.sends_coord] at hsettled
      simp only [declare, sendLoop_lastSent] at hs
      split at hs
      · exact hnot (Or.inl ⟨hsettled, hs⟩)
      · exact absurd hs (by simp)
    · simp only [declare, sendLoop_lastSent] at hs
      split at hs
      · exact haya hs
      · exact absurd hs (by simp)
  rw [heq] at hheard ⊢
  rcases onTimeout_cases c rank tested n with ⟨heq, hs⟩ | ⟨heq, hs⟩ | ⟨heq, hs⟩ | heq
  · rw [heq] at hheard ⊢
    rcases timeoutIdle_cases c rank tested n with ⟨heq, -⟩ | ⟨heq, -⟩ | heq
    · rw [heq] at hheard
      exact absurd hheard (not_heard_callElection _ (fun haya => absurd (hs.symm.trans haya) (by simp))
        (by simp [hs]))
    · rw [heq] at hheard
      exact absurd hheard (hdeclare (by simp [hs]))
    · rw [heq] at hheard
      exact absurd hheard hnot
  · rw [heq] at hheard
    exact absurd hheard (hdeclare (by simp [hs]))
  · rw [heq] at hheard
    exact absurd hheard (not_heard_callElection _
      (fun haya => higher_ne_nil_of_hasCoord hcoord (h.asking haya)) (by simp [hs]))
  · rw [heq] at hheard
    exact absurd hheard hnot

end Node

namespace System

/-- What the ranks remember after a step. -/
def rememberStep (c : Config) (s : System) (a : SystemAct) (g : ℕ → Memory) : ℕ → Memory :=
  match input s.net a.rank a.stimulus with
  | some i => Function.update g a.rank ((s.nodes a.rank).remember c a.rank (g a.rank) i)
  | none => g

/-- The system with the memory of its ranks. -/
def remembered (c : Config) : Machine (System × (ℕ → Memory)) SystemAct := (machine c).watch (rememberStep c)

/-- The start, with nothing to remember. -/
def beginning (c : Config) : System × (ℕ → Memory) := (start c, fun _ => {})

/-- Messages and coordinators are in order, and all ranks are steady. -/
structure Kept (c : Config) (x : System × (ℕ → Memory)) : Prop where
  ranked : Ranked c x.1
  steady : ∀ rank, (x.1.nodes rank).Steady c rank

/-- All ranks measure their windows. -/
def Windowed (x : System × (ℕ → Memory)) : Prop :=
  ∀ rank, (x.1.nodes rank).halted = false → (x.1.nodes rank).Heard (x.2 rank) →
    (x.1.nodes rank).Window

variable {c : Config} {x : System × (ℕ → Memory)} {a : SystemAct} {i : Input}

theorem remembered_next (h : input x.1.net a.rank a.stimulus = some i) :
    (remembered c).next x a = (nodeStep c x.1 a.rank a.stimulus i,
      Function.update x.2 a.rank ((x.1.nodes a.rank).remember c a.rank (x.2 a.rank) i)) := by
  refine Prod.ext (next_of_input h) ?_
  show rememberStep c x.1 a x.2 = _
  simp only [rememberStep, h]

/-- A message comes from a rank. -/
theorem Kept.source (h : Kept c x) (hin : input x.1.net a.rank a.stimulus = some i) :
    ∀ m rn tested, i = .message m rn tested → m.src ≠ 0 := by
  rintro m rn tested rfl
  exact Nat.ne_of_gt (h.ranked.net m (mem_net_of_input hin).1).src_pos

/-- A rank has a coordinator in order when it checks the timeout. -/
theorem hasCoord_receive (h : Ranked c x.1) (hin : input x.1.net a.rank a.stimulus = some i) :
    HasCoord c a.rank ((x.1.nodes a.rank).receive c a.rank i).coordNode := by
  rcases Node.coordNode_receive c a.rank (x.1.nodes a.rank) i with hold | ⟨m, rn, tested, hi, htag, hsrc⟩
  · rw [hold]
    exact h.coords a.rank
  · obtain ⟨hmem, hrank⟩ := mem_net_of_input (hi ▸ hin)
    have hm := h.net m hmem
    have hdown := hm.down (Or.inl htag)
    rw [hrank] at hdown
    rw [hsrc]
    exact Or.inr ⟨hdown, hm.src_lt⟩

theorem Kept.steady_receive (h : Kept c x) (hin : input x.1.net a.rank a.stimulus = some i) :
    ((x.1.nodes a.rank).receive c a.rank i).Steady c a.rank :=
  Node.steady_receive (h.steady a.rank) (h.source hin)

/-- **Step lemma** -/
theorem kept_next (h : Kept c x) (ha : enabled c x.1 a) : Kept c ((remembered c).next x a) := by
  refine ⟨ranked_next h.ranked ha, fun rank => ?_⟩
  obtain ⟨-, -, i, hin, -⟩ := ha
  rw [remembered_next hin]
  by_cases hrank : rank = a.rank
  · subst hrank
    simp only [nodeStep, Function.update_self]
    exact Node.steady_checkTimeout (h.steady_receive hin) (hasCoord_receive h.ranked hin)
  · simp only [nodeStep, Function.update_of_ne hrank]
    exact h.steady rank

/-- **Step lemma**, with AYA intervals that fit into a timeout. -/
theorem windowed_next (hfits : Node.Fits c) (h : Kept c x) (hw : Windowed x) (ha : enabled c x.1 a) :
    Windowed ((remembered c).next x a) := by
  obtain ⟨-, -, i, hin, haccepts⟩ := ha
  have hrunning := Node.not_halted_of_accepts haccepts
  intro rank
  rw [remembered_next hin]
  by_cases hrank : rank = a.rank
  · subst hrank
    simp only [nodeStep, Function.update_self]
    exact Node.window_checkTimeout hfits (h.steady_receive hin) (hasCoord_receive h.ranked hin)
      (Node.window_receive (h.steady a.rank) (hw a.rank hrunning) (h.source hin))
  · simp only [nodeStep, Function.update_of_ne hrank]
    exact hw rank

theorem steady_start (c : Config) (rank : ℕ) : (Node.start c rank).Steady c rank := by
  unfold Node.start
  split
  · refine ⟨by simp, fun haya => ?_, fun _ _ => by simp⟩
    simp only [Node.sendLoop_lastSent] at haya
    split at haya
    · exact absurd haya (by simp)
    · exact absurd haya (by simp)
  · exact ⟨by simp, fun haya => absurd haya (by simp), fun _ _ => by simp⟩

theorem kept_beginning (c : Config) : Kept c (beginning c) := ⟨ranked_start c, steady_start c⟩

theorem windowed_beginning (c : Config) : Windowed (beginning c) := by
  rintro rank - (⟨hsettled, -⟩ | ⟨hanswered, -⟩)
  · exact absurd hsettled (by simp [beginning])
  · exact absurd hanswered (by simp [beginning])

end System

end DistributedSystem.MpiBully
