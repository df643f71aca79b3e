import DistributedSystem.MpiBully.Divisors
import DistributedSystem.MpiBully.Patience
import Mathlib.Algebra.BigOperators.Group.List.Basic

/-!
# The election that rank 1 calls

As long as no timeout of a lower rank does anything, only the highest rank declares itself. Once
the calls and the declarations have all been received, every rank below follows it. Deliveries
alone always come to that end: a call costs an answer and the calls of its receiver, which go
strictly up.
-/

namespace DistributedSystem.MpiBully

open DistributedSystem.Library

/-- The messages of an election. -/
def Tag.Electoral (t : Tag) : Prop := t = .election ∨ t = .coord ∨ t = .answer

instance (t : Tag) : Decidable t.Electoral := by unfold Tag.Electoral; infer_instance

/-! ## What a message costs -/

/-- The election messages that a call of a rank comes to at most, itself included. -/
def effort (c : Config) (rank : ℕ) : ℕ :=
  if rank + 1 = c.size then c.size else 2 ^ (c.size - 2 - rank) * (c.size + 2)

def cost (c : Config) (m : Packet) : ℕ :=
  match m.tag with
  | .election => effort c m.dst
  | .coord | .answer => 1
  | .aya | .iaa | .clock => 0

def load (c : Config) (ms : List Packet) : ℕ := (ms.map (cost c)).sum

variable {c : Config} {rank rn : ℕ} {tested : Status} {m : Packet} {ms ms' : List Packet}

@[simp] theorem load_nil : load c [] = 0 := rfl

@[simp] theorem load_cons : load c (m :: ms) = cost c m + load c ms := by simp [load]

@[simp] theorem load_append : load c (ms ++ ms') = load c ms + load c ms' := by simp [load]

/-- A message that is taken off the net. -/
theorem load_eraseIdx {k : ℕ} (h : ms[k]? = some m) : load c (ms.eraseIdx k) + cost c m = load c ms := by
  obtain ⟨hk, rfl⟩ := List.getElem?_eq_some_iff.mp h
  have hperm := (List.getElem_cons_eraseIdx_perm hk).map (cost c)
  rw [load, load, ← hperm.sum_eq, List.map_cons, List.sum_cons, Nat.add_comm]

theorem higher_eq_cons (h : rank + 1 < c.size) : higher c rank = (rank + 1) :: higher c (rank + 1) := by
  unfold higher
  obtain ⟨k, hk⟩ := Nat.exists_eq_add_of_lt h
  rw [show c.size - (rank + 1) = (c.size - (rank + 1 + 1)) + 1 by omega, List.range'_succ]

/-- A call leads to an answer and to the calls of its receiver. -/
theorem effort_eq (h : rank + 1 < c.size) :
    effort c rank = ((higher c rank).map (effort c)).sum + 2 := by
  -- from the highest rank downwards
  obtain ⟨k, hk⟩ : ∃ k, c.size = rank + 2 + k := ⟨c.size - (rank + 2), by omega⟩
  induction k generalizing rank with
  | zero =>
      have hlast : higher c (rank + 1) = [] := by simp [higher, hk]
      rw [higher_eq_cons h, hlast]
      simp [effort, hk]
  | succ k ih =>
      have hnext := ih (show rank + 1 + 1 < c.size by omega) (by omega)
      have hdouble : effort c rank = 2 * effort c (rank + 1) := by
        unfold effort
        rw [if_neg (by omega), if_neg (by omega), show c.size - 2 - rank = k + 1 by omega,
          show c.size - 2 - (rank + 1) = k by omega, Nat.pow_succ', Nat.mul_assoc]
      rw [higher_eq_cons h, List.map_cons, List.sum_cons]
      omega

namespace Node

variable {n : Node} {i : Input} {is : List ℕ}

theorem load_packets_election {dlcTime : ℕ} :
    load c (packets rank .election dlcTime is) = (is.map (effort c)).sum := by
  induction is generalizing dlcTime with
  | nil => rfl
  | cons i is ih => simp [packets, ih, cost]

theorem load_packets_coord {dlcTime : ℕ} : load c (packets rank .coord dlcTime is) = is.length := by
  induction is generalizing dlcTime with
  | nil => rfl
  | cons i is ih =>
      simp only [packets, load_cons, ih, cost, List.length_cons]
      omega

/-- A call costs more than what its receiver sends. -/
theorem load_onElection (hn : n.outbox = []) (hpos : 0 < rank) (hlt : rank < c.size) :
    load c (onElection c rank tested n).outbox < effort c rank := by
  have hanswer : load c (isend rank tested .answer n.status.MPI_SOURCE n.count).outbox = 1 := by
    simp [isend, count, hn, cost]
  have heffort : ((higher c rank).map (effort c)).sum + 2 ≤ effort c rank ∨ higher c rank = [] := by
    by_cases hhighest : rank + 1 = c.size
    · exact Or.inr (by simp [higher, hhighest])
    · exact Or.inl (effort_eq (by omega)).ge
  unfold onElection
  simp only
  split
  · -- only the answer
    rw [hanswer]
    unfold effort
    split
    · omega
    · have hle := Nat.le_mul_of_pos_left (c.size + 2) (Nat.two_pow_pos (c.size - 2 - rank))
      omega
  · split
    · -- nobody is above
      rename_i hnone
      simp only [sendLoop_lastSent, ite_eq_left_iff, reduceCtorEq, imp_false, not_not] at hnone
      have hhighest : rank + 1 = c.size := by
        by_contra hlower
        exact higher_ne_nil (show rank + 1 < c.size by omega) hnone
      have hlower : (lower rank).length = rank - 1 := by simp [lower]
      simp only [sendLoop_outbox, load_append, load_packets_election, load_packets_coord, hanswer,
        hnone, hlower, List.map_nil, List.sum_nil]
      rw [effort, if_pos hhighest]
      omega
    · rename_i hsome
      simp only [sendLoop_lastSent, ite_eq_left_iff, reduceCtorEq, imp_false, not_not] at hsome
      simp only [sendLoop_outbox, load_append, load_packets_election, hanswer]
      have := heffort.resolve_right hsome
      omega

theorem load_onMessage (hn : n.outbox = []) (hstatus : n.status = ⟨m.src, m.tag⟩) (hpos : 0 < rank)
    (hlt : rank < c.size) (hdst : m.dst = rank) :
    load c (onMessage c rank rn tested n).outbox ≤ cost c m ∧
      (m.tag.Electoral → load c (onMessage c rank rn tested n).outbox < cost c m) := by
  have htag : n.status.MPI_TAG = m.tag := by rw [hstatus]
  unfold onMessage
  rw [htag]
  cases hk : m.tag with
  | election =>
      have hcost : cost c m = effort c rank := by simp [cost, hk, hdst]
      have hload : load c (onElection c rank tested n).outbox < effort c rank :=
        load_onElection hn hpos hlt
      rw [hcost]
      exact ⟨hload.le, fun _ => hload⟩
  | answer =>
      have hquiet : (onAnswer n).outbox = [] := by
        unfold onAnswer
        split
        · exact hn
        · split
          · exact hn
          · exact hn
      simp [hquiet, cost, hk]
  | coord => simp [onCoord, hn, cost, hk]
  | aya =>
      refine ⟨?_, fun hno => absurd hno (by simp [Tag.Electoral])⟩
      -- an IAA is no election message
      simp only [onAYA]
      split
      · simp [isend, count, hn, cost]
      · simp [count, hn]
  | iaa => simp [hn, Tag.Electoral]
  | clock => simp [hn, Tag.Electoral]

/-- **What a message leads to** is less than the message. -/
theorem load_receive_message (n : Node) (rn : ℕ) (tested : Status) (hpos : 0 < rank)
    (hlt : rank < c.size) (hdst : m.dst = rank) :
    load c (receive c rank n (.message m rn tested)).outbox ≤ cost c m ∧
      (m.tag.Electoral → load c (receive c rank n (.message m rn tested)).outbox < cost c m) := by
  cases hdead : n.coordDead with
  | true =>
      rw [receive_message_dead hdead]
      refine ⟨Nat.zero_le _, fun helectoral => ?_⟩
      rw [await_outbox, load_nil]
      rcases helectoral with htag | htag | htag
      · have heffort : 0 < effort c m.dst := by
          unfold effort
          split
          · omega
          · exact Nat.mul_pos (Nat.two_pow_pos _) (by omega)
        simpa [cost, htag] using heffort
      · simp [cost, htag]
      · simp [cost, htag]
  | false =>
      rw [receive_message hdead]
      exact load_onMessage rfl rfl hpos hlt hdst

/-- A tick brings an AYA at most. -/
theorem mem_outbox_receive_clock (h : m ∈ (receive c rank n (.clock rn tested)).outbox) :
    m.tag = .aya ∧ n.coordNode ≠ 0 := by
  cases hdead : n.coordDead with
  | true =>
      rw [receive_clock_dead hdead] at h
      exact absurd h (by simp)
  | false =>
      rw [receive_clock hdead] at h
      obtain ⟨rfl, hcoord⟩ := mem_outbox_onClock (by simp) h
      exact ⟨rfl, hcoord⟩

theorem load_receive_clock : load c (receive c rank n (.clock rn tested)).outbox = 0 := by
  rw [load, List.sum_eq_zero]
  intro x hx
  obtain ⟨m, hm, rfl⟩ := List.mem_map.mp hx
  have haya := (mem_outbox_receive_clock hm).1
  simp [cost, haya]

/-! ## Messages received -/

theorem coordDead_onMessage (h : (onMessage c rank rn tested n).coordDead = true) :
    n.coordDead = true ∨ n.status.MPI_TAG = .aya := by
  unfold onMessage at h
  split at h
  · unfold onElection at h
    simp only at h
    split at h
    · exact Or.inl h
    · split at h
      · exact Or.inl (by simpa [isend, count] using h)
      · exact Or.inl (by simpa [isend, count] using h)
  · unfold onAnswer at h
    split at h
    · exact Or.inl h
    · split at h
      · exact Or.inl h
      · exact Or.inl h
  · exact Or.inl h
  · rename_i haya
    exact Or.inr haya
  · exact Or.inl h
  · exact Or.inl h

/-- Only an AYA kills. -/
theorem coordDead_receive (h : (receive c rank n i).coordDead = true) :
    n.coordDead = true ∨ ∃ m rn tested, i = .message m rn tested ∧ m.tag = .aya := by
  cases hdead : n.coordDead with
  | true => exact Or.inl rfl
  | false =>
      cases i with
      | clock rn tested =>
          rcases receive_tick c rank rn tested hdead with ⟨-, heq⟩ | ⟨-, -, heq⟩ | ⟨-, -, heq⟩
          · rw [heq] at h
            exact absurd (hdead.symm.trans h) (by simp)
          · rw [heq] at h
            exact absurd (hdead.symm.trans h) (by simp)
          · rw [heq] at h
            exact absurd (hdead.symm.trans h) (by simp)
      | message m rn tested =>
          rw [receive_message hdead] at h
          rcases coordDead_onMessage h with hold | haya
          · exact absurd (hdead.symm.trans hold) (by simp)
          · exact Or.inr ⟨m, rn, tested, rfl, haya⟩
      | revive tested => simp [receive] at h

theorem receive_coord (hdead : n.coordDead = false) (htag : m.tag = .coord) :
    (receive c rank n (.message m rn tested)).coordNode = m.src := by
  have htag' : (n.await ⟨m.src, m.tag⟩).status.MPI_TAG = .coord := htag
  rw [receive_message hdead]
  simp only [onMessage, htag']
  rfl

/-- The highest rank declares itself to all others, whatever else it has heard. -/
theorem receive_election_highest (rn : ℕ) (tested : Status) (hdead : n.coordDead = false)
    (htag : m.tag = .election) (hhigher : higher c rank = []) (hidle : n.lastSent ≠ some .election) :
    ∀ q ∈ lower rank, ∃ d, ⟨rank, q, .coord, d⟩ ∈ (receive c rank n (.message m rn tested)).outbox := by
  have htag' : (n.await ⟨m.src, m.tag⟩).status.MPI_TAG = .election := htag
  have hidle' : ({ n.await ⟨m.src, m.tag⟩ with
      tick := 0, dlcTime := if m.dlcTime > n.dlcTime then m.dlcTime else n.dlcTime } : Node).lastSent ≠
        some .election := hidle
  rw [receive_message hdead]
  simp only [onMessage, htag']
  exact (onElection_of_highest tested hhigher hidle').2.2.2

/-- The timeout check adds one loop of messages, or nothing. -/
theorem outbox_checkTimeout (c : Config) (rank : ℕ) (tested : Status) (n : Node) :
    (checkTimeout c rank tested n).outbox = n.outbox ∨
      (∃ d, (checkTimeout c rank tested n).outbox = n.outbox ++ packets rank .coord d (lower rank)) ∨
      ∃ d, (checkTimeout c rank tested n).outbox = n.outbox ++ packets rank .election d (higher c rank) := by
  have hdeclare : ∃ d, (declare rank tested n).outbox = n.outbox ++ packets rank .coord d (lower rank) :=
    ⟨_, declare_outbox⟩
  have hcall : ∃ d, (callElection c rank tested n).outbox =
      n.outbox ++ packets rank .election d (higher c rank) := ⟨_, callElection_outbox⟩
  rcases checkTimeout_cases c rank tested n with heq | ⟨heq, -⟩ | ⟨heq, -⟩
  · exact Or.inl (by rw [heq])
  · exact Or.inl (by rw [heq])
  rw [heq]
  rcases onTimeout_cases c rank tested n with ⟨heq, -⟩ | ⟨heq, -⟩ | ⟨heq, -⟩ | heq
  · rw [heq]
    rcases timeoutIdle_cases c rank tested n with ⟨heq, -⟩ | ⟨heq, -⟩ | heq
    · rw [heq]
      exact Or.inr (Or.inr hcall)
    · rw [heq]
      exact Or.inr (Or.inl hdeclare)
    · exact Or.inl (by rw [heq])
  · rw [heq]
    exact Or.inr (Or.inl hdeclare)
  · rw [heq]
    exact Or.inr (Or.inr hcall)
  · exact Or.inl (by rw [heq])

theorem mem_outbox_handle (h : m ∈ (receive c rank n i).outbox) : m ∈ (handle c rank n i).outbox := by
  unfold handle
  rcases outbox_checkTimeout c rank i.tested (receive c rank n i) with heq | ⟨d, heq⟩ | ⟨d, heq⟩
  · rw [heq]
    exact h
  · rw [heq]
    exact List.mem_append_left _ h
  · rw [heq]
    exact List.mem_append_left _ h

theorem coordDead_checkTimeout : (checkTimeout c rank tested n).coordDead = n.coordDead := by
  rcases checkTimeout_cases c rank tested n with heq | ⟨heq, -⟩ | ⟨heq, -⟩
  · rw [heq]
  · rw [heq]
  rw [heq]
  rcases onTimeout_cases c rank tested n with ⟨heq, -⟩ | ⟨heq, -⟩ | ⟨heq, -⟩ | heq
  · rw [heq]
    rcases timeoutIdle_cases c rank tested n with ⟨heq, -⟩ | ⟨heq, -⟩ | heq
    · rw [heq]
      simp [callElection]
    · rw [heq]
      simp [declare]
    · rw [heq]
  · rw [heq]
    simp [declare]
  · rw [heq]
    simp [callElection]
  · rw [heq]

theorem coordDead_handle (h : (handle c rank n i).coordDead = true) :
    n.coordDead = true ∨ ∃ m rn tested, i = .message m rn tested ∧ m.tag = .aya :=
  coordDead_receive (coordDead_checkTimeout.symm.trans h)

/-- The timeout check of the iteration changes nothing. -/
def Unprompted (c : Config) (rank : ℕ) (n : Node) (i : Input) : Prop :=
  handle c rank n i = receive c rank n i

instance (c : Config) (rank : ℕ) (n : Node) (i : Input) : Decidable (Unprompted c rank n i) := by
  unfold Unprompted; infer_instance

end Node

namespace System

/-! ## Who declares itself -/

/-- The timeout check of the step does nothing. -/
def Unprompted (c : Config) (s : System) (a : SystemAct) : Prop :=
  ∀ i ∈ input s.net a.rank a.stimulus, (s.nodes a.rank).Unprompted c a.rank i

instance (c : Config) (s : System) (a : SystemAct) : Decidable (Unprompted c s a) := by
  unfold Unprompted; infer_instance

/-- No rank but the highest does anything at a timeout. -/
def Undisturbed (c : Config) (s : System) (a : SystemAct) : Prop :=
  a.rank ≠ c.size - 1 → Unprompted c s a

instance (c : Config) (s : System) (a : SystemAct) : Decidable (Undisturbed c s a) := by
  unfold Undisturbed; infer_instance

/-- Nobody declares itself but the highest rank, which alone is asked and can play dead. -/
structure Settling (c : Config) (s : System) : Prop where
  ranked : Ranked c s
  consistent : ∀ rank, (s.nodes rank).Consistent c rank
  coords : ∀ m ∈ s.net, m.tag = .coord → m.src = c.size - 1
  ayas : ∀ m ∈ s.net, m.tag = .aya → m.dst = c.size - 1
  leaders : ∀ rank, (s.nodes rank).coordNode = 0 ∨ (s.nodes rank).coordNode = c.size - 1
  alive : ∀ rank, rank ≠ c.size - 1 → (s.nodes rank).coordDead = false

/-- A call to the highest rank is in flight, and nothing has come of the others yet. -/
structure Pending (c : Config) (s : System) : Prop where
  call : ∃ m ∈ s.net, m.tag = .election ∧ m.dst = c.size - 1
  early : ∀ m ∈ s.net, m.tag = .election ∨ m.tag = .answer
  unled : ∀ rank, (s.nodes rank).coordNode = 0
  alive : ∀ rank, (s.nodes rank).coordDead = false

/-- Every other rank follows the highest one, or will. -/
def Announced (c : Config) (s : System) : Prop :=
  ∀ rank, 0 < rank → rank < c.size - 1 → (s.nodes rank).coordNode = c.size - 1 ∨
    ∃ m ∈ s.net, m.tag = .coord ∧ m.dst = rank

variable {s : System} {a : SystemAct} {i : Input} {st : Stimulus}

theorem nodes_next (hin : input s.net a.rank a.stimulus = some i) (rank : ℕ) : (next c s a).nodes rank =
    if rank = a.rank then (s.nodes a.rank).handle c a.rank i else s.nodes rank := by
  rw [next_of_input hin]
  by_cases hrank : rank = a.rank
  · subst hrank
    simp only [nodeStep, Function.update_self, if_true]
  · simp only [nodeStep, Function.update_of_ne hrank, if_neg hrank]

theorem net_next (hin : input s.net a.rank a.stimulus = some i) :
    (next c s a).net = remaining s.net a.stimulus ++ ((s.nodes a.rank).handle c a.rank i).outbox := by
  rw [next_of_input hin, nodeStep]

/-- A delivery hands over the message at its place. -/
theorem packet_of_input {k : ℕ} (hin : input s.net rank (.deliver k rn tested) = some i) :
    ∃ m, s.net[k]? = some m ∧ m.dst = rank ∧ i = .message m rn tested := by
  unfold input at hin
  cases hk : s.net[k]? with
  | none => simp [hk] at hin
  | some m =>
      simp only [hk, Option.ite_none_right_eq_some, Option.some.injEq] at hin
      exact ⟨m, rfl, hin.1, hin.2.symm⟩

/-- A message that is in flight no more has been delivered. -/
theorem delivered_of_not_mem_remaining (hin : input s.net rank st = some i) (hm : m ∈ s.net)
    (hgone : m ∉ remaining s.net st) : m.dst = rank ∧ ∃ rn tested, i = .message m rn tested := by
  cases st with
  | clock rn tested => exact absurd hm hgone
  | revive tested => exact absurd hm hgone
  | deliver k rn tested =>
      obtain ⟨m', hk, hdst, rfl⟩ := packet_of_input hin
      have hsame : m' = m := by
        by_contra hne
        refine hgone ?_
        obtain ⟨k', hk'⟩ := List.getElem?_of_mem hm
        refine List.mem_eraseIdx_iff_getElem?.mpr ⟨k', fun heq => hne ?_, hk'⟩
        rw [heq, hk] at hk'
        exact Option.some.inj hk'
      subst hsame
      exact ⟨hdst, rn, tested, rfl⟩

/-- Without a timeout, the highest rank alone sends COORD. -/
theorem coord_of_mem_handle (hidle : Undisturbed c s a) (hlt : a.rank < c.size)
    (hin : input s.net a.rank a.stimulus = some i)
    (hm : m ∈ ((s.nodes a.rank).handle c a.rank i).outbox) (htag : m.tag = .coord) :
    m.src = c.size - 1 := by
  by_cases htop : a.rank = c.size - 1
  · exact (Node.sends_handle hm).1.trans htop
  · rw [hidle htop i hin] at hm
    obtain ⟨-, hhighest⟩ := Node.mem_outbox_receive hm
    exact absurd (hhighest htag) (Node.higher_ne_nil (by omega))

/-- **Step lemma** -/
theorem settling_next (h : Settling c s) (ha : enabled c s a) (hidle : Undisturbed c s a) :
    Settling c (next c s a) := by
  have hranked := ranked_next h.ranked ha
  obtain ⟨hpos, hlt, i, hin, -⟩ := ha
  refine ⟨hranked, fun rank => ?_, fun m hm htag => ?_, fun m hm htag => ?_, fun rank => ?_,
    fun rank hrank => ?_⟩
  · rw [nodes_next hin]
    split
    · rename_i heq
      rw [heq]
      exact Node.consistent_handle (h.consistent a.rank) i
    · exact h.consistent rank
  · rw [net_next hin] at hm
    rcases List.mem_append.mp hm with hm | hm
    · exact h.coords m (mem_of_mem_remaining hm) htag
    · exact coord_of_mem_handle hidle hlt hin hm htag
  · rw [net_next hin] at hm
    rcases List.mem_append.mp hm with hm | hm
    · exact h.ayas m (mem_of_mem_remaining hm) htag
    · -- the coordinator is asked
      obtain ⟨src, dst, tag, dlcTime⟩ := m
      obtain ⟨-, hsends⟩ := Node.sends_handle hm
      subst htag
      cases hsends with
      | aya hi hdst hcoord =>
          rcases h.leaders a.rank with hzero | hleader
          · exact absurd (hdst.symm.trans hzero) hcoord
          · exact hdst.symm.trans hleader
  · rw [nodes_next hin]
    split
    · rcases Node.coordNode_handle c a.rank (s.nodes a.rank) i with
        hold | hzero | ⟨m, rn, tested, hi, htag, hsrc⟩
      · rw [hold]
        exact h.leaders a.rank
      · exact Or.inl hzero
      · obtain ⟨hmem, -⟩ := mem_net_of_input (hi ▸ hin)
        rw [hsrc]
        exact Or.inr (h.coords m hmem htag)
    · exact h.leaders rank
  · rw [nodes_next hin]
    split
    · rename_i heq
      subst heq
      by_contra hdead
      rw [Bool.not_eq_false] at hdead
      rcases Node.coordDead_handle hdead with hold | ⟨m, rn, tested, hi, htag⟩
      · exact absurd ((h.alive a.rank hrank).symm.trans hold) (by simp)
      · obtain ⟨hmem, hdst⟩ := mem_net_of_input (hi ▸ hin)
        exact hrank (hdst.symm.trans (h.ayas m hmem htag))
    · exact h.alive rank hrank

/-- A declaration stays in flight until it is heard. -/
theorem announced_next (h : Settling c s) (hannounced : Announced c s) (ha : enabled c s a)
    (hidle : Undisturbed c s a) : Announced c (next c s a) := by
  obtain ⟨hpos, hlt, i, hin, -⟩ := ha
  intro rank hrank htop
  rw [nodes_next hin, net_next hin]
  rcases hannounced rank hrank htop with hleader | ⟨m, hm, htag, hdst⟩
  · left
    split
    · rename_i heq
      subst heq
      rw [hidle (by omega) i hin]
      rcases Node.coordNode_receive c a.rank (s.nodes a.rank) i with hold | ⟨m, rn, tested, hi, htag, hsrc⟩
      · rw [hold]
        exact hleader
      · obtain ⟨hmem, -⟩ := mem_net_of_input (hi ▸ hin)
        rw [hsrc]
        exact h.coords m hmem htag
    · exact hleader
  · by_cases hkept : m ∈ remaining s.net a.stimulus
    · exact Or.inr ⟨m, List.mem_append_left _ hkept, htag, hdst⟩
    · -- this is the step that delivers it
      obtain ⟨hrecv, rn, tested, rfl⟩ := delivered_of_not_mem_remaining hin hm hkept
      left
      have halive := h.alive a.rank (by omega)
      rw [if_pos (hdst.symm.trans hrecv), hidle (by omega) _ hin, Node.receive_coord halive htag]
      exact h.coords m hm htag

/-- A loop of COORD by the highest rank reaches everybody. -/
theorem announced_of_loop (hin : input s.net a.rank a.stimulus = some i)
    (htop : a.rank = c.size - 1)
    (hloop : ∀ q ∈ lower a.rank, ∃ d, ⟨a.rank, q, .coord, d⟩ ∈ ((s.nodes a.rank).handle c a.rank i).outbox) :
    Announced c (next c s a) := by
  intro rank hrank hbelow
  obtain ⟨d, hd⟩ := hloop rank (mem_lower.mpr ⟨hrank, by omega⟩)
  rw [net_next hin]
  exact Or.inr ⟨_, List.mem_append_right _ hd, rfl, rfl⟩

/-- A step of the election before the highest rank has declared itself. -/
theorem pending_of_early (hpending : Pending c s) (hin : input s.net a.rank a.stimulus = some i)
    (hbelow : ∀ m rn tested, i = .message m rn tested → a.rank ≠ c.size - 1)
    (hearly : ∀ m ∈ ((s.nodes a.rank).handle c a.rank i).outbox, m.tag = .election ∨ m.tag = .answer) :
    Pending c (next c s a) := by
  obtain ⟨call, hcall, hcallTag, hcallDst⟩ := hpending.call
  -- what is delivered is a call or an answer
  have hmessage : ∀ m rn tested, i = .message m rn tested → m.tag ≠ .coord ∧ m.tag ≠ .aya := by
    intro m rn tested hi
    obtain ⟨hmem, -⟩ := mem_net_of_input (hi ▸ hin)
    rcases hpending.early m hmem with htag | htag
    · simp [htag]
    · simp [htag]
  refine ⟨⟨call, ?_, hcallTag, hcallDst⟩, fun m hm => ?_, fun rank => ?_, fun rank => ?_⟩
  · rw [net_next hin]
    refine List.mem_append_left _ ?_
    by_contra hgone
    obtain ⟨hrecv, rn, tested, hi⟩ := delivered_of_not_mem_remaining hin hcall hgone
    exact hbelow call rn tested hi (hrecv.symm.trans hcallDst)
  · rw [net_next hin] at hm
    rcases List.mem_append.mp hm with hm | hm
    · exact hpending.early m (mem_of_mem_remaining hm)
    · exact hearly m hm
  · rw [nodes_next hin]
    split
    · rcases Node.coordNode_handle c a.rank (s.nodes a.rank) i with
        hold | hzero | ⟨m, rn, tested, hi, htag, -⟩
      · rw [hold]
        exact hpending.unled a.rank
      · exact hzero
      · exact absurd htag (hmessage m rn tested hi).1
    · exact hpending.unled rank
  · rw [nodes_next hin]
    split
    · by_contra hdead
      rw [Bool.not_eq_false] at hdead
      rcases Node.coordDead_handle hdead with hold | ⟨m, rn, tested, hi, htag⟩
      · exact absurd ((hpending.alive a.rank).symm.trans hold) (by simp)
      · exact (hmessage m rn tested hi).2 htag
    · exact hpending.alive rank

/-- Below the highest rank, only calls and answers are exchanged. -/
theorem pending_next_lower (hpending : Pending c s) (hlt : a.rank < c.size)
    (hin : input s.net a.rank a.stimulus = some i) (hidle : Undisturbed c s a)
    (hbelow : a.rank ≠ c.size - 1) : Pending c (next c s a) := by
  refine pending_of_early hpending hin (fun _ _ _ _ => hbelow) fun m hm => ?_
  rw [hidle hbelow i hin] at hm
  obtain ⟨⟨-, hsends⟩, hcoord⟩ := Node.mem_outbox_receive hm
  obtain ⟨src, dst, tag, dlcTime⟩ := m
  cases hsends with
  | election hdst => exact Or.inl rfl
  | answer hi htag hdst => exact Or.inr rfl
  | aya hi hdst hne => exact absurd (hdst.symm.trans (hpending.unled a.rank)) hne
  | iaa hi htag hdst hrn =>
      obtain ⟨hmem, -⟩ := mem_net_of_input (hi ▸ hin)
      rcases hpending.early _ hmem with h | h
      · exact absurd (htag.symm.trans h) (by simp)
      · exact absurd (htag.symm.trans h) (by simp)
  | coord hdst => exact absurd (hcoord rfl) (Node.higher_ne_nil (by omega))

/-- The highest rank declares itself when it is called, and perhaps at a timeout before. -/
theorem pending_next_highest (hsize : 3 ≤ c.size) (h : Settling c s) (hpending : Pending c s)
    (hin : input s.net a.rank a.stimulus = some i) (hacc : (s.nodes a.rank).accepts i)
    (htop : a.rank = c.size - 1) : Pending c (next c s a) ∨ Announced c (next c s a) := by
  have halive := hpending.alive a.rank
  have hhigher : higher c a.rank = [] := by
    rw [htop]
    exact higher_highest (by omega)
  cases i with
  | revive tested => exact absurd (halive.symm.trans hacc.2) (by simp)
  | message m rn tested =>
      obtain ⟨hmem, hdst⟩ := mem_net_of_input hin
      -- an answer goes down, so the message is a call
      have htag : m.tag = .election := by
        refine (hpending.early m hmem).resolve_right fun hanswer => ?_
        have horder := h.ranked.net m hmem
        have hdown := horder.down (Or.inr (Or.inl hanswer))
        have hsrc := horder.src_lt
        omega
      have hcoords := Node.receive_election_highest rn tested halive htag hhigher
        fun helection => (h.consistent a.rank).election helection hhigher
      refine Or.inr (announced_of_loop hin htop fun q hq => ?_)
      obtain ⟨d, hd⟩ := hcoords q hq
      exact ⟨d, Node.mem_outbox_handle hd⟩
  | clock rn tested =>
      have hquiet : ((s.nodes a.rank).receive c a.rank (.clock rn tested)).outbox = [] := by
        refine List.eq_nil_iff_forall_not_mem.mpr fun m hm => ?_
        exact (Node.mem_outbox_receive_clock hm).2 (hpending.unled a.rank)
      have hnone : ((s.nodes a.rank).handle c a.rank (.clock rn tested)).outbox = [] →
          Pending c (next c s a) := by
        intro hout
        refine pending_of_early hpending hin (fun m rn tested hi => absurd hi (by simp)) fun m hm => ?_
        rw [hout] at hm
        exact absurd hm List.not_mem_nil
      rcases Node.outbox_checkTimeout c a.rank tested ((s.nodes a.rank).receive c a.rank (.clock rn tested))
        with heq | ⟨d, heq⟩ | ⟨d, heq⟩
      · exact Or.inl (hnone (heq.trans hquiet))
      · refine Or.inr (announced_of_loop hin htop fun q hq => ?_)
        obtain ⟨d', hd'⟩ := Node.exists_mem_packets a.rank .coord d hq
        refine ⟨d', ?_⟩
        show _ ∈ (Node.checkTimeout c a.rank tested _).outbox
        rw [heq]
        exact List.mem_append_right _ hd'
      · rw [hquiet, hhigher] at heq
        exact Or.inl (hnone heq)

theorem tag_of_mem_start (hm : m ∈ (start c).net) : m.tag = .election := by
  simp only [start, Node.start, if_pos, Node.sendLoop_outbox, List.nil_append] at hm
  exact (Node.mem_packets hm).2.1

theorem settling_start (c : Config) : Settling c (start c) := by
  refine ⟨ranked_start c, Node.consistent_start c, fun m hm htag => ?_, fun m hm htag => ?_,
    fun rank => Or.inl (start_unasked c rank).1, fun rank _ => (start_running c rank).2⟩
  · exact absurd ((tag_of_mem_start hm).symm.trans htag) (by simp)
  · exact absurd ((tag_of_mem_start hm).symm.trans htag) (by simp)

theorem pending_start (hsize : 3 ≤ c.size) : Pending c (start c) := by
  obtain ⟨d, hd⟩ := exists_election_start (c := c) (r := c.size - 1) (by omega) (by omega)
  exact ⟨⟨_, hd, rfl, rfl⟩, fun m hm => Or.inl (tag_of_mem_start hm),
    fun rank => (start_unasked c rank).1, fun rank => (start_running c rank).2⟩

/-- What every run keeps that no timeout below the highest rank disturbs. -/
def Electing (c : Config) (s : System) : Prop := Settling c s ∧ (Pending c s ∨ Announced c s)

theorem electing_next (hsize : 3 ≤ c.size) (h : Electing c s) (ha : enabled c s a)
    (hidle : Undisturbed c s a) : Electing c (next c s a) := by
  obtain ⟨hsettling, hpending | hannounced⟩ := h
  · refine ⟨settling_next hsettling ha hidle, ?_⟩
    obtain ⟨-, hlt, i, hin, hacc⟩ := ha
    by_cases htop : a.rank = c.size - 1
    · exact pending_next_highest hsize hsettling hpending hin hacc htop
    · exact Or.inl (pending_next_lower hpending hlt hin hidle htop)
  · exact ⟨settling_next hsettling ha hidle, Or.inr (announced_next hsettling hannounced ha hidle)⟩

/-- With no call and no COORD in flight, the election is over. -/
theorem Electing.elected (h : Electing c s) (hquiet : ∀ m ∈ s.net, m.tag ≠ .election ∧ m.tag ≠ .coord)
    (hpos : 0 < rank) (hlt : rank < c.size - 1) : (s.nodes rank).coordNode = c.size - 1 := by
  obtain ⟨-, hpending | hannounced⟩ := h
  · obtain ⟨m, hm, htag, -⟩ := hpending.call
    exact absurd htag (hquiet m hm).1
  · rcases hannounced rank hpos hlt with hleader | ⟨m, hm, htag, -⟩
    · exact hleader
    · exact absurd htag (hquiet m hm).2

/-- **The highest rank is elected**: in every run in which no timeout of a lower rank does
    anything, whatever the order of messages and clock ticks, only the highest rank sends COORD,
    no rank has another coordinator, and all have this one when no call and no COORD is in
    flight, even if it has died since. -/
theorem highest_rank_elected (c : Config) (hsize : 3 ≤ c.size) (as : List SystemAct)
    (hrun : (machine c).Along (fun s a => enabled c s a ∧ Undisturbed c s a) (start c) as) :
    (∀ m ∈ ((machine c).after (start c) as).net, m.tag = .coord → m.src = c.size - 1) ∧
      (∀ rank, (((machine c).after (start c) as).nodes rank).coordNode = 0 ∨
        (((machine c).after (start c) as).nodes rank).coordNode = c.size - 1) ∧
      ((∀ m ∈ ((machine c).after (start c) as).net, m.tag ≠ .election ∧ m.tag ≠ .coord) →
        ∀ rank, 0 < rank → rank < c.size - 1 →
          (((machine c).after (start c) as).nodes rank).coordNode = c.size - 1) := by
  have helecting : Electing c ((machine c).after (start c) as) :=
    hrun.invariant ⟨settling_start c, Or.inl (pending_start hsize)⟩
      fun s a hs ha => electing_next hsize hs ha.1 ha.2
  exact ⟨helecting.1.coords, helecting.1.leaders, fun hquiet rank hpos hlt =>
    helecting.elected hquiet hpos hlt⟩

/-- Rank 2 of 3 answers, declares itself, and is asked by rank 1. -/
theorem highest_rank_elected_ranks :
    (∀ m ∈ ((machine (ranks 3)).after (start (ranks 3)) firstElection).net, m.tag = .coord → m.src = 2) ∧
      (∀ rank, (((machine (ranks 3)).after (start (ranks 3)) firstElection).nodes rank).coordNode = 0 ∨
        (((machine (ranks 3)).after (start (ranks 3)) firstElection).nodes rank).coordNode = 2) ∧
      ((∀ m ∈ ((machine (ranks 3)).after (start (ranks 3)) firstElection).net,
        m.tag ≠ .election ∧ m.tag ≠ .coord) → ∀ rank, 0 < rank → rank < 2 →
          (((machine (ranks 3)).after (start (ranks 3)) firstElection).nodes rank).coordNode = 2) :=
  highest_rank_elected (ranks 3) (by decide) firstElection (by decide +kernel)

/-! ## How long it takes -/

/-- The step delivers a message of an election. -/
def DeliversElectoral (s : System) (a : SystemAct) : Prop :=
  match a.stimulus with
  | .deliver k _ _ => ∃ m ∈ s.net[k]?, m.tag.Electoral
  | _ => False

instance (s : System) (a : SystemAct) : Decidable (DeliversElectoral s a) := by
  unfold DeliversElectoral; split <;> infer_instance

/-- **Potential**: no step without a timeout adds to what the election can still cost, and every
    election message that is delivered takes from it. -/
theorem load_next (ha : enabled c s a) (hidle : Unprompted c s a) :
    load c (next c s a).net ≤ load c s.net ∧
      (DeliversElectoral s a → load c (next c s a).net < load c s.net) := by
  obtain ⟨hpos, hlt, i, hin, -⟩ := ha
  rw [net_next hin, hidle i hin, load_append]
  unfold DeliversElectoral
  cases hst : a.stimulus with
  | clock rn tested =>
      rw [hst] at hin
      obtain rfl := Option.some.inj hin
      simp [remaining, Node.load_receive_clock]
  | revive tested =>
      rw [hst] at hin
      obtain rfl := Option.some.inj hin
      simp [remaining, Node.receive]
  | deliver k rn tested =>
      rw [hst] at hin
      obtain ⟨m, hk, hdst, rfl⟩ := packet_of_input hin
      have herase := load_eraseIdx (c := c) hk
      obtain ⟨hle, hless⟩ := Node.load_receive_message (s.nodes a.rank) rn tested hpos hlt hdst
      constructor
      · show load c (s.net.eraseIdx k) + _ ≤ _
        omega
      · rintro ⟨m', hm', helectoral⟩
        obtain rfl := Option.some.inj (hk.symm.trans hm')
        have hdrop := hless helectoral
        show load c (s.net.eraseIdx k) + _ < _
        omega

theorem load_start (hsize : 3 ≤ c.size) :
    load c (start c).net = 2 ^ (c.size - 3) * (c.size + 2) - 2 := by
  have heffort := effort_eq (show 1 + 1 < c.size by omega)
  have hclosed : effort c 1 = 2 ^ (c.size - 3) * (c.size + 2) := by
    rw [effort, if_neg (by omega), Nat.sub_sub]
  have hload : load c (start c).net = ((higher c 1).map (effort c)).sum := by
    simp only [start, Node.start, if_pos, Node.sendLoop_outbox, List.nil_append,
      Node.load_packets_election]
  omega

/-- **The election is bounded**: as long as no timeout does anything, at most
    `2 ^ (size - 3) * (size + 2) - 2` messages of the election are delivered. -/
theorem election_deliveries_le (c : Config) (hsize : 3 ≤ c.size) (as : List SystemAct)
    (hrun : (machine c).Along (fun s a => enabled c s a ∧ Unprompted c s a) (start c) as) :
    (machine c).count DeliversElectoral (start c) as ≤ 2 ^ (c.size - 3) * (c.size + 2) - 2 := by
  have hcount := hrun.count_add_le (I := fun _ => True) (P := DeliversElectoral)
    (fun s => load c s.net) trivial (fun _ _ _ _ => trivial) (fun s a _ ha => (load_next ha.1 ha.2).1)
    fun s a _ ha hdelivers => (load_next ha.1 ha.2).2 hdelivers
  rw [load_start hsize] at hcount
  omega

/-! ## Deliveries alone -/

/-- The step is a delivery. -/
def IsDelivery (a : SystemAct) : Prop := ∃ k rn tested, a.stimulus = .deliver k rn tested

instance (a : SystemAct) : Decidable (IsDelivery a) :=
  match a with
  | ⟨_, .deliver k rn tested⟩ => isTrue ⟨k, rn, tested, rfl⟩
  | ⟨_, .clock _ _⟩ => isFalse (by rintro ⟨_, _, _, h⟩; exact absurd h (by simp))
  | ⟨_, .revive _⟩ => isFalse (by rintro ⟨_, _, _, h⟩; exact absurd h (by simp))

theorem unprompted_message {n : Node} (hne : c.timeoutValue ≠ 0) :
    n.Unprompted c rank (.message m rn tested) := by
  unfold Node.Unprompted Node.handle
  cases hdead : n.coordDead with
  | true =>
      rw [Node.receive_message_dead hdead]
      exact if_pos (Or.inr hdead)
  | false =>
      -- a message puts the timeout off
      refine Node.checkTimeout_of_not_timedOut hne fun hdue => hdue.2 ?_
      rw [Node.receive_message hdead, Node.tick_onMessage]

/-- The messages in flight belong to the election, and no rank has ended. -/
structure Delivering (c : Config) (s : System) : Prop where
  electing : Electing c s
  electoral : ∀ m ∈ s.net, m.tag.Electoral
  running : ∀ rank, (s.nodes rank).halted = false

theorem unprompted_of_isDelivery (hne : c.timeoutValue ≠ 0) (hdelivery : IsDelivery a) :
    Unprompted c s a := by
  obtain ⟨k, rn, tested, hst⟩ := hdelivery
  intro i hin
  rw [hst] at hin
  obtain ⟨m, -, -, rfl⟩ := packet_of_input hin
  exact unprompted_message hne

theorem deliversElectoral_of_isDelivery (h : Delivering c s) (ha : enabled c s a)
    (hdelivery : IsDelivery a) : DeliversElectoral s a := by
  obtain ⟨-, -, i, hin, -⟩ := ha
  obtain ⟨k, rn, tested, hst⟩ := hdelivery
  rw [hst] at hin
  obtain ⟨m, hk, -, -⟩ := packet_of_input hin
  simp only [DeliversElectoral, hst]
  exact ⟨m, hk, h.electoral m (List.mem_of_getElem? hk)⟩

theorem delivering_next (hsize : 3 ≤ c.size) (hne : c.timeoutValue ≠ 0) (h : Delivering c s)
    (ha : enabled c s a) (hdelivery : IsDelivery a) : Delivering c (next c s a) := by
  have hidle : Unprompted c s a := unprompted_of_isDelivery hne hdelivery
  refine ⟨electing_next hsize h.electing ha fun _ => hidle, fun m hm => ?_, fun rank => ?_⟩
  · obtain ⟨-, -, i, hin, -⟩ := ha
    rw [net_next hin, hidle i hin] at hm
    rcases List.mem_append.mp hm with hm | hm
    · exact h.electoral m (mem_of_mem_remaining hm)
    · -- an IAA answers an AYA, and an AYA needs a tick
      obtain ⟨k, rn, tested, hst⟩ := hdelivery
      rw [hst] at hin
      obtain ⟨m', hk, -, rfl⟩ := packet_of_input hin
      obtain ⟨⟨-, hsends⟩, -⟩ := Node.mem_outbox_receive hm
      obtain ⟨src, dst, tag, dlcTime⟩ := m
      cases hsends with
      | election hdst => exact Or.inl rfl
      | coord hdst => exact Or.inr (Or.inl rfl)
      | answer hi htag hdst => exact Or.inr (Or.inr rfl)
      | aya hi hdst hcoord => exact absurd hi (by simp)
      | iaa hi htag hdst hrn =>
          obtain ⟨rfl, -, -⟩ := Input.message.inj hi
          have helectoral := h.electoral _ (List.mem_of_getElem? hk)
          rw [htag] at helectoral
          exact absurd helectoral (by decide)
  · obtain ⟨-, -, i, hin, -⟩ := ha
    obtain ⟨k, rn, tested, hst⟩ := hdelivery
    rw [nodes_next hin, hidle i hin]
    rw [hst] at hin
    obtain ⟨m', -, -, rfl⟩ := packet_of_input hin
    split
    · by_contra hhalted
      rw [Bool.not_eq_false, Node.halted_receive] at hhalted
      simp [h.running a.rank] at hhalted
    · exact h.running rank

/-- **Deliveries elect the highest rank**: from the start, deliveries in any order come to an end,
    and when none is possible any more, nothing is in flight and all other ranks follow the
    highest one. -/
theorem deliveries_elect_highest (c : Config) (hsize : 3 ≤ c.size) (hne : c.timeoutValue ≠ 0)
    (as : List SystemAct)
    (hrun : (machine c).Along (fun s a => enabled c s a ∧ IsDelivery a) (start c) as) :
    as.length ≤ 2 ^ (c.size - 3) * (c.size + 2) - 2 ∧
      ((∀ a, IsDelivery a → ¬ enabled c ((machine c).after (start c) as) a) →
        ((machine c).after (start c) as).net = [] ∧
          ∀ rank, 0 < rank → rank < c.size - 1 →
            (((machine c).after (start c) as).nodes rank).coordNode = c.size - 1) := by
  have hstart : Delivering c (start c) :=
    ⟨⟨settling_start c, Or.inl (pending_start hsize)⟩, fun m hm => Or.inl (tag_of_mem_start hm),
      fun rank => (start_running c rank).1⟩
  have hstep : ∀ s a, Delivering c s → enabled c s a ∧ IsDelivery a → Delivering c (next c s a) :=
    fun s a hs ha => delivering_next hsize hne hs ha.1 ha.2
  have hafter := hrun.invariant hstart hstep
  constructor
  · -- every step is one that the potential counts
    have hall := hrun.strengthen (D := DeliversElectoral) hstart hstep
      fun s a hs ha => deliversElectoral_of_isDelivery hs ha.1 ha.2
    rw [← Machine.count_eq_length hall]
    exact election_deliveries_le c hsize as
      (hrun.mono fun s a ha => ⟨ha.1, unprompted_of_isDelivery hne ha.2⟩)
  · intro hstuck
    have hnet : ((machine c).after (start c) as).net = [] := by
      by_contra hne'
      obtain ⟨m, hm⟩ := List.exists_mem_of_ne_nil _ hne'
      obtain ⟨k, hk⟩ := List.getElem?_of_mem hm
      have horder := hafter.electing.1.ranked.net m hm
      refine hstuck ⟨m.dst, .deliver k 0 ⟨0, .clock⟩⟩ ⟨k, 0, ⟨0, .clock⟩, rfl⟩
        ⟨horder.dst_pos, horder.dst_lt, .message m 0 ⟨0, .clock⟩, ?_, hafter.running m.dst, ?_⟩
      · simp [input, hk]
      · exact Nat.two_pow_pos 31
    refine ⟨hnet, fun rank hpos hlt => hafter.electing.elected (fun m hm => ?_) hpos hlt⟩
    rw [hnet] at hm
    exact absurd hm List.not_mem_nil

/-- The election among three ranks takes exactly the three deliveries that the bound allows. -/
def threeDeliveries : List SystemAct :=
  [⟨2, .deliver 0 0 ⟨0, .clock⟩⟩, ⟨1, .deliver 0 0 ⟨0, .clock⟩⟩, ⟨1, .deliver 0 0 ⟨0, .clock⟩⟩]

theorem deliveries_elect_highest_ranks :
    threeDeliveries.length ≤ 2 ^ (3 - 3) * (3 + 2) - 2 ∧
      ((∀ a, IsDelivery a →
          ¬ enabled (ranks 3) ((machine (ranks 3)).after (start (ranks 3)) threeDeliveries) a) →
        ((machine (ranks 3)).after (start (ranks 3)) threeDeliveries).net = [] ∧
          ∀ rank, 0 < rank → rank < 2 →
            (((machine (ranks 3)).after (start (ranks 3)) threeDeliveries).nodes rank).coordNode = 2) :=
  deliveries_elect_highest (ranks 3) (by decide) (by decide) threeDeliveries (by decide +kernel)

end System

end DistributedSystem.MpiBully
