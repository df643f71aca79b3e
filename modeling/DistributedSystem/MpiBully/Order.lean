import DistributedSystem.MpiBully.System

/-!
# Messages follow the rank order

Every send site of `handleNode` addresses the ranks above, those below, the coordinator, or
the source of the message that is handled. `MPI_Test` overwrites `status`, but only after
the source has been read.
-/

namespace DistributedSystem.MpiBully

open DistributedSystem.Library

/-- A message between ranks: calls for an election and AYA go up, their answers and COORD
    go down. -/
structure InOrder (c : Config) (m : Packet) : Prop where
  src_pos : 0 < m.src
  src_lt : m.src < c.size
  dst_pos : 0 < m.dst
  dst_lt : m.dst < c.size
  up : m.tag = .election ∨ m.tag = .aya → m.src < m.dst
  down : m.tag = .coord ∨ m.tag = .answer ∨ m.tag = .iaa → m.dst < m.src
  tag : m.tag ≠ .clock

namespace Node

/-- What a rank sends on an input, and where. -/
inductive Sends (c : Config) (rank : ℕ) (n : Node) (i : Input) (dst : ℕ) : Tag → Prop
  | election (hdst : dst ∈ higher c rank) : Sends c rank n i dst .election
  | coord (hdst : dst ∈ lower rank) : Sends c rank n i dst .coord
  | aya {rn : ℕ} {tested : Status} (hi : i = .clock rn tested) (hdst : n.coordNode = dst)
      (hcoord : dst ≠ 0) : Sends c rank n i dst .aya
  | answer {m : Packet} {rn : ℕ} {tested : Status} (hi : i = .message m rn tested)
      (htag : m.tag = .election) (hdst : m.src = dst) : Sends c rank n i dst .answer
  | iaa {m : Packet} {rn : ℕ} {tested : Status} (hi : i = .message m rn tested)
      (htag : m.tag = .aya) (hdst : m.src = dst) (hrn : c.sendFailure ≤ ((rn % 100 : ℕ) : ℤ)) :
      Sends c rank n i dst .iaa

variable {c : Config} {rank rn : ℕ} {n : Node} {i : Input} {m : Packet} {tested : Status}

theorem sends_of_mem_election {dlcTime : ℕ} (h : m ∈ packets rank .election dlcTime (higher c rank)) :
    m.src = rank ∧ Sends c rank n i m.dst m.tag := by
  obtain ⟨hsrc, htag, hdst⟩ := mem_packets h
  exact ⟨hsrc, htag ▸ .election hdst⟩

theorem sends_of_mem_coord {dlcTime : ℕ} (h : m ∈ packets rank .coord dlcTime (lower rank)) :
    m.src = rank ∧ Sends c rank n i m.dst m.tag := by
  obtain ⟨hsrc, htag, hdst⟩ := mem_packets h
  exact ⟨hsrc, htag ▸ .coord hdst⟩

/-- A timeout adds the messages of a loop. -/
theorem mem_outbox_checkTimeout {n' : Node} (h : m ∈ (checkTimeout c rank tested n').outbox) :
    m ∈ n'.outbox ∨ m.src = rank ∧ Sends c rank n i m.dst m.tag := by
  have hdeclare : m ∈ (declare rank tested n').outbox →
      m ∈ n'.outbox ∨ m.src = rank ∧ Sends c rank n i m.dst m.tag := by
    intro hm
    rw [declare_outbox] at hm
    exact (List.mem_append.mp hm).imp id sends_of_mem_coord
  have hcall : m ∈ (callElection c rank tested n').outbox →
      m ∈ n'.outbox ∨ m.src = rank ∧ Sends c rank n i m.dst m.tag := by
    intro hm
    rw [callElection_outbox] at hm
    exact (List.mem_append.mp hm).imp id sends_of_mem_election
  -- only the switch on lastSent sends anything
  rcases checkTimeout_cases c rank tested n' with
    heq | ⟨heq, -⟩ | ⟨heq, -⟩
  · rw [heq] at h
    exact Or.inl h
  · rw [heq] at h
    exact Or.inl h
  rw [heq] at h
  rcases onTimeout_cases c rank tested n' with
    ⟨heq, -⟩ | ⟨heq, -⟩ | ⟨heq, -⟩ | heq
  · rw [heq] at h
    rcases timeoutIdle_cases c rank tested n' with
      ⟨heq, -⟩ | ⟨heq, -⟩ | heq
    · rw [heq] at h
      exact hcall h
    · rw [heq] at h
      exact hdeclare h
    · rw [heq] at h
      exact Or.inl h
  · rw [heq] at h
    exact hdeclare h
  · rw [heq] at h
    exact hcall h
  · rw [heq] at h
    exact Or.inl h

theorem mem_outbox_onClock (hm : m ∉ n.outbox) (h : m ∈ (onClock c rank rn tested n).outbox) :
    m = ⟨rank, n.coordNode, .aya, n.dlcTime + 1⟩ ∧ n.coordNode ≠ 0 := by
  unfold onClock at h
  simp only at h
  split at h
  · rename_i hsend
    split at h
    · exact absurd h hm
    · exact ⟨List.mem_singleton.mp ((List.mem_append.mp h).resolve_left hm), hsend.2⟩
  · exact absurd h hm

/-- A message is answered to its source; only the highest rank declares itself at once. -/
theorem mem_outbox_onMessage {m' : Packet} {n' : Node} (hm : n'.outbox = [])
    (hstatus : n'.status = ⟨m'.src, m'.tag⟩) (hi : i = .message m' rn tested)
    (h : m ∈ (onMessage c rank rn tested n').outbox) :
    (m.src = rank ∧ Sends c rank n i m.dst m.tag) ∧ (m.tag = .coord → higher c rank = []) := by
  have hsrc : n'.status.MPI_SOURCE = m'.src := by rw [hstatus]
  have htag : n'.status.MPI_TAG = m'.tag := by rw [hstatus]
  unfold onMessage at h
  rw [htag] at h
  cases hk : m'.tag with
  | election =>
      simp only [hk, onElection] at h
      -- the answer goes to the sender of the ELECTION
      have hanswer : m ∈ (isend rank tested .answer n'.status.MPI_SOURCE n'.count).outbox →
          (m.src = rank ∧ Sends c rank n i m.dst m.tag) ∧ (m.tag = .coord → higher c rank = []) := by
        intro hmem
        simp only [isend, count, hm, List.nil_append, List.mem_singleton] at hmem
        rw [hmem]
        exact ⟨⟨rfl, .answer hi hk hsrc.symm⟩, fun hcoord => absurd hcoord (by simp)⟩
      -- the call goes to the ranks above
      have hloop : ∀ {d}, m ∈ packets rank .election d (higher c rank) →
          (m.src = rank ∧ Sends c rank n i m.dst m.tag) ∧ (m.tag = .coord → higher c rank = []) := by
        intro d hmem
        refine ⟨sends_of_mem_election hmem, fun hcoord => ?_⟩
        exact absurd ((mem_packets hmem).2.1.symm.trans hcoord) (by simp)
      split at h
      · exact hanswer h
      · split at h
        · rename_i hnone
          simp only [sendLoop_lastSent, ite_eq_left_iff, reduceCtorEq, imp_false, not_not] at hnone
          simp only [sendLoop_outbox] at h
          rcases List.mem_append.mp h with h | h
          · rcases List.mem_append.mp h with h | h
            · exact hanswer h
            · exact hloop h
          · -- nobody is above, so COORD goes to the ranks below
            exact ⟨sends_of_mem_coord h, fun _ => hnone⟩
        · simp only [sendLoop_outbox] at h
          rcases List.mem_append.mp h with h | h
          · exact hanswer h
          · exact hloop h
  | answer =>
      simp only [hk, onAnswer] at h
      split at h
      · simp [hm] at h
      · split at h
        · simp [hm] at h
        · simp [hm] at h
  | coord => simp [hk, onCoord, hm] at h
  | aya =>
      simp only [hk, onAYA] at h
      split at h
      · rename_i hrn
        simp only [isend, count, hm, List.nil_append, List.mem_singleton] at h
        rw [h]
        exact ⟨⟨rfl, .iaa hi hk hsrc.symm hrn⟩, fun hcoord => absurd hcoord (by simp)⟩
      · simp [count, hm] at h
  | iaa => simp [hk, hm] at h
  | clock => simp [hk, hm] at h

/-- What is sent up to the timeout check. -/
theorem mem_outbox_receive (h : m ∈ (receive c rank n i).outbox) :
    (m.src = rank ∧ Sends c rank n i m.dst m.tag) ∧ (m.tag = .coord → higher c rank = []) := by
  cases hdead : n.coordDead with
  | true =>
      cases i with
      | clock rn tested =>
          -- a dead coordinator sends nothing
          rw [receive_clock_dead hdead] at h
          exact absurd h (by simp)
      | message m' rn tested =>
          rw [receive_message_dead hdead] at h
          exact absurd h (by simp)
      | revive tested => exact absurd h (by simp [receive])
  | false =>
      cases i with
      | clock rn tested =>
          rw [receive_clock hdead] at h
          obtain ⟨rfl, hcoord⟩ := mem_outbox_onClock (by simp) h
          exact ⟨⟨rfl, .aya rfl rfl hcoord⟩, fun htag => absurd htag (by simp)⟩
      | message m' rn tested =>
          rw [receive_message hdead] at h
          exact mem_outbox_onMessage rfl rfl rfl h
      | revive tested => exact absurd h (by simp [receive])

/-- **What a rank sends.** -/
theorem sends_handle (h : m ∈ (handle c rank n i).outbox) :
    m.src = rank ∧ Sends c rank n i m.dst m.tag := by
  rcases mem_outbox_checkTimeout h with h | h
  · exact (mem_outbox_receive h).1
  · exact h

/-! ## The coordinator -/

theorem coordNode_onMessage {n' : Node} :
    (onMessage c rank rn tested n').coordNode = n'.coordNode ∨
      n'.status.MPI_TAG = .coord ∧
        (onMessage c rank rn tested n').coordNode = n'.status.MPI_SOURCE := by
  unfold onMessage
  split
  · unfold onElection
    simp only
    split
    · exact Or.inl rfl
    · split
      · exact Or.inl (by simp [isend, count])
      · exact Or.inl (by simp [isend, count])
  · unfold onAnswer
    split
    · exact Or.inl rfl
    · split
      · exact Or.inl rfl
      · exact Or.inl rfl
  · -- COORD is the only message that sets it
    rename_i hcoord
    exact Or.inr ⟨hcoord, rfl⟩
  · unfold onAYA
    simp only
    split
    · exact Or.inl rfl
    · exact Or.inl rfl
  · exact Or.inl rfl
  · exact Or.inl rfl

theorem coordNode_onClock : (onClock c rank rn tested n).coordNode = n.coordNode := by
  unfold onClock
  simp only
  split
  · split
    · rfl
    · rfl
  · rfl

theorem coordNode_checkTimeout (c : Config) (rank : ℕ) (tested : Status) (n : Node) :
    (checkTimeout c rank tested n).coordNode = n.coordNode ∨
      (checkTimeout c rank tested n).coordNode = 0 := by
  rcases checkTimeout_cases c rank tested n with
    heq | ⟨heq, -⟩ | ⟨heq, -⟩
  · exact Or.inl (by rw [heq])
  · exact Or.inl (by rw [heq])
  rw [heq]
  rcases onTimeout_cases c rank tested n with
    ⟨heq, -⟩ | ⟨heq, -⟩ | ⟨heq, -⟩ | heq
  · rw [heq]
    rcases timeoutIdle_cases c rank tested n with
      ⟨heq, -⟩ | ⟨heq, -⟩ | heq
    · exact Or.inr (by rw [heq]; rfl)
    · exact Or.inr (by rw [heq]; rfl)
    · exact Or.inl (by rw [heq])
  · exact Or.inr (by rw [heq]; rfl)
  · exact Or.inr (by rw [heq]; rfl)
  · exact Or.inl (by rw [heq])

theorem coordNode_receive (c : Config) (rank : ℕ) (n : Node) (i : Input) :
    (receive c rank n i).coordNode = n.coordNode ∨
      ∃ m rn tested, i = .message m rn tested ∧ m.tag = .coord ∧
        (receive c rank n i).coordNode = m.src := by
  cases i with
  | clock rn tested =>
      unfold receive
      simp only
      split
      · exact Or.inl rfl
      · exact Or.inl coordNode_onClock
  | message m rn tested =>
      unfold receive
      simp only
      split
      · exact Or.inl rfl
      · exact coordNode_onMessage.imp id fun ⟨htag, hsrc⟩ => ⟨m, rn, tested, rfl, htag, hsrc⟩
  | revive tested => exact Or.inl rfl

/-- The coordinator is the old one, none, or the source of a COORD. -/
theorem coordNode_handle (c : Config) (rank : ℕ) (n : Node) (i : Input) :
    (handle c rank n i).coordNode = n.coordNode ∨ (handle c rank n i).coordNode = 0 ∨
      ∃ m rn tested, i = .message m rn tested ∧ m.tag = .coord ∧
        (handle c rank n i).coordNode = m.src := by
  rcases coordNode_checkTimeout c rank i.tested (receive c rank n i) with hsame | hzero
  · rcases coordNode_receive c rank n i with hold | ⟨m, rn, tested, hi, htag, hsrc⟩
    · exact Or.inl (hsame.trans hold)
    · exact Or.inr (Or.inr ⟨m, rn, tested, hi, htag, hsame.trans hsrc⟩)
  · exact Or.inr (Or.inl hzero)

end Node

namespace System

/-- The coordinator of a rank is 0 or a higher rank. -/
def HasCoord (c : Config) (rank coordNode : ℕ) : Prop :=
  coordNode = 0 ∨ rank < coordNode ∧ coordNode < c.size

/-- Messages in flight are in order, and so are the coordinators. -/
structure Ranked (c : Config) (s : System) : Prop where
  net : ∀ m ∈ s.net, InOrder c m
  coords : ∀ rank, HasCoord c rank (s.nodes rank).coordNode

variable {c : Config} {s : System} {rank : ℕ} {st : Stimulus} {i : Input} {m : Packet}

/-- **Send sites**: what a rank sends is in order. -/
theorem inOrder_of_sends (h : Ranked c s) (hpos : 0 < rank) (hlt : rank < c.size)
    (hin : input s.net rank st = some i) (hsrc : m.src = rank)
    (hsends : Node.Sends c rank (s.nodes rank) i m.dst m.tag) : InOrder c m := by
  obtain ⟨src, dst, tag, dlcTime⟩ := m
  subst hsrc
  cases hsends with
  | election hdst =>
      obtain ⟨hup, hsize⟩ := mem_higher.mp hdst
      exact ⟨hpos, hlt, by omega, hsize, fun _ => hup, by simp, by simp⟩
  | coord hdst =>
      obtain ⟨hdstPos, hdown⟩ := mem_lower.mp hdst
      exact ⟨hpos, hlt, hdstPos, Nat.lt_trans hdown hlt, by simp, fun _ => hdown, by simp⟩
  | aya hi hdst hcoord =>
      rcases h.coords src with hzero | ⟨hup, hsize⟩
      · exact absurd (hdst.symm.trans hzero) hcoord
      · rw [hdst] at hup hsize
        exact ⟨hpos, hlt, by omega, hsize, fun _ => hup, by simp, by simp⟩
  | answer hi htag hdst =>
      -- the ELECTION came from below
      obtain ⟨hmem, hrank⟩ := mem_net_of_input (hi ▸ hin)
      have hm := h.net _ hmem
      have hup := hm.up (Or.inl htag)
      rw [hrank, hdst] at hup
      exact ⟨hpos, hlt, hdst ▸ hm.src_pos, hdst ▸ hm.src_lt, by simp, fun _ => hup, by simp⟩
  | iaa hi htag hdst hrn =>
      obtain ⟨hmem, hrank⟩ := mem_net_of_input (hi ▸ hin)
      have hm := h.net _ hmem
      have hup := hm.up (Or.inr htag)
      rw [hrank, hdst] at hup
      exact ⟨hpos, hlt, hdst ▸ hm.src_pos, hdst ▸ hm.src_lt, by simp, fun _ => hup, by simp⟩

/-- A COORD comes from above. -/
theorem hasCoord_handle (h : Ranked c s) (hin : input s.net rank st = some i) :
    HasCoord c rank ((s.nodes rank).handle c rank i).coordNode := by
  rcases Node.coordNode_handle c rank (s.nodes rank) i with
    hold | hzero | ⟨m, rn, tested, hi, htag, hsrc⟩
  · rw [hold]
    exact h.coords rank
  · exact Or.inl hzero
  · obtain ⟨hmem, hrank⟩ := mem_net_of_input (hi ▸ hin)
    have hm := h.net m hmem
    have hdown := hm.down (Or.inl htag)
    rw [hrank] at hdown
    rw [hsrc]
    exact Or.inr ⟨hdown, hm.src_lt⟩

/-- **Step lemma** -/
theorem ranked_next {a : SystemAct} (h : Ranked c s) (ha : enabled c s a) : Ranked c (next c s a) := by
  obtain ⟨hpos, hlt, i, hin, -⟩ := ha
  rw [next_of_input hin]
  refine ⟨fun m hm => ?_, fun rank => ?_⟩
  · rcases List.mem_append.mp hm with hm | hm
    · exact h.net m (mem_of_mem_remaining hm)
    · obtain ⟨hsrc, hsends⟩ := Node.sends_handle hm
      exact inOrder_of_sends h hpos hlt hin hsrc hsends
  · by_cases hrank : rank = a.rank
    · subst hrank
      simp only [nodeStep, Function.update_self]
      exact hasCoord_handle h hin
    · simp only [nodeStep, Function.update_of_ne hrank]
      exact h.coords rank

theorem ranked_start (c : Config) : Ranked c (start c) := by
  refine ⟨fun m hm => ?_, fun rank => Or.inl ?_⟩
  · simp only [start, Node.start, if_pos, Node.sendLoop_outbox, List.nil_append] at hm
    obtain ⟨hsrc, htag, hdst⟩ := Node.mem_packets hm
    obtain ⟨hup, hsize⟩ := mem_higher.mp hdst
    rw [← hsrc] at hup
    exact ⟨by omega, by omega, by omega, hsize, fun _ => hup, by simp [htag], by simp [htag]⟩
  · simp only [start, Node.start]
    split
    · simp
    · rfl

/-- **Messages follow the rank order**, in every state that a run reaches. -/
theorem messages_follow_ranks (c : Config) (as : List SystemAct)
    (hrun : (machine c).Along (enabled c) (start c) as) :
    (∀ m ∈ ((machine c).after (start c) as).net,
      (m.tag = .election ∨ m.tag = .aya) ∧ m.src < m.dst ∨
        (m.tag = .coord ∨ m.tag = .answer ∨ m.tag = .iaa) ∧ m.dst < m.src) ∧
      ∀ rank, (((machine c).after (start c) as).nodes rank).coordNode = 0 ∨
        rank < (((machine c).after (start c) as).nodes rank).coordNode ∧
          (((machine c).after (start c) as).nodes rank).coordNode < c.size := by
  have hranked : Ranked c ((machine c).after (start c) as) :=
    hrun.invariant (ranked_start c) fun s a h ha => ranked_next h ha
  refine ⟨fun m hm => ?_, hranked.coords⟩
  have horder := hranked.net m hm
  cases htag : m.tag with
  | election => exact Or.inl ⟨Or.inl rfl, horder.up (Or.inl htag)⟩
  | aya => exact Or.inl ⟨Or.inr rfl, horder.up (Or.inr htag)⟩
  | coord => exact Or.inr ⟨Or.inl rfl, horder.down (Or.inl htag)⟩
  | answer => exact Or.inr ⟨Or.inr (Or.inl rfl), horder.down (Or.inr (Or.inl htag))⟩
  | iaa => exact Or.inr ⟨Or.inr (Or.inr rfl), horder.down (Or.inr (Or.inr htag))⟩
  | clock => exact absurd htag horder.tag

/-- Rank 2 wins the election of rank 1, and answers its AYA. -/
def firstElection : List SystemAct :=
  [⟨2, .deliver 0 0 ⟨0, .clock⟩⟩, ⟨1, .deliver 1 0 ⟨0, .clock⟩⟩, ⟨1, .clock 7 ⟨2, .aya⟩⟩,
    ⟨2, .deliver 1 99 ⟨1, .iaa⟩⟩, ⟨1, .deliver 1 0 ⟨0, .clock⟩⟩]

theorem messages_follow_ranks_firstElection :
    (∀ m ∈ ((machine (ranks 3)).after (start (ranks 3)) firstElection).net,
      (m.tag = .election ∨ m.tag = .aya) ∧ m.src < m.dst ∨
        (m.tag = .coord ∨ m.tag = .answer ∨ m.tag = .iaa) ∧ m.dst < m.src) ∧
      ∀ rank, (((machine (ranks 3)).after (start (ranks 3)) firstElection).nodes rank).coordNode = 0 ∨
        rank < (((machine (ranks 3)).after (start (ranks 3)) firstElection).nodes rank).coordNode ∧
          (((machine (ranks 3)).after (start (ranks 3)) firstElection).nodes rank).coordNode < 3 :=
  messages_follow_ranks (ranks 3) firstElection (by decide +kernel)

end System

end DistributedSystem.MpiBully
