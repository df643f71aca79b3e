import DistributedSystem.Library.Causality
import DistributedSystem.MpiBully.Order

/-!
# The DLC time is a Lamport clock

A receive takes the larger of two times and counts nothing, so the clock condition rests on
the sends: each of them counts before it builds its message. `Ascends` says so of one
iteration. A ghost collects the sends and the processed messages of all ranks in one
history, where the condition is that of scalar clocks.
-/

namespace DistributedSystem.MpiBully

open DistributedSystem.Library

namespace Node

/-- The times of the messages grow from `lo` and end at `hi`. -/
def Ascends : ℕ → List Packet → ℕ → Prop
  | lo, [], hi => lo ≤ hi
  | lo, m :: ms, hi => lo < m.dlcTime ∧ Ascends m.dlcTime ms hi

/-- The messages of this iteration were sent after the time `lo`. -/
def Clocked (lo : ℕ) (n : Node) : Prop := Ascends lo n.outbox n.dlcTime

variable {c : Config} {rank rn lo hi : ℕ} {n n' : Node} {i : Input} {m : Packet} {tested : Status}
  {tag : Tag} {is : List ℕ} {ms : List Packet} {dst : ℕ}

theorem ascends_mono {hi' : ℕ} (h : Ascends lo ms hi) (hle : hi ≤ hi') : Ascends lo ms hi' := by
  induction ms generalizing lo with
  | nil => exact Nat.le_trans h hle
  | cons m ms ih => exact ⟨h.1, ih h.2⟩

theorem ascends_concat (h : Ascends lo ms hi) (hlt : hi < m.dlcTime) :
    Ascends lo (ms ++ [m]) m.dlcTime := by
  induction ms generalizing lo with
  | nil => exact ⟨Nat.lt_of_le_of_lt h hlt, Nat.le_refl _⟩
  | cons m' ms ih => exact ⟨h.1, ih h.2⟩

/-! ## Every send counts -/

theorem clocked_of_eq (h : Clocked lo n) (houtbox : n'.outbox = n.outbox)
    (hdlc : n'.dlcTime = n.dlcTime) : Clocked lo n' := by
  unfold Clocked
  rw [houtbox, hdlc]
  exact h

theorem clocked_count (h : Clocked lo n) : Clocked lo n.count := ascends_mono h (Nat.le_succ _)

theorem clocked_isend (h : Clocked lo n) (rank : ℕ) (tested : Status) (tag : Tag) (dst : ℕ) :
    Clocked lo (isend rank tested tag dst n.count) := ascends_concat h (Nat.lt_succ_self _)

theorem clocked_sendLoop (h : Clocked lo n) : Clocked lo (sendLoop rank tested tag is n) := by
  induction is generalizing n with
  | nil => exact h
  | cons i is ih => exact ih (clocked_of_eq (clocked_isend h rank tested tag i) rfl rfl)

theorem clocked_onClock (h : Clocked lo n) : Clocked lo (onClock c rank rn tested n) := by
  have hset : ∀ a b r l, Clocked lo { n with tick := a, AYATick := b, AYARate := r, lastSent := l } :=
    fun a b r l => clocked_of_eq h rfl rfl
  unfold onClock
  simp only
  split
  · split
    · exact clocked_of_eq h rfl rfl
    · exact clocked_isend (hset _ _ _ _) rank tested .aya n.coordNode
  · exact clocked_of_eq h rfl rfl

theorem clocked_onMessage (h : Clocked lo n) : Clocked lo (onMessage c rank rn tested n) := by
  unfold onMessage
  split
  · -- ELECTION: the answer, then the loops, each of which counts on
    have hanswer : Clocked lo { isend rank tested .answer n.status.MPI_SOURCE n.count with
        lastReceived := some .election } := clocked_of_eq (clocked_isend h rank tested .answer _) rfl rfl
    unfold onElection
    simp only
    split
    · exact hanswer
    · have hloop : ∀ n', Clocked lo n' → Clocked lo (sendLoop rank tested .election (higher c rank)
          { n' with lastSent := none }) := fun n' hn' => clocked_sendLoop (clocked_of_eq hn' rfl rfl)
      split
      · exact clocked_sendLoop (hloop _ hanswer)
      · exact hloop _ hanswer
  · -- ANSWER: nothing is sent
    unfold onAnswer
    split
    · exact h
    · split
      · exact h
      · exact h
  · exact h
  · -- AYA: the count stands whether IAA is sent or not
    unfold onAYA
    simp only
    split
    · have hset : Clocked lo { n with lastReceived := some .aya, lastSent := some .iaa } :=
        clocked_of_eq h rfl rfl
      exact clocked_isend hset rank tested .iaa _
    · exact clocked_of_eq (clocked_count h) rfl rfl
  · exact h
  · exact h

theorem clocked_checkTimeout (h : Clocked lo n) : Clocked lo (checkTimeout c rank tested n) := by
  have hdeclare : Clocked lo (declare rank tested n) := clocked_of_eq (clocked_sendLoop h) rfl rfl
  have hcall : Clocked lo (callElection c rank tested n) :=
    clocked_of_eq (clocked_sendLoop h) rfl rfl
  -- no timeout, a division by zero, or the switch on lastSent
  rcases checkTimeout_cases c rank tested n with
    heq | ⟨heq, -⟩ | ⟨heq, -⟩
  · rw [heq]
    exact h
  · rw [heq]
    exact clocked_of_eq h rfl rfl
  rw [heq]
  rcases onTimeout_cases c rank tested n with
    ⟨heq, -⟩ | ⟨heq, -⟩ | ⟨heq, -⟩ | heq
  · rw [heq]
    rcases timeoutIdle_cases c rank tested n with
      ⟨heq, -⟩ | ⟨heq, -⟩ | heq
    · rw [heq]
      exact clocked_of_eq hcall rfl rfl
    · rw [heq]
      exact hdeclare
    · rw [heq]
      exact h
  · rw [heq]
    exact hdeclare
  · rw [heq]
    exact hcall
  · rw [heq]
    exact h

/-- The time of a rank that has received an input, before it sends anything. -/
def timeAt (n : Node) : Input → ℕ
  | .message m _ _ =>
      if n.coordDead then n.dlcTime
      else if m.dlcTime > n.dlcTime then m.dlcTime else n.dlcTime
  | _ => n.dlcTime

theorem dlcTime_le_timeAt (n : Node) (i : Input) : n.dlcTime ≤ n.timeAt i := by
  cases i with
  | message m rn tested =>
      simp only [timeAt]
      split
      · exact Nat.le_refl _
      · split
        · omega
        · exact Nat.le_refl _
  | _ => exact Nat.le_refl _

/-- **An iteration sends at growing times**, all later than what it knew before. -/
theorem ascends_handle (c : Config) (rank : ℕ) (n : Node) (i : Input) :
    Ascends (n.timeAt i) (handle c rank n i).outbox (handle c rank n i).dlcTime := by
  -- the timeout sends behind what the receive has sent
  refine clocked_checkTimeout ?_
  cases hdead : n.coordDead with
  | true =>
      cases i with
      | clock rn tested =>
          rw [receive_clock_dead hdead]
          exact Nat.le_refl n.dlcTime
      | message m rn tested =>
          rw [receive_message_dead hdead]
          -- a dead coordinator does not take over the time of the message
          show n.timeAt (.message m rn tested) ≤ n.dlcTime
          simp only [timeAt, if_pos hdead, Nat.le_refl]
      | revive tested => exact Nat.le_refl n.dlcTime
  | false =>
      cases i with
      | clock rn tested =>
          rw [receive_clock hdead]
          exact clocked_onClock (Nat.le_refl n.dlcTime)
      | message m rn tested =>
          rw [receive_message hdead]
          refine clocked_onMessage ?_
          show n.timeAt (.message m rn tested) ≤ if m.dlcTime > n.dlcTime then m.dlcTime else n.dlcTime
          simp only [timeAt, hdead, Bool.false_eq_true, if_false, Nat.le_refl]
      | revive tested => exact Nat.le_refl n.dlcTime

end Node

/-! ## The history of all ranks -/

/-- What is known of an event: a send or a processed message, and its time. -/
structure Stamp where
  isSend : Bool
  dlcTime : ℕ
  deriving DecidableEq

abbrev DlcEvent := Event ℕ Stamp

/-- The events of all ranks, and for every message in flight the place of its send. -/
structure History where
  events : List DlcEvent := []
  origins : List ℕ := []

namespace History

/-- The event of a message that a rank processes; a dead coordinator processes none. -/
def received (rank : ℕ) (cause : Option ℕ) (n : Node) : Input → List DlcEvent
  | .message m rn tested =>
      if n.coordDead then [] else [⟨rank, cause, ⟨false, n.timeAt (.message m rn tested)⟩⟩]
  | _ => []

/-- The events of messages that a rank sends. -/
def sent (rank : ℕ) (ms : List Packet) : List DlcEvent :=
  ms.map fun m => ⟨rank, none, ⟨true, m.dlcTime⟩⟩

/-- The send of the message that is delivered. -/
def cause (t : History) : Stimulus → Option ℕ
  | .deliver k _ _ => t.origins[k]?
  | _ => none

/-- The origins of the messages that stay in flight. -/
def remaining (origins : List ℕ) : Stimulus → List ℕ
  | .deliver k _ _ => origins.eraseIdx k
  | _ => origins

/-- What an iteration adds to the history. -/
def record (c : Config) (s : System) (rank : ℕ) (st : Stimulus) (i : Input) (t : History) : History :=
  let events := t.events ++ received rank (t.cause st) (s.nodes rank) i
  let ms := ((s.nodes rank).handle c rank i).outbox
  { events := events ++ sent rank ms
    origins := remaining t.origins st ++ List.range' events.length ms.length }

/-- The call for an election of rank 1. -/
def start (c : Config) : History where
  events := sent 1 (System.start c).net
  origins := List.range' 0 (System.start c).net.length

end History

namespace System

/-- What a step of the system adds to the history. -/
def observe (c : Config) (s : System) (a : SystemAct) (t : History) : History :=
  match input s.net a.rank a.stimulus with
  | some i => t.record c s a.rank a.stimulus i
  | none => t

/-- The system with the history of its events. -/
def observed (c : Config) : Machine (System × History) SystemAct := (machine c).watch (observe c)

/-- The event of the send of a message. -/
def sendOf (m : Packet) : DlcEvent := ⟨m.src, none, ⟨true, m.dlcTime⟩⟩

/-- The history obeys the rule of scalar clocks, no rank is behind its events, and every
    message in flight knows its send. -/
structure Recorded (s : System) (t : History) : Prop where
  counted : Counted Stamp.dlcTime (fun e : DlcEvent => e.stamp.isSend = true) t.events
  now : ∀ e ∈ t.events, e.stamp.dlcTime ≤ (s.nodes e.proc).dlcTime
  origins : t.origins.length = s.net.length
  sends : ∀ (k : ℕ) (m : Packet), s.net[k]? = some m →
    ∃ o, t.origins[k]? = some o ∧ t.events[o]? = some (sendOf m)

variable {c : Config} {s : System} {t : History} {rank : ℕ} {st : Stimulus} {i : Input}
  {h : List DlcEvent} {ms : List Packet} {lo hi : ℕ}

/-- Messages with growing times extend a history. -/
theorem counted_sent (hh : Counted Stamp.dlcTime (fun e : DlcEvent => e.stamp.isSend = true) h)
    (hlo : ∀ e ∈ h, e.proc = rank → e.stamp.dlcTime ≤ lo) (hms : Node.Ascends lo ms hi) :
    Counted Stamp.dlcTime (fun e : DlcEvent => e.stamp.isSend = true) (h ++ History.sent rank ms) ∧
      ∀ e ∈ h ++ History.sent rank ms, e.proc = rank → e.stamp.dlcTime ≤ hi := by
  induction ms generalizing h lo with
  | nil =>
      simp only [History.sent, List.map_nil, List.append_nil]
      exact ⟨hh, fun e he hproc => Nat.le_trans (hlo e he hproc) hms⟩
  | cons m ms ih =>
      -- the time of a message is above all times of its node
      have hnew : Counted Stamp.dlcTime (fun e : DlcEvent => e.stamp.isSend = true)
          (h ++ [⟨rank, none, ⟨true, m.dlcTime⟩⟩]) := by
        refine hh.concat (fun d hd hproc => ?_) fun i hi => absurd hi (by simp)
        have hlt := Nat.lt_of_le_of_lt (hlo d hd hproc) hms.1
        exact ⟨hlt.le, fun _ => hlt⟩
      have hrest := ih hnew (fun e he hproc => ?_) hms.2
      · rw [List.append_assoc, List.singleton_append] at hrest
        exact hrest
      · rcases List.mem_append.mp he with he | he
        · exact (Nat.lt_of_le_of_lt (hlo e he hproc) hms.1).le
        · rw [List.mem_singleton.mp he]

/-- The origin of a message in flight that is delivered. -/
theorem cause_of_input (hr : Recorded s t) {m : Packet} {rn : ℕ} {tested : Status}
    (hin : input s.net rank st = some (.message m rn tested)) :
    ∃ o, t.cause st = some o ∧ t.events[o]? = some (sendOf m) := by
  cases st with
  | deliver k rn' tested' =>
      unfold input at hin
      cases hk : s.net[k]? with
      | none => simp [hk] at hin
      | some m' =>
          simp only [hk, Option.ite_none_right_eq_some, Option.some.injEq, Input.message.injEq] at hin
          obtain ⟨-, rfl, -, -⟩ := hin
          exact hr.sends k m' hk
  | clock rn' tested' => simp [input] at hin
  | revive tested' => simp [input] at hin

/-- A processed message extends a history. -/
theorem counted_received (hr : Recorded s t) (hin : input s.net rank st = some i) :
    Counted Stamp.dlcTime (fun e : DlcEvent => e.stamp.isSend = true)
        (t.events ++ History.received rank (t.cause st) (s.nodes rank) i) ∧
      ∀ e ∈ t.events ++ History.received rank (t.cause st) (s.nodes rank) i, e.proc = rank →
        e.stamp.dlcTime ≤ (s.nodes rank).timeAt i := by
  have hold : ∀ e ∈ t.events, e.proc = rank → e.stamp.dlcTime ≤ (s.nodes rank).timeAt i := by
    rintro e he rfl
    exact Nat.le_trans (hr.now e he) (Node.dlcTime_le_timeAt _ _)
  cases i with
  | message m rn tested =>
      -- a dead coordinator forgets the message, and there is no event
      by_cases hdead : (s.nodes rank).coordDead
      · simp only [History.received, if_pos hdead, List.append_nil]
        exact ⟨hr.counted, hold⟩
      · simp only [History.received, if_neg hdead]
        refine ⟨hr.counted.concat (fun d hd hproc => ⟨hold d hd hproc, fun hsend => ?_⟩)
          fun o ho => ?_, fun e he hproc => ?_⟩
        · exact absurd hsend (by simp)
        · -- the time of the sender is at most the maximum that is taken
          obtain ⟨o', ho', hsend⟩ := cause_of_input hr hin
          cases ho.symm.trans ho'
          refine ⟨_, hsend, ?_, fun hsend => absurd hsend (by simp)⟩
          show m.dlcTime ≤ (s.nodes rank).timeAt (.message m rn tested)
          simp only [Node.timeAt, if_neg hdead]
          split
          · exact Nat.le_refl _
          · omega
        · rcases List.mem_append.mp he with he | he
          · exact hold e he hproc
          · rw [List.mem_singleton.mp he]
  | clock rn tested =>
      simp only [History.received, List.append_nil]
      exact ⟨hr.counted, hold⟩
  | revive tested =>
      simp only [History.received, List.append_nil]
      exact ⟨hr.counted, hold⟩

theorem proc_of_mem_received {e : DlcEvent} {cause : Option ℕ} {n : Node}
    (he : e ∈ History.received rank cause n i) : e.proc = rank := by
  cases i with
  | message m rn tested =>
      simp only [History.received] at he
      split at he
      · exact absurd he (by simp)
      · rw [List.mem_singleton.mp he]
  | clock rn tested => exact absurd he (by simp [History.received])
  | revive tested => exact absurd he (by simp [History.received])

/-- The messages that stay in flight keep their origins. -/
theorem sends_remaining (hr : Recorded s t) {k : ℕ} {m : Packet}
    (hk : (remaining s.net st)[k]? = some m) :
    ∃ o, (History.remaining t.origins st)[k]? = some o ∧ t.events[o]? = some (sendOf m) := by
  cases st with
  | deliver k' rn tested =>
      simp only [remaining, History.remaining, List.getElem?_eraseIdx] at hk ⊢
      split at hk
      · rename_i hlt
        rw [if_pos hlt]
        exact hr.sends k m hk
      · rename_i hge
        rw [if_neg hge]
        exact hr.sends (k + 1) m hk
  | clock rn tested => exact hr.sends k m hk
  | revive tested => exact hr.sends k m hk

theorem length_remaining (hr : Recorded s t) :
    (History.remaining t.origins st).length = (remaining s.net st).length := by
  cases st with
  | deliver k rn tested =>
      simp only [remaining, History.remaining, List.length_eraseIdx, hr.origins]
  | clock rn tested => exact hr.origins
  | revive tested => exact hr.origins

/-- **Step lemma**: an iteration records its events by the rule of scalar clocks. -/
theorem recorded_step (hr : Recorded s t) (hin : input s.net rank st = some i) :
    Recorded (nodeStep c s rank st i) (t.record c s rank st i) := by
  obtain ⟨hcounted, hnow⟩ := counted_received hr hin
  have hsent := counted_sent hcounted hnow (Node.ascends_handle c rank (s.nodes rank) i)
  refine ⟨hsent.1, fun e he => ?_, ?_, fun k m hk => ?_⟩
  · by_cases hproc : e.proc = rank
    · simp only [nodeStep, hproc, Function.update_self]
      exact hsent.2 e he hproc
    · simp only [nodeStep, Function.update_of_ne hproc]
      rcases List.mem_append.mp he with he | he
      · rcases List.mem_append.mp he with he | he
        · exact hr.now e he
        · exact absurd (proc_of_mem_received he) hproc
      · obtain ⟨m, -, rfl⟩ := List.mem_map.mp he
        exact absurd rfl hproc
  · simp only [nodeStep, History.record, List.length_append, length_remaining hr, List.length_range']
  · simp only [nodeStep, History.record, List.getElem?_append, length_remaining hr] at hk ⊢
    split at hk
    · -- it was in flight before
      rename_i hlt
      obtain ⟨o, ho, hsend⟩ := sends_remaining hr hk
      have holt := (List.getElem?_eq_some_iff.mp hsend).1
      refine ⟨o, by rw [if_pos hlt, ho], ?_⟩
      rw [List.length_append, if_pos (by omega), if_pos holt, hsend]
    · -- it is sent now
      rename_i hge
      obtain ⟨hklt, hkeq⟩ := List.getElem?_eq_some_iff.mp hk
      obtain ⟨hsrc, -⟩ := Node.sends_handle (List.mem_of_getElem? hk)
      rw [if_neg hge, List.getElem?_range' hklt]
      refine ⟨_, rfl, ?_⟩
      rw [if_neg (by omega)]
      simp only [History.sent, Nat.one_mul, Nat.add_sub_cancel_left, List.getElem?_map, hk,
        Option.map_some, sendOf, hsrc]

theorem recorded_start (c : Config) : Recorded (start c) (History.start c) := by
  -- rank 1 has called an election before its first receive
  have hsrc : ∀ m ∈ (start c).net, m.src = 1 := by
    intro m hm
    simp only [start, Node.start, if_pos, Node.sendLoop_outbox, List.nil_append] at hm
    exact (Node.mem_packets hm).1
  have hascends : Node.Ascends 0 (start c).net (Node.start c 1).dlcTime := by
    simp only [start, Node.start, if_pos]
    exact Node.clocked_sendLoop (Nat.le_refl 0)
  have hnone : ∀ e ∈ ([] : List DlcEvent), e.proc = 1 → e.stamp.dlcTime ≤ 0 :=
    fun e he => absurd he (by simp)
  have hsent := counted_sent .nil hnone hascends
  rw [List.nil_append] at hsent
  refine ⟨hsent.1, fun e he => ?_, by simp [History.start], fun k m hk => ?_⟩
  · have hproc : e.proc = 1 := by
      obtain ⟨m, -, rfl⟩ := List.mem_map.mp he
      rfl
    rw [hproc]
    exact hsent.2 e he hproc
  · obtain ⟨hklt, -⟩ := List.getElem?_eq_some_iff.mp hk
    refine ⟨k, ?_, ?_⟩
    · simp [History.start, List.getElem?_range' hklt]
    · simp only [History.start, History.sent, List.getElem?_map, hk, Option.map_some, sendOf,
        hsrc m (List.mem_of_getElem? hk)]

/-- **Clock condition**: in the history of every run, a send that happened before another one
    has the smaller time; and the time of a send is the one its message carries. -/
theorem clock_condition (c : Config) (as : List SystemAct) :
    let x := (observed c).after (start c, History.start c) as
    (∀ i j e f, HappenedBefore x.2.events i j → x.2.events[i]? = some e → x.2.events[j]? = some f →
      e.stamp.isSend = true → f.stamp.isSend = true → e.stamp.dlcTime < f.stamp.dlcTime) ∧
      ∀ (k : ℕ) (m : Packet), x.1.net[k]? = some m →
        ∃ o, x.2.origins[k]? = some o ∧ x.2.events[o]? = some ⟨m.src, none, ⟨true, m.dlcTime⟩⟩ := by
  -- nothing is asked of a step
  have hall : (observed c).Along (fun _ _ => True) (start c, History.start c) as := by
    generalize (start c, History.start c) = x
    induction as generalizing x with
    | nil => trivial
    | cons a as ih => exact ⟨trivial, ih _⟩
  have hr : Recorded ((observed c).after (start c, History.start c) as).1
      ((observed c).after (start c, History.start c) as).2 := by
    refine hall.invariant (I := fun x => Recorded x.1 x.2) (recorded_start c) fun x a hx _ => ?_
    show Recorded (next c x.1 a) (observe c x.1 a x.2)
    cases hin : input x.1.net a.rank a.stimulus with
    | none =>
        simp only [next, observe, hin]
        exact hx
    | some i =>
        simp only [next, observe, hin]
        exact recorded_step hx hin
  exact ⟨fun i j e f hij he hf _ hsend => hr.counted.lt_of_happenedBefore hij he hf hsend, hr.sends⟩

end System

end DistributedSystem.MpiBully
