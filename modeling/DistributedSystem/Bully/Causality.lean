import DistributedSystem.Bully.Group
import DistributedSystem.Bully.Slots
import DistributedSystem.Library.Causality

/-!
# Vector clocks of the bully nodes and causality

A ghost collects the lines of all ShiViz logs in the order in which they are written, with
the node that wrote each and, for a receive line, the line of the send. A handler advances
its clock only to send and log one message, or to log one that it has received; so every
line has the clock that the rule of vector clocks gives it, until a node has written `2 ^ 32`
lines and its time wraps.
-/

namespace DistributedSystem.Bully

open DistributedSystem.Library
open Node

/-- The line is about a datagram that was received. -/
def LogEvent.isReceive : LogEvent → Bool
  | .message _ _ isSend _ => !isSend
  | .start => false

/-- A line of a ShiViz log, with its node and the line of the send it answers to. -/
abbrev LoggedEvent := Event ℕ (LogEvent × VClock)

/-- The logged events of all nodes, and for every datagram of the net the place of the event
    that is logged when it is sent. -/
structure History where
  events : List LoggedEvent := []
  origins : List ℕ := []

namespace History

/-- What an effect of node `n` on port `p` adds; `cause` is the origin of the datagram that is
    handled. A datagram is sent just before its line is written. -/
def note (p : ℕ) (cause : Option ℕ) (n : Node) (t : History) : NodeEffect → History
  | .send _ _ => { t with origins := t.origins ++ [t.events.length] }
  | .log e =>
      { t with
        events := t.events ++ [⟨p, if e.isReceive then cause else none, (e, n.myVectorClock)⟩] }
  | _ => t

/-- What the effects of a handler add. -/
def record (p : ℕ) (cause : Option ℕ) : Node → History → List NodeEffect → History
  | _, t, [] => t
  | n, t, e :: es => record p cause (n.apply e) (t.note p cause n e) es

/-- The lines of node `p`, in order. -/
def log (t : History) (p : ℕ) : List (LogEvent × VClock) :=
  (t.events.filter fun e => e.proc = p).map Event.stamp

end History

namespace Group

/-- The ports of the group, in the order of the list that all nodes read. -/
def ports (g : Group) : List ℕ := (g.groupMems 0).map GroupMem.portno

/-- The origin of the datagram that a node is given. -/
def causeOf (t : History) : Stimulus → Option ℕ
  | .deliver k _ => t.origins[k]?
  | _ => none

/-- What a step of the group adds to the history. -/
def observe (g : Group) (s : GroupState) (a : GroupAct) (t : History) : History :=
  match a with
  | .run p a =>
      match input s.net p a.input with
      | some i => t.record p (causeOf t a.input) (s.nodes p)
          ((process (g.config p)).performed (s.nodes p) ⟨i, a.cut⟩)
      | none => t
  | .restart _ => t

/-- The group with the history of its logged events. -/
def observed (g : Group) : Machine (GroupState × History) GroupAct := g.machine.watch g.observe

/-- The start lines. -/
def firstLines (g : Group) : History where
  events := g.ports.map fun p => ⟨p, none, (.start, Node.startClock (g.config p))⟩

end Group

/-! ## The discipline of the handlers -/

/-- The effect is not about clocks, lines or datagrams. -/
def NodeEffect.isPlain : NodeEffect → Bool
  | .clock _ | .send _ _ | .log _ => false
  | _ => true

/-- From clock `vc` on, the effects of the node on port `p` advance the clock only to send one
    message on it and to log that; `vc'` is the clock they end with. -/
inductive Talks (p : ℕ) : VClock → List NodeEffect → VClock → Prop
  | nil (vc : VClock) : Talks p vc [] vc
  | plain {vc vc' : VClock} {e : NodeEffect} {es : List NodeEffect} (he : e.isPlain)
      (hes : Talks p vc es vc') : Talks p vc (e :: es) vc'
  | send {vc vc' : VClock} {es : List NodeEffect} {c : Config} (hc : c.port = p) (dst : SockAddr)
      (k : MsgType) (id : ℕ) (drawn : Option ℕ) (hes : Talks p (updateMyVectorClock p vc) es vc') :
      Talks p vc (sendMsg c vc dst k id drawn ++ es) vc'

variable {p : ℕ} {vc vc' vc'' : VClock} {es fs : List NodeEffect} {c : Config} {n : Node}

theorem Talks.append (h : Talks p vc es vc') (h' : Talks p vc' fs vc'') : Talks p vc (es ++ fs) vc'' := by
  induction h with
  | nil vc => exact h'
  | plain he _ ih => exact .plain he (ih h')
  | send hc dst k id drawn _ ih =>
    rw [List.append_assoc]
    exact .send hc dst k id drawn (ih h')

theorem talks_of_plain (es : List NodeEffect) (h : ∀ e ∈ es, e.isPlain) (vc : VClock) : Talks p vc es vc := by
  induction es with
  | nil => exact .nil vc
  | cons e es ih => exact .plain (h e (by simp)) (ih fun e' he' => h e' (List.mem_cons_of_mem _ he'))

theorem talks_sendMsg (c : Config) (vc : VClock) (dst : SockAddr) (k : MsgType) (id : ℕ)
    (drawn : Option ℕ) : Talks c.port vc (sendMsg c vc dst k id drawn) (updateMyVectorClock c.port vc) := by
  rw [← List.append_nil (sendMsg c vc dst k id drawn)]
  exact .send rfl dst k id drawn (.nil _)

theorem talks_sendLoop (c : Config) (k : MsgType) (id : Option ℕ) (vc : VClock) (counter : ℕ)
    (ms : List GroupMem) : ∃ vc', Talks c.port vc (sendLoop c k id vc counter ms) vc' := by
  induction ms generalizing vc counter with
  | nil => exact ⟨vc, .nil vc⟩
  | cons m ms ih =>
    unfold sendLoop
    split
    · exact ⟨vc, talks_of_plain _ (by simp [NodeEffect.isPlain]) vc⟩
    · -- the rest of the loop talks from the clock of this message on
      obtain ⟨vc', hrest⟩ := ih (updateMyVectorClock c.port vc)
        (if id = none then nextElection counter else counter)
      exact ⟨vc', ((talks_sendMsg c vc _ k _ _).append
        (talks_of_plain _ (by simp [NodeEffect.isPlain]) _)).append hrest⟩

theorem talks_startupLoop (c : Config) (vc : VClock) (counter : ℕ) (ms : List GroupMem) :
    ∃ vc', Talks c.port vc (startupLoop c vc counter ms) vc' := by
  induction ms generalizing vc counter with
  | nil => exact ⟨vc, .nil vc⟩
  | cons m ms ih =>
    unfold startupLoop
    have hfirst : Talks c.port vc [.lastReceived (some .elect), .lastSent none] vc :=
      talks_of_plain _ (by simp [NodeEffect.isPlain]) vc
    split
    · split
      · exact ⟨vc, hfirst.append (talks_of_plain _ (by simp [NodeEffect.isPlain]) vc)⟩
      · obtain ⟨vc', hrest⟩ := ih (updateMyVectorClock c.port vc) (nextElection counter)
        exact ⟨vc', hfirst.append (((talks_sendMsg c vc _ .elect _ _).append
          (talks_of_plain _ (by simp [NodeEffect.isPlain]) _)).append hrest)⟩
    · obtain ⟨vc', hrest⟩ := ih vc counter
      exact ⟨vc', hfirst.append hrest⟩

theorem talks_handleMsg (c : Config) (n : Node) (vc : VClock) (src : SockAddr) (m : Msg) :
    ∃ vc', Talks c.port vc (handleMsg c n vc src m) vc' := by
  unfold handleMsg
  split
  · -- ELECT: the answer, and a call of its own
    have hanswer := (talks_sendMsg c vc src .answer m.electionID none).append
      (talks_of_plain [.lastReceived (some .elect)] (by simp [NodeEffect.isPlain]) _)
    split
    · exact ⟨_, hanswer.append (.nil _)⟩
    · obtain ⟨vc₁, helect⟩ := talks_sendLoop c .elect (some m.electionID)
        (updateMyVectorClock c.port vc) n.counter (higher c)
      have hreset : Talks c.port (updateMyVectorClock c.port vc) [.lastSent none]
          (updateMyVectorClock c.port vc) := talks_of_plain _ (by simp [NodeEffect.isPlain]) _
      by_cases hhigher : higher c = []
      · -- nobody is called, so the clock is still that of the answer
        obtain ⟨vc₂, hcoord⟩ := talks_sendLoop c .coord (some 0) (updateMyVectorClock c.port vc)
          n.counter (lower c)
        simp only [hhigher, sendLoop, if_true, List.append_nil]
        exact ⟨vc₂, hanswer.append (hreset.append hcoord)⟩
      · simp only [if_neg hhigher, List.append_nil]
        exact ⟨vc₁, hanswer.append (hreset.append helect)⟩
  · split
    · exact ⟨vc, talks_of_plain _ (by simp [NodeEffect.isPlain]) vc⟩
    · exact ⟨vc, .nil vc⟩
  · -- COORD: the thread may start, and nothing is sent
    refine ⟨vc, talks_of_plain _ (fun e he => ?_) vc⟩
    rcases List.mem_cons.mp he with rfl | he
    · rfl
    · split at he
      · rw [List.mem_singleton.mp he]
        rfl
      · simp at he
  · -- AYA: IAA is sent on the clock of the AYA
    exact ⟨_, (talks_of_plain [.lastReceived (some .aya), .lastSent (some .iaa)]
      (by simp [NodeEffect.isPlain]) vc).append (talks_sendMsg c vc src .iaa m.electionID none)⟩
  · exact ⟨vc, .nil vc⟩
  · exact ⟨vc, .nil vc⟩

theorem talks_receiveTimeout (c : Config) (n : Node) :
    ∃ vc', Talks c.port n.myVectorClock (receiveTimeout c n) vc' := by
  unfold receiveTimeout
  split
  · -- nobody has answered the ELECT
    exact talks_sendLoop c .coord (some 0) n.myVectorClock n.counter (lower c)
  · split
    · obtain ⟨vc', h⟩ := talks_sendLoop c .elect none n.myVectorClock n.counter (higher c)
      exact ⟨vc', .plain rfl h⟩
    · exact ⟨_, talks_of_plain _ (by simp [NodeEffect.isPlain]) _⟩
  · split
    · exact talks_sendLoop c .elect none n.myVectorClock n.counter (higher c)
    · exact talks_sendLoop c .coord (some 0) n.myVectorClock n.counter (lower c)
    · exact ⟨_, .nil _⟩
  · exact ⟨_, .nil _⟩

theorem talks_threadIteration (c : Config) (n : Node) :
    ∃ vc', Talks c.port n.myVectorClock (threadIteration c n) vc' := by
  unfold threadIteration
  split
  · split
    · exact ⟨_, talks_of_plain _ (by simp [NodeEffect.isPlain]) _⟩
    · exact ⟨_, .plain rfl (talks_sendMsg c n.myVectorClock _ .aya _ none)⟩
  · exact ⟨_, .nil _⟩

/-! ## The history agrees with the clocks -/

/-- The message carries the clock of the event at place `o`. -/
def Carries (t : History) (m : Msg) (o : ℕ) : Prop :=
  ∃ e, t.events[o]? = some e ∧ e.stamp.2 = m.vectorClock

/-- The time an event gives to a member. -/
def stampTime (ports : List ℕ) (x : LogEvent × VClock) : ℕ → ℕ := timeAt ports x.2

/-- The clock `vc` of node `p` says what the last event of `p` says. -/
structure Current (ports : List ℕ) (p : ℕ) (vc : VClock) (t : History) : Prop where
  slotted : Slotted ports vc
  own : 0 < timeAt ports vc p
  time : ∀ q, timeAt ports vc q = known (stampTime ports) t.events p q

/-- The history obeys the rule of vector clocks, the clocks of all nodes and datagrams are
    those of its events, and the logs are made of its lines. -/
structure CausalInv (ports : List ℕ) (s : GroupState) (t : History) : Prop where
  stamped : Stamped (stampTime ports) t.events
  slotted : ∀ e ∈ t.events, Slotted ports e.stamp.2
  carried : List.Forall₂ (Carries t) (s.net.map (·.msg)) t.origins
  current : ∀ p ∈ ports, Current ports p (s.nodes p).myVectorClock t
  logs : ∀ p ∈ ports, t.log p = (s.nodes p).log

variable {ports : List ℕ} {s : GroupState} {t t' : History} {n' : Node} {ds : List Datagram}
  {e : LogEvent} {cause : Option ℕ} {m : Msg} {o q : ℕ}

theorem Carries.mono {es : List LoggedEvent} (h : Carries t m o) (hes : t'.events = t.events ++ es) :
    Carries t' m o := by
  obtain ⟨e, he, hclock⟩ := h
  refine ⟨e, ?_, hclock⟩
  rw [hes, List.getElem?_append_left (List.getElem?_eq_some_iff.mp he).1]
  exact he

/-- Node `p` writes a line whose clock obeys the rule; it may have sent datagrams on that
    clock just before. -/
theorem CausalInv.logEvent (p : ℕ) (n' : Node) (e : LogEvent) (cause : Option ℕ) (ds : List Datagram)
    (h : CausalInv ports s t)
    (hcause : ∀ i, cause = some i → i < t.events.length)
    (hslotted : Slotted ports n'.myVectorClock)
    (htime : ∀ q, timeAt ports n'.myVectorClock q = max (known (stampTime ports) t.events p q)
      (received (stampTime ports) t.events cause q) + if q = p then 1 else 0)
    (hlog : n'.log = (s.nodes p).log ++ [(e, n'.myVectorClock)])
    (hds : ∀ d ∈ ds, d.msg.vectorClock = n'.myVectorClock) :
    CausalInv ports ⟨Function.update s.nodes p n', s.net ++ ds⟩
      ⟨t.events ++ [⟨p, cause, (e, n'.myVectorClock)⟩],
        t.origins ++ ds.map fun _ => t.events.length⟩ where
  stamped := .concat h.stamped hcause htime
  slotted e' he' := by
    rcases List.mem_append.mp he' with he' | he'
    · exact h.slotted e' he'
    · rw [List.mem_singleton.mp he']
      exact hslotted
  -- where the line stands is where the new datagrams come from
  carried := by
    rw [List.map_append]
    refine List.rel_append (h.carried.imp fun m o hc => hc.mono rfl) ?_
    -- the line of the new datagrams is the last one
    rw [List.forall₂_map_left_iff, List.forall₂_map_right_iff, List.forall₂_same]
    exact fun d hd => ⟨_, List.getElem?_concat_length, (hds d hd).symm⟩
  current q hq := by
    by_cases hqp : q = p
    · subst hqp
      simp only [Function.update_self]
      refine ⟨hslotted, ?_, fun r => ?_⟩
      · rw [htime, if_pos rfl]
        exact Nat.succ_pos _
      · -- the new line is the last event of `p`
        rw [known_concat, if_pos rfl]
        rfl
    · simp only [Function.update_of_ne hqp]
      -- the other nodes have no new event
      have hcurrent := h.current q hq
      refine ⟨hcurrent.slotted, hcurrent.own, fun r => ?_⟩
      rw [known_concat, if_neg (Ne.symm hqp)]
      exact hcurrent.time r
  logs q hq := by
    by_cases hqp : q = p
    · subst hqp
      simp only [Function.update_self, hlog, ← h.logs q hq]
      simp [History.log]
    · simp only [Function.update_of_ne hqp, ← h.logs q hq]
      simp [History.log, Ne.symm hqp]

/-- A step that changes neither clock nor log of the node. -/
theorem CausalInv.plain (h : CausalInv ports s t) (hclock : n'.myVectorClock = (s.nodes p).myVectorClock)
    (hlog : n'.log = (s.nodes p).log) :
    CausalInv ports ⟨Function.update s.nodes p n', s.net⟩ t where
  stamped := h.stamped
  slotted := h.slotted
  carried := h.carried
  current q hq := by
    by_cases hqp : q = p
    · subst hqp
      simp only [Function.update_self, hclock]
      exact h.current q hq
    · simp only [Function.update_of_ne hqp]
      exact h.current q hq
  logs q hq := by
    by_cases hqp : q = p
    · subst hqp
      simp only [Function.update_self, hlog]
      exact h.logs q hq
    · simp only [Function.update_of_ne hqp]
      exact h.logs q hq

/-! ## Handlers -/

/-- Node `p` performs some effects. -/
def GroupState.perform (s : GroupState) (p : ℕ) (es : List NodeEffect) : GroupState where
  nodes := Function.update s.nodes p (es.foldl Node.apply (s.nodes p))
  net := s.net ++ es.filterMap (Group.datagram p)

theorem GroupState.perform_nil (s : GroupState) (p : ℕ) : s.perform p [] = s := by
  simp [perform]

theorem GroupState.nodes_perform (s : GroupState) (p : ℕ) (es : List NodeEffect) :
    (s.perform p es).nodes p = es.foldl Node.apply (s.nodes p) := Function.update_self ..

theorem GroupState.perform_append (s : GroupState) (p : ℕ) (es fs : List NodeEffect) :
    s.perform p (es ++ fs) = (s.perform p es).perform p fs := by
  simp [perform]

theorem History.record_append (t : History) (p : ℕ) (cause : Option ℕ) (n : Node)
    (es fs : List NodeEffect) : t.record p cause n (es ++ fs) =
      (t.record p cause n es).record p cause (es.foldl Node.apply n) fs := by
  induction es generalizing n t with
  | nil => rfl
  | cons e es ih => exact ih _ _

/-- The invariant after some effects of node `p`. -/
def Performed (ports : List ℕ) (s : GroupState) (t : History) (p : ℕ) (cause : Option ℕ)
    (es : List NodeEffect) : Prop :=
  CausalInv ports (s.perform p es) (t.record p cause (s.nodes p) es)

theorem Performed.append (h : Performed ports (s.perform p es) (t.record p cause (s.nodes p) es) p
    cause fs) : Performed ports s t p cause (es ++ fs) := by
  unfold Performed at h ⊢
  rw [GroupState.perform_append, History.record_append]
  rwa [GroupState.nodes_perform] at h

theorem apply_of_plain {e : NodeEffect} (he : e.isPlain) (n : Node) :
    (n.apply e).myVectorClock = n.myVectorClock ∧ (n.apply e).log = n.log := by
  cases e with
  | control c => cases c <;> exact ⟨rfl, rfl⟩
  | clock | send | log => cases he
  | _ => exact ⟨rfl, rfl⟩

theorem CausalInv.performPlain {e : NodeEffect} (he : e.isPlain) (h : CausalInv ports s t) (p : ℕ)
    (cause : Option ℕ) : Performed ports s t p cause [e] := by
  -- a plain effect sends nothing and writes no line
  have hperform : s.perform p [e] = ⟨Function.update s.nodes p ((s.nodes p).apply e), s.net⟩ := by
    cases e <;> simp_all [NodeEffect.isPlain, GroupState.perform, Group.datagram]
  have hrecord : t.record p cause (s.nodes p) [e] = t := by
    cases e <;> simp_all [NodeEffect.isPlain, History.record, History.note]
  obtain ⟨hclock, hlog⟩ := apply_of_plain he (s.nodes p)
  unfold Performed
  rw [hperform, hrecord]
  exact h.plain hclock hlog

/-- A node has written as many lines as its clock says. -/
theorem CausalInv.own_time (h : CausalInv ports s t) (hp : p ∈ ports) :
    timeAt ports (s.nodes p).myVectorClock p = (s.nodes p).log.length := by
  rw [(h.current p hp).time, h.stamped.known_own, ← h.logs p hp, History.log, List.length_map]

theorem length_log_le (n : Node) (es : List NodeEffect) :
    n.log.length ≤ (es.foldl Node.apply n).log.length := by
  induction es generalizing n with
  | nil => exact Nat.le_refl _
  | cons e es ih =>
    refine Nat.le_trans ?_ (ih (n.apply e))
    cases e with
    | log e => simp [Node.apply]
    | control c => cases c <;> exact Nat.le_refl _
    | _ => exact Nat.le_refl _

/-- **Send site**: the line of a send has the clock of the last event and one more event of
    its own node. -/
theorem CausalInv.performSend (hnodup : ports.Nodup) (hroom : ports.length ≤ maxNodes)
    (hp0 : c.port ≠ 0) (hp : c.port ∈ ports) (h : CausalInv ports s t)
    (hvc : (s.nodes c.port).myVectorClock = vc) (hfew : (s.nodes c.port).log.length + 1 < 2 ^ 32)
    (cause : Option ℕ) (dst : SockAddr) (k : MsgType) (id : ℕ) (drawn : Option ℕ) :
    Performed ports s t c.port cause (sendMsg c vc dst k id drawn) := by
  have hcurrent := h.current c.port hp
  rw [← h.own_time hp] at hfew
  rw [hvc] at hcurrent hfew
  have hslotted := hcurrent.slotted.tick hnodup hp0 hfew
  have htime : ∀ q, timeAt ports (updateMyVectorClock c.port vc) q =
      max (known (stampTime ports) t.events c.port q) (received (stampTime ports) t.events none q) +
        if q = c.port then 1 else 0 := by
    intro q
    rw [timeAt_tick hcurrent.slotted hnodup hroom hp0 hcurrent.own hfew, hcurrent.time]
    simp [received]
  let m : Msg := { msgID := k, electionID := id, vectorClock := updateMyVectorClock c.port vc }
  have hds : ∀ d ∈ [(⟨c.port, dst, m⟩ : Datagram)], d.msg.vectorClock = updateMyVectorClock c.port vc := by
    intro d hd
    rw [List.mem_singleton.mp hd]
  -- clock, counter, datagram and line make one event, which no datagram causes
  cases drawn with
  | none => exact h.logEvent c.port _ _ none [⟨c.port, dst, m⟩] (by simp) hslotted htime rfl hds
  | some counter => exact h.logEvent c.port _ _ none [⟨c.port, dst, m⟩] (by simp) hslotted htime rfl hds

/-- What a node sends keeps the invariant until it has written `2 ^ 32` lines. -/
theorem CausalInv.talks (hnodup : ports.Nodup) (hroom : ports.length ≤ maxNodes) (hp0 : p ≠ 0)
    (hp : p ∈ ports) (htalks : Talks p vc es vc') (h : CausalInv ports s t)
    (hvc : (s.nodes p).myVectorClock = vc)
    (hfew : (es.foldl Node.apply (s.nodes p)).log.length < 2 ^ 32) (cause : Option ℕ) :
    Performed ports s t p cause es := by
  induction htalks generalizing s t with
  | nil vc =>
    unfold Performed
    rw [GroupState.perform_nil]
    exact h
  | @plain vc vc' e es he _ ih =>
    show Performed ports s t p cause ([e] ++ es)
    refine Performed.append (ih (h.performPlain he p cause) ?_ ?_)
    · rw [GroupState.nodes_perform, ← hvc]
      exact (apply_of_plain he (s.nodes p)).1
    · rwa [GroupState.nodes_perform]
  | @send vc vc' es c hc dst k id drawn _ ih =>
    subst hc
    rw [List.foldl_append] at hfew
    -- the line of this message is one of those written in the end
    have hline : ((sendMsg c vc dst k id drawn).foldl Node.apply (s.nodes c.port)).log.length =
        (s.nodes c.port).log.length + 1 := by
      cases drawn <;> simp [sendMsg, Node.apply]
    have hfew' : (s.nodes c.port).log.length + 1 < 2 ^ 32 := by
      rw [← hline]
      exact (length_log_le _ _).trans_lt hfew
    refine Performed.append
      (ih (h.performSend hnodup hroom hp0 hp hvc hfew' cause dst k id drawn) ?_ ?_)
    · rw [GroupState.nodes_perform]
      cases drawn <;> rfl
    · rwa [GroupState.nodes_perform]

/-- A datagram whose line is at place `o` arrives: the clock takes the maximum in every slot,
    and one more event of the own node. -/
theorem CausalInv.receive (hnodup : ports.Nodup) (hroom : ports.length ≤ maxNodes) (hp0 : p ≠ 0)
    (hp : p ∈ ports) (hport : c.port = p) (h : CausalInv ports s t) (hm : Carries t m o)
    (hn : n.myVectorClock = (s.nodes p).myVectorClock) (src : SockAddr)
    (hfew : ((Node.receive c n src m).foldl Node.apply (s.nodes p)).log.length < 2 ^ 32) :
    Performed ports s t p (some o) (Node.receive c n src m) := by
  subst hport
  have hcurrent := h.current c.port hp
  rw [Node.receive, List.foldl_append] at hfew
  obtain ⟨sender, hsender, hclock⟩ := hm
  -- the merge takes each slot from one of two clocks that agree on the member
  have hslotted : Slotted ports (mergeVectorClock n.myVectorClock m) := by
    refine Slotted.merge ?_ ?_
    · rw [hn]
      exact hcurrent.slotted
    · rw [← hclock]
      exact h.slotted sender (List.mem_of_getElem? hsender)
  have hmerge : ∀ q, timeAt ports (mergeVectorClock n.myVectorClock m) q =
      max (known (stampTime ports) t.events c.port q) (timeAt ports sender.stamp.2 q) := by
    intro q
    rw [timeAt_merge, hn, hcurrent.time, hclock]
  have hown : 0 < timeAt ports (mergeVectorClock n.myVectorClock m) c.port := by
    rw [hmerge, ← hcurrent.time]
    exact lt_max_of_lt_left hcurrent.own
  -- the sender knows no more events of the node than the node itself
  have hword : timeAt ports (mergeVectorClock n.myVectorClock m) c.port + 1 < 2 ^ 32 := by
    have hknown : timeAt ports sender.stamp.2 c.port ≤ known (stampTime ports) t.events c.port c.port :=
      h.stamped.le_known hsender c.port
    rw [hmerge, max_eq_left hknown, ← hcurrent.time, h.own_time hp]
    refine Nat.lt_of_le_of_lt ?_ ((length_log_le _ _).trans_lt hfew)
    simp [Node.apply]
  have hblock : Performed ports s t c.port (some o) [.clock (mergeVectorClock n.myVectorClock m),
      .clock (receivedClock c n m), .log (.message m.msgID m.electionID false src.port)] := by
    -- two clock writes and a line make one event, caused by the line of the sender
    have hline := h.logEvent c.port
      { (s.nodes c.port) with
        myVectorClock := receivedClock c n m
        log := (s.nodes c.port).log ++
          [(.message m.msgID m.electionID false src.port, receivedClock c n m)] }
      (.message m.msgID m.electionID false src.port) (some o) []
      (fun i hi => by cases hi; exact (List.getElem?_eq_some_iff.mp hsender).1)
      (hslotted.tick hnodup hp0 hword)
      (fun q => ?_) rfl (by simp)
    · simp only [List.map_nil, List.append_nil] at hline
      show CausalInv ports ⟨_, s.net ++ []⟩ _
      rw [List.append_nil]
      exact hline
    · show timeAt ports (updateMyVectorClock c.port (mergeVectorClock n.myVectorClock m)) q = _
      rw [timeAt_tick hslotted hnodup hroom hp0 hown hword, hmerge, received_of_cause rfl hsender]
      rfl
  -- what the handler sends follows the event of the reception
  obtain ⟨vc', htalks⟩ := talks_handleMsg c n (receivedClock c n m) src m
  refine Performed.append (CausalInv.talks hnodup hroom hp0 hp htalks hblock ?_ ?_ _)
  · rw [GroupState.nodes_perform]
    rfl
  · rwa [GroupState.nodes_perform]

namespace Group

variable {g : Group} {st : Stimulus} {i : Input} {k : ℕ} {addr : ℕ}

/-- A datagram on the net has an origin whose clock it carries. -/
theorem carries_of_net (hcarried : List.Forall₂ (Carries t) (s.net.map (·.msg)) t.origins)
    {d : Datagram} (hk : s.net[k]? = some d) : ∃ o, t.origins[k]? = some o ∧ Carries t d.msg o := by
  -- datagrams and origins are listed in the same order
  obtain ⟨hlen, hget⟩ := List.forall₂_iff_get.mp hcarried
  obtain ⟨hlt, rfl⟩ := List.getElem?_eq_some_iff.mp hk
  rw [List.length_map] at hlen
  have hlt' : k < t.origins.length := by
    rw [← hlen]
    exact hlt
  have hcarries := hget k (by simpa using hlt) hlt'
  simp only [List.get_eq_getElem, List.getElem_map] at hcarries
  exact ⟨_, List.getElem?_eq_getElem hlt', hcarries⟩

/-- A delivered message comes from the net. -/
theorem deliver_of_input {src : SockAddr} (hin : input s.net p st = some (.message src m)) :
    ∃ k addr d, st = .deliver k addr ∧ s.net[k]? = some d ∧ m = d.msg := by
  cases st with
  | deliver k addr =>
    unfold input at hin
    cases hk : s.net[k]? with
    | none => simp [hk] at hin
    | some d =>
      simp only [hk, Option.ite_none_right_eq_some, Option.some.injEq, Input.message.injEq] at hin
      exact ⟨k, addr, d, rfl, hk, hin.2.2.symm⟩
  | timeout => exact absurd hin (by simp [input])
  | thread => exact absurd hin (by simp [input])

/-- **A handler keeps the history and the clocks in agreement.** -/
theorem handle_performed (hnodup : ports.Nodup) (hroom : ports.length ≤ maxNodes) (hp0 : p ≠ 0)
    (hp : p ∈ ports) (h : CausalInv ports s t) (hin : input s.net p st = some i)
    (hfew : ((handle (g.config p) (s.nodes p) i).foldl Node.apply (s.nodes p)).log.length < 2 ^ 32) :
    Performed ports s t p (causeOf t st) (handle (g.config p) (s.nodes p) i) := by
  -- all that is done without a datagram are sends and plain effects
  have htalks : ∀ es, (∃ vc', Talks p (s.nodes p).myVectorClock es vc') →
      (es.foldl Node.apply (s.nodes p)).log.length < 2 ^ 32 → Performed ports s t p (causeOf t st) es := by
    rintro es ⟨vc', htalks⟩ hfew
    exact h.talks hnodup hroom hp0 hp htalks rfl hfew _
  cases i with
  | message src m =>
    obtain ⟨k, addr, d, rfl, hk, rfl⟩ := deliver_of_input hin
    obtain ⟨o, ho, hcarries⟩ := carries_of_net h.carried hk
    have hcause : causeOf t (.deliver k addr) = some o := ho
    rw [hcause] at htalks ⊢
    cases hcontrol : (s.nodes p).control with
    | starting =>
      simp only [handle, hcontrol] at hfew ⊢
      rw [List.foldl_append] at hfew
      -- the first message: lastSent and lastReceived are cleared before it is handled
      have hfirst : Talks p (s.nodes p).myVectorClock
          [.control .loop, .lastReceived none, .lastSent none] (s.nodes p).myVectorClock :=
        talks_of_plain _ (by simp [NodeEffect.isPlain]) _
      have hstarted := htalks _ ⟨_, hfirst⟩ ((length_log_le _ _).trans_lt hfew)
      refine Performed.append (CausalInv.receive (c := g.config p) hnodup hroom hp0 hp rfl hstarted
        hcarries ?_ src ?_)
      · rw [GroupState.nodes_perform]
        rfl
      · rwa [GroupState.nodes_perform]
    | loop =>
      simp only [handle, hcontrol] at hfew ⊢
      exact CausalInv.receive (c := g.config p) hnodup hroom hp0 hp rfl h hcarries rfl src hfew
    | exited =>
      simp only [handle, hcontrol] at hfew ⊢
      exact htalks _ ⟨_, .nil _⟩ hfew
  | timeout =>
    cases hcontrol : (s.nodes p).control with
    | starting =>
      simp only [handle, hcontrol] at hfew ⊢
      obtain ⟨vc', hloop⟩ := talks_startupLoop (g.config p) (s.nodes p).myVectorClock
        (s.nodes p).counter (g.config p).groupMems
      exact htalks _ ⟨vc', .plain rfl hloop⟩ hfew
    | loop =>
      simp only [handle, hcontrol] at hfew ⊢
      exact htalks _ (talks_receiveTimeout (g.config p) (s.nodes p)) hfew
    | exited =>
      simp only [handle, hcontrol] at hfew ⊢
      exact htalks _ ⟨_, .nil _⟩ hfew
  | thread => exact htalks _ (talks_threadIteration (g.config p) (s.nodes p)) hfew

/-- A step of a node that handles a stimulus to its end; no node dies or is started again. -/
def Atomic (_ : GroupState) : GroupAct → Prop
  | .run _ a => a.cut = none
  | .restart _ => False

instance (s : GroupState) : ∀ a, Decidable (Atomic s a)
  | .run _ _ => inferInstanceAs (Decidable (_ = _))
  | .restart _ => isFalse id

/-- No member has written `2 ^ 32` lines. -/
def FewLines (ports : List ℕ) (s : GroupState) : Prop := ∀ p ∈ ports, (s.nodes p).log.length < 2 ^ 32

/-- A handler that runs to its end. -/
theorem observed_next_run {a : Act Stimulus} (hin : i ∈ input s.net p a.input) (hatomic : a.cut = none) :
    g.observed.next (s, t) (.run p a) =
      (s.perform p (handle (g.config p) (s.nodes p) i),
        t.record p (causeOf t a.input) (s.nodes p) (handle (g.config p) (s.nodes p) i)) := by
  show (g.next s (.run p a), g.observe s (.run p a) t) = _
  simp only [next, observe, Option.mem_def.mp hin, hatomic]
  rfl

/-- No line is ever taken away. -/
theorem FewLines.of_next {a : GroupAct} (henabled : g.enabled s a) (hatomic : Atomic s a)
    (h : FewLines ports (g.observed.next (s, t) a).1) : FewLines ports s := by
  cases a with
  | restart p => exact hatomic.elim
  | run p a =>
    obtain ⟨-, i, hin, -⟩ := henabled
    rw [observed_next_run hin hatomic] at h
    intro q hq
    by_cases hqp : q = p
    · subst hqp
      have hend := h q hq
      rw [GroupState.nodes_perform] at hend
      exact (length_log_le _ _).trans_lt hend
    · simpa only [GroupState.perform, Function.update_of_ne hqp] using h q hq

/-- **Step lemma** -/
theorem causalInv_next (hnodup : ports.Nodup) (hroom : ports.length ≤ maxNodes)
    (hports : ∀ p, (g.groupMems p).map GroupMem.portno = ports) (h : CausalInv ports s t)
    {a : GroupAct} (henabled : g.enabled s a) (hatomic : Atomic s a)
    (hfew : FewLines ports (g.observed.next (s, t) a).1) :
    CausalInv ports (g.observed.next (s, t) a).1 (g.observed.next (s, t) a).2 := by
  cases a with
  | restart p => exact hatomic.elim
  | run p a =>
    obtain ⟨hp, i, hin, -⟩ := henabled
    -- ports are positive, so no member takes the slots with id 0
    have hp0 : p ≠ 0 := by
      obtain ⟨mem, hmem, rfl⟩ := List.mem_map.mp hp
      exact (g.range _ mem hmem).1.ne'
    rw [hports] at hp
    rw [observed_next_run hin hatomic] at hfew ⊢
    have hend := hfew p hp
    rw [GroupState.nodes_perform] at hend
    exact handle_performed hnodup hroom hp0 hp h hin hend

theorem causalInv_start (hnodup : ports.Nodup) (hroom : ports.length ≤ maxNodes)
    (hports : ∀ p, (g.groupMems p).map GroupMem.portno = ports) :
    CausalInv ports g.start g.firstLines := by
  have hfirst : g.firstLines.events =
      ports.map fun p => ⟨p, none, (.start, startClock (g.config p))⟩ := by
    rw [firstLines, Group.ports, hports]
  -- a first clock counts one event of its own node and none of the others
  have htime : ∀ p ∈ ports, ∀ q, stampTime ports (LogEvent.start, startClock (g.config p)) q =
      if q = p then 1 else 0 :=
    fun p hp q => timeAt_startClock (hports p) hnodup hroom hp q
  have hslotted : ∀ p ∈ ports, Slotted ports (startClock (g.config p)) :=
    fun p hp => slotted_startClock (hports p) hnodup hroom hp
  obtain ⟨hstamped, hknown⟩ := stamped_of_starts hnodup htime
  refine ⟨?_, fun e he => ?_, .nil, fun p hp => ⟨hslotted p hp, ?_, fun q => ?_⟩, fun p hp => ?_⟩
  · rw [hfirst]
    exact hstamped
  · rw [hfirst] at he
    obtain ⟨p, hp, rfl⟩ := List.mem_map.mp he
    exact hslotted p hp
  · have hown := htime p hp p
    rw [if_pos rfl] at hown
    exact Nat.lt_of_lt_of_eq Nat.one_pos hown.symm
  · rw [hfirst, hknown p hp q]
    exact htime p hp q
  · -- each member has one start line
    have hfilter : ports.filter (fun q => q = p) = [p] := by
      rw [List.filter_eq, List.count_eq_one_of_mem hnodup hp]
      rfl
    rw [History.log, hfirst, List.filter_map, List.map_map]
    simp only [Function.comp_def, hfilter]
    rfl

/-- Slot `k` of every node clock and of every clock in flight is empty or belongs to the `k`-th
    member. -/
def SlotsOfMembers (g : Group) (s : GroupState) : Prop :=
  (∀ p ∈ g.ports, Slotted g.ports (s.nodes p).myVectorClock) ∧
    ∀ d ∈ s.net, Slotted g.ports d.msg.vectorClock

/-- An event happened before another one exactly when its clock is at most the other clock in
    every slot, and different from it. -/
def ClocksDecide (t : History) : Prop :=
  ∀ i j e f, t.events[i]? = some e → t.events[j]? = some f →
    (HappenedBefore t.events i j ↔
      (∀ k, (e.stamp.2 k).time ≤ (f.stamp.2 k).time) ∧ e.stamp.2 ≠ f.stamp.2)

/-- The history consists of the ShiViz logs of the members. -/
def Logs (g : Group) (s : GroupState) (t : History) : Prop :=
  ∀ p ∈ g.ports, t.log p = (s.nodes p).log

/-- **Vector clocks characterise causality** in every run of at most `MAX_NODES` nodes that read
    the same group list, handle every stimulus to its end and are never started again, as long as
    no node has written `2 ^ 32` lines. -/
theorem slots_characterise_causality (g : Group) (as : List GroupAct)
    (hsame : ∀ p q, g.groupMems p = g.groupMems q) (hroom : ∀ p, (g.groupMems p).length ≤ maxNodes)
    (hrun : g.machine.Along g.enabled g.start as) (hatomic : g.machine.Along Atomic g.start as)
    (hfew : FewLines g.ports (g.machine.after g.start as)) :
    let x := g.observed.after (g.start, g.firstLines) as
    x.1 = g.machine.after g.start as ∧ g.Logs x.1 x.2 ∧ g.SlotsOfMembers x.1 ∧ ClocksDecide x.2 := by
  intro x
  have hports : ∀ p, (g.groupMems p).map GroupMem.portno = g.ports := fun p => by rw [ports, hsame p 0]
  have hnodup : g.ports.Nodup := g.distinct 0
  have hlength : g.ports.length ≤ maxNodes := by
    rw [ports, List.length_map]
    exact hroom 0
  have hfst : x.1 = g.machine.after g.start as := Machine.watch_after_fst as
  -- the invariant holds until a node has written too much, and it stays so from then on
  have hinv : FewLines g.ports x.1 → CausalInv g.ports x.1 x.2 := by
    refine Machine.Along.invariant (I := fun y => FewLines g.ports y.1 → CausalInv g.ports y.1 y.2)
      (Machine.along_watch.mpr (Machine.along_and.mpr ⟨hrun, hatomic⟩))
      (fun _ => causalInv_start hnodup hlength hports) fun y a hy hC hfew => ?_
    exact causalInv_next hnodup hlength hports (hy (hfew.of_next hC.1 hC.2)) hC.1 hC.2 hfew
  replace hinv := hinv (by rwa [hfst])
  refine ⟨hfst, hinv.logs, ⟨fun p hp => (hinv.current p hp).slotted, ?_⟩, ?_⟩
  · -- a datagram has the clock of a logged event
    intro d hd
    obtain ⟨k, hk⟩ := List.getElem?_of_mem hd
    obtain ⟨o, -, e, he, hclock⟩ := carries_of_net hinv.carried hk
    rw [← hclock]
    exact hinv.slotted e (List.mem_of_getElem? he)
  · intro i j e f he hf
    -- componentwise on the members is componentwise on the slots, since both agree on the ids
    have hse := hinv.slotted e (List.mem_of_getElem? he)
    have hsf := hinv.slotted f (List.mem_of_getElem? hf)
    rw [hinv.stamped.happenedBefore_iff he hf]
    refine and_congr (forall_timeAt_le hse hnodup) (not_congr ⟨fun heq => ?_, fun heq => ?_⟩)
    · exact eq_of_timeAt_eq hse hsf hnodup heq
    · show timeAt g.ports e.stamp.2 = timeAt g.ports f.stamp.2
      rw [heq]

/-- Node 2 calls an election that node 3 wins; node 1 follows it and asks whether it is alive.
    The ELECT is delivered twice, its answer late, and the COORD for node 2 is lost. -/
def electionOfAll : List GroupAct :=
  [.run 3 ⟨.timeout, none⟩, .run 2 ⟨.timeout, none⟩, .run 3 ⟨.deliver 0 1, none⟩,
    .run 1 ⟨.deliver 2 1, none⟩, .run 1 ⟨.thread, none⟩, .run 3 ⟨.deliver 0 1, none⟩,
    .run 2 ⟨.deliver 1 1, none⟩, .run 3 ⟨.deliver 4 1, none⟩]

theorem slots_characterise_causality_three :
    let x := three.observed.after (three.start, three.firstLines) electionOfAll
    x.1 = three.machine.after three.start electionOfAll ∧ three.Logs x.1 x.2 ∧
      three.SlotsOfMembers x.1 ∧ ClocksDecide x.2 :=
  slots_characterise_causality three electionOfAll (fun _ _ => rfl)
    (fun p => by show (ofThree 0).groupMems.length ≤ maxNodes; decide) (by decide +kernel)
    (by decide +kernel) (by unfold FewLines; decide +kernel)

/-! ## The wrap of a time -/

/-- The AYA thread of node `p` is running, and the last line of the history is its own. -/
structure Asking (g : Group) (p : ℕ) (x : GroupState × History) (vc : VClock) : Prop where
  thread : (x.1.nodes p).aya ≠ none
  running : (x.1.nodes p).control ≠ .exited
  clock : (x.1.nodes p).myVectorClock = vc
  last : ∃ e ∈ x.2.events.getLast?, e.proc = p ∧ e.stamp.2 = vc

/-- One more AYA, one more tick. -/
theorem Asking.next {x : GroupState × History} (h : Asking g p x vc) (hrate : AYARate (g.config p) 0 ≠ none) :
    Asking g p (g.observed.next x (.run p ⟨.thread, none⟩)) (updateMyVectorClock p vc) ∧
      ∃ e, (g.observed.next x (.run p ⟨.thread, none⟩)).2.events = x.2.events ++ [e] := by
  obtain ⟨s, t⟩ := x
  obtain ⟨target, htarget⟩ : ∃ target, (s.nodes p).aya = some target :=
    Option.ne_none_iff_exists'.mp h.thread
  have hthread : handle (g.config p) (s.nodes p) .thread = .lastSent (some .aya) ::
      sendMsg (g.config p) (s.nodes p).myVectorClock target .aya (p % 2 ^ 32) := by
    simp only [handle, threadIteration, htarget, if_neg hrate]
    rfl
  have hclock : (s.nodes p).myVectorClock = vc := h.clock
  rw [observed_next_run (i := .thread) rfl rfl, hthread, hclock]
  refine ⟨⟨?_, ?_, ?_, ?_⟩, ?_⟩
  · rw [GroupState.nodes_perform]
    exact h.thread
  · rw [GroupState.nodes_perform]
    exact h.running
  · rw [GroupState.nodes_perform]
    rfl
  · exact ⟨_, List.getLast?_concat, rfl, rfl⟩
  · exact ⟨_, rfl⟩

/-- A node asks whether its coordinator is alive as often as it likes. -/
theorem Asking.run {x : GroupState × History} (hp : p ∈ (g.groupMems p).map GroupMem.portno)
    (hrate : AYARate (g.config p) 0 ≠ none) (h : Asking g p x vc) (k : ℕ) :
    g.observed.Along (fun y a => g.enabled y.1 a ∧ Atomic y.1 a) x
        (List.replicate k (.run p ⟨.thread, none⟩)) ∧
      Asking g p (g.observed.after x (List.replicate k (.run p ⟨.thread, none⟩)))
        ((updateMyVectorClock p)^[k] vc) ∧
      ∃ es, es.length = k ∧
        (g.observed.after x (List.replicate k (.run p ⟨.thread, none⟩))).2.events = x.2.events ++ es := by
  induction k generalizing x vc with
  | zero => exact ⟨trivial, h, [], rfl, (List.append_nil _).symm⟩
  | succ k ih =>
    obtain ⟨hnext, e, hevent⟩ := h.next hrate
    obtain ⟨hrun, hend, es, hlength, hevents⟩ := ih hnext
    refine ⟨⟨⟨⟨hp, .thread, rfl, h.running, h.thread⟩, rfl⟩, hrun⟩, hend, e :: es, ?_, ?_⟩
    · rw [List.length_cons, hlength]
    · rw [List.replicate_succ, Machine.after_cons, hevents, hevent, List.append_assoc]
      rfl

/-- Two events of a node with one clock. -/
theorem not_clocksDecide {j : ℕ} {e f : LoggedEvent} (he : t.events[k]? = some e) (hf : t.events[j]? = some f)
    (hkj : k < j) (hproc : e.proc = f.proc) (hclock : e.stamp.2 = f.stamp.2) : ¬ ClocksDecide t :=
  fun hdecide => ((hdecide k j e f he hf).mp (.single (.program he hf hkj hproc))).2 hclock

/-- Node 1 follows node 3. -/
def followed : List GroupAct :=
  [.run 3 ⟨.timeout, none⟩, .run 3 ⟨.timeout, none⟩, .run 1 ⟨.deliver 0 1, none⟩]

/-- And sends it `2 ^ 32` AYAs. -/
def askForever : List GroupAct := followed ++ List.replicate (2 ^ 32) (.run 1 ⟨.thread, none⟩)

/-- The clock of node 1 is again that of the COORD it follows: the line of the COORD happened
    before that of the last AYA, and the clocks are the same. -/
theorem clocks_wrap :
    (∀ p q, three.groupMems p = three.groupMems q) ∧ (∀ p, (three.groupMems p).length ≤ maxNodes) ∧
      three.machine.Along three.enabled three.start askForever ∧
      three.machine.Along Atomic three.start askForever ∧
      ¬ ClocksDecide (three.observed.after (three.start, three.firstLines) askForever).2 := by
  have hstart : Asking three 1 (three.observed.after (three.start, three.firstLines) followed)
      ((three.machine.after three.start followed).nodes 1).myVectorClock :=
    ⟨by decide +kernel, by decide +kernel, by decide +kernel, by decide +kernel⟩
  have hnormal : three.observed.Along (fun y a => three.enabled y.1 a ∧ Atomic y.1 a)
      (three.start, three.firstLines) followed := by decide +kernel
  obtain ⟨hrun, hend, es, hlength, hevents⟩ := hstart.run (by decide) (by decide) (2 ^ 32)
  have hall := Machine.along_append.mpr ⟨hnormal, hrun⟩
  rw [iterate_updateMyVectorClock_words (by decide +kernel)] at hend
  rw [← Machine.after_append, ← askForever] at hend hevents
  rw [← askForever] at hall
  obtain ⟨henabled, hatomic⟩ := Machine.along_and.mp (Machine.along_watch.mp hall)
  have hroom : ∀ p, (three.groupMems p).length ≤ maxNodes := fun p => by
    show (ofThree 0).groupMems.length ≤ maxNodes
    decide
  refine ⟨fun _ _ => rfl, hroom, henabled, hatomic, ?_⟩
  -- the last line before the AYAs and the last line of all
  obtain ⟨e, he, hproc, hclock⟩ := hstart.last
  obtain ⟨f, hf, hproc', hclock'⟩ := hend.last
  rw [Option.mem_def, List.getLast?_eq_getElem?] at he hf
  have hi := (List.getElem?_eq_some_iff.mp he).1
  have hij : (three.observed.after (three.start, three.firstLines) followed).2.events.length - 1 <
      (three.observed.after (three.start, three.firstLines) askForever).2.events.length - 1 := by
    have hpos : 0 < es.length := hlength ▸ Nat.two_pow_pos 32
    rw [hevents, List.length_append]
    omega
  rw [← List.getElem?_append_left hi, ← hevents] at he
  exact not_clocksDecide he hf hij (hproc.trans hproc'.symm) (hclock.trans hclock'.symm)

end Group

end DistributedSystem.Bully
