import DistributedSystem.Bully.Node
import Mathlib.Tactic.Common

/-!
# The election state of a node

Of a running node, elections depend on `lastSent`, `lastReceived` and the target of the AYA
thread only. `Election.next` is the transition system on these three, with one case for
each branch of the program, and `election_handle` says that the node refines it: an
invariant of elections is proved on `Election.next` and holds for the program.
-/

namespace DistributedSystem.Bully

open DistributedSystem.Library

/-- The state of an election at a node that has not exited; `started` is set by the end of
    the first `recvfrom`. -/
structure Election where
  started : Bool
  lastSent : Option MsgType
  lastReceived : Option MsgType
  aya : Option SockAddr
  deriving DecidableEq

namespace Election

/-- All names resolve. -/
def Resolves (c : Config) (ms : List GroupMem) : Prop := ∀ m ∈ ms, c.gethostbyname m.hostname ≠ none

instance (c : Config) (ms : List GroupMem) : Decidable (Resolves c ms) := by
  unfold Resolves; infer_instance

/-- A message of kind `k` to every member of a list. -/
def burst (c : Config) (k : MsgType) (ms : List GroupMem) (e : Election) : Option Election :=
  if Resolves c ms then some (if ms = [] then e else { e with lastSent := some k }) else none

/-- The first election ends with what the last member of the list leaves in `lastSent`. -/
def startup (c : Config) (ms : List GroupMem) (e : Election) : Option Election :=
  if Resolves c (ms.filter fun m => c.port < m.portno) then
    some (match ms.getLast? with
      | none => e
      | some m => { e with lastReceived := some .elect,
                           lastSent := if c.port < m.portno then some .elect else none })
  else none

/-- A message of kind `k` is handled. -/
def receive (c : Config) (e : Election) (src : SockAddr) : MsgType → Option Election
  | .elect =>
      if e.lastSent = some .elect then some { e with lastReceived := some .elect }
      else
        let e := { e with lastReceived := some .elect, lastSent := none }
        if Node.higher c = [] then burst c .coord (Node.lower c) e
        else burst c .elect (Node.higher c) e
  | .answer =>
      some (if e.lastSent = some .elect then
        { e with lastReceived := some .answer, lastSent := none } else e)
  | .coord =>
      some { e with lastReceived := some .coord, aya := if e.aya = none then some src else e.aya }
  | .aya => some { e with lastReceived := some .aya, lastSent := some .iaa }
  | .iaa | .other _ => some e

/-- The receive timeout in the loop. -/
def timeout (c : Config) (e : Election) : Option Election :=
  match e.lastSent with
  | some .elect => burst c .coord (Node.lower c) e
  | some .aya =>
      match e.aya with
      | some _ => burst c .elect (Node.higher c) { e with aya := none }
      | none => none
  | none =>
      match e.lastReceived with
      | some .answer => burst c .elect (Node.higher c) e
      | some .elect => burst c .coord (Node.lower c) e
      | _ => some e
  | _ => some e

/-- The election state after an input; `none` is the end of the program. -/
def next (c : Config) (e : Election) : Node.Input → Option Election
  | .message src m =>
      receive c (if e.started then e
        else { e with started := true, lastReceived := none, lastSent := none }) src m.msgID
  | .timeout =>
      if e.started then timeout c e else startup c c.groupMems { e with started := true }
  | .thread =>
      match e.aya with
      | some _ => if Node.AYARate c 0 = none then none else some { e with lastSent := some .aya }
      | none => some e

theorem startup_cons (c : Config) (m : GroupMem) (ms : List GroupMem) (e : Election) :
    startup c (m :: ms) e =
      if c.port < m.portno ∧ c.gethostbyname m.hostname = none then none
      else startup c ms { e with lastReceived := some .elect,
                                 lastSent := if c.port < m.portno then some .elect else none } := by
  have hlast : (m :: ms).getLast? = some (ms.getLast?.getD m) := List.getLast?_cons
  unfold startup
  rw [hlast]
  by_cases hm : c.port < m.portno
  · -- a member above that has no address ends the process
    by_cases haddr : c.gethostbyname m.hostname = none
    · have hno : ¬ Resolves c ((m :: ms).filter fun m => c.port < m.portno) := fun hall =>
        hall m (by simp [hm]) haddr
      rw [if_neg hno, if_pos ⟨hm, haddr⟩]
    · have hresolves : Resolves c ((m :: ms).filter fun m => c.port < m.portno) ↔
          Resolves c (ms.filter fun m => c.port < m.portno) := by
        simp [Resolves, hm, haddr]
      -- the last member decides what is in lastSent
      simp only [hresolves, haddr, and_false, if_false]
      cases ms.getLast? <;> rfl
  · have hresolves : Resolves c ((m :: ms).filter fun m => c.port < m.portno) ↔
        Resolves c (ms.filter fun m => c.port < m.portno) := by
      simp [Resolves, hm]
    simp only [hresolves, hm, false_and, if_false]
    cases ms.getLast? with
    | none => simp [hm]
    | some last => rfl

end Election

namespace Node

/-- The election state of a node. -/
def election (n : Node) : Option Election :=
  if n.control = .exited then none
  else some ⟨n.control = .loop, n.lastSent, n.lastReceived, n.aya⟩

variable {c : Config} {n : Node} {k : MsgType} {es : List NodeEffect} {vc : VClock} {x : Election}

@[simp] theorem process_apply (c : Config) (n : Node) (e : NodeEffect) :
    (process c).apply n e = n.apply e := rfl

@[simp] theorem process_handler (c : Config) (n : Node) (i : Input) :
    (process c).handler n i = handle c n i := rfl

theorem control_of_election (h : n.election = some x) : n.control ≠ .exited := by
  intro hexit
  rw [election, if_pos hexit] at h
  exact absurd h (by simp)

theorem election_eq (h : n.control ≠ .exited) :
    n.election = some ⟨n.control = .loop, n.lastSent, n.lastReceived, n.aya⟩ := if_neg h

theorem control_of_accepts {i : Input} (h : accepts c n i) : n.control ≠ .exited := by
  cases i with
  | message src m => exact h
  | timeout => exact h.1
  | thread => exact h.1

theorem fields_of_election (h : n.election = some x) : x.started = decide (n.control = .loop) ∧
    x.lastSent = n.lastSent ∧ x.lastReceived = n.lastReceived ∧ x.aya = n.aya := by
  rw [election_eq (control_of_election h)] at h
  cases h
  exact ⟨rfl, rfl, rfl, rfl⟩

/-- Setting `lastSent` does what it says. -/
theorem election_lastSent (h : n.election = some x) (s : Option MsgType) :
    (n.apply (.lastSent s)).election = some { x with lastSent := s } := by
  have hcontrol := control_of_election h
  rw [election_eq hcontrol] at h
  cases h
  exact if_neg hcontrol

theorem election_lastReceived (h : n.election = some x) (s : Option MsgType) :
    (n.apply (.lastReceived s)).election = some { x with lastReceived := s } := by
  have hcontrol := control_of_election h
  rw [election_eq hcontrol] at h
  cases h
  exact if_neg hcontrol

theorem election_startThread (h : n.election = some x) (a : SockAddr) :
    (n.apply (.startThread a)).election = some { x with aya := some a } := by
  have hcontrol := control_of_election h
  rw [election_eq hcontrol] at h
  cases h
  exact if_neg hcontrol

theorem election_cancelThread (h : n.election = some x) :
    (n.apply .cancelThread).election = some { x with aya := none } := by
  have hcontrol := control_of_election h
  rw [election_eq hcontrol] at h
  cases h
  exact if_neg hcontrol

theorem election_loop (h : n.election = some x) :
    (n.apply (.control .loop)).election = some { x with started := true } := by
  have hcontrol := control_of_election h
  rw [election_eq hcontrol] at h
  cases h
  rfl

/-- A message changes the counter and the clock, which are no part of the election. -/
theorem election_sendMsg (h : n.election = some x) (c : Config) (vc : VClock) (dst : SockAddr) (k : MsgType)
    (id : ℕ) (drawn : Option ℕ) :
    ((process c).exec n (sendMsg c vc dst k id drawn)).election = some x := by
  cases drawn <;> exact h

/-- `sendLoop` refines `burst`. -/
theorem election_sendLoop (h : n.election = some x) (id : Option ℕ) (counter : ℕ)
    (ms : List GroupMem) : ((process c).exec n (sendLoop c k id vc counter ms)).election =
      Election.burst c k ms x := by
  induction ms generalizing n x vc counter with
  | nil =>
      rw [sendLoop, Process.exec_nil, h, Election.burst, if_pos (by simp [Election.Resolves]), if_pos rfl]
  | cons m ms ih =>
      unfold sendLoop
      cases hm : c.gethostbyname m.hostname with
      | none =>
          have hno : ¬ Election.Resolves c (m :: ms) := fun hall => hall m (by simp) hm
          rw [Election.burst, if_neg hno]
          rfl
      | some addr =>
          simp only [Process.exec_append]
          have hsent := election_lastSent (election_sendMsg h c vc ⟨addr, m.portno % 65536⟩ k (id.getD counter)
            (if id = none then some counter else none)) (some k)
          rw [Process.exec_cons, Process.exec_nil, process_apply, ih hsent]
          have hresolves : Election.Resolves c (m :: ms) ↔ Election.Resolves c ms := by
            simp [Election.Resolves, hm]
          simp only [Election.burst, hresolves]
          split
          · simp
          · rfl

/-- `startupLoop` refines `startup`. -/
theorem election_startupLoop (h : n.election = some x) (counter : ℕ) (ms : List GroupMem) :
    ((process c).exec n (startupLoop c vc counter ms)).election = Election.startup c ms x := by
  induction ms generalizing n x vc counter with
  | nil => exact h
  | cons m ms ih =>
      -- every member resets lastSent, and those above set it again
      have hreset := election_lastSent (election_lastReceived h (some .elect)) none
      unfold startupLoop
      rw [Process.exec_append, Election.startup_cons]
      by_cases hm : c.port < m.portno
      · rw [if_pos hm]
        cases haddr : c.gethostbyname m.hostname with
        | none =>
            rw [if_pos ⟨hm, rfl⟩]
            rfl
        | some addr =>
            have hsent := election_lastSent (election_sendMsg hreset c vc ⟨addr, m.portno % 65536⟩ .elect counter
              (some counter)) (some .elect)
            have hgo : ¬ (c.port < m.portno ∧ some addr = none) := fun hno => absurd hno.2 (by simp)
            rw [if_neg hgo, if_pos hm, Process.exec_append]
            exact ih hsent _
      · have hgo : ¬ (c.port < m.portno ∧ c.gethostbyname m.hostname = none) := fun hno => hm hno.1
        rw [if_neg hm, if_neg hgo, if_neg hm]
        exact ih hreset _

/-- `handleMsg` refines `receive`. -/
theorem election_handleMsg (h : n.election = some x) (n' : Node) (hsent : n'.lastSent = x.lastSent)
    (haya : n'.aya = x.aya) (src : SockAddr) (m : Msg) :
    ((process c).exec n (handleMsg c n' vc src m)).election = Election.receive c x src m.msgID := by
  unfold handleMsg
  cases hk : m.msgID with
  | elect =>
      -- the answer, then a call if none is running
      have hreceived := election_lastReceived (n := (process c).exec n
        (sendMsg c vc src .answer m.electionID)) h (some .elect)
      simp only [hsent, Process.exec_append, Election.receive]
      split
      · exact hreceived
      · have hzero := election_lastSent hreceived none
        split
        · rename_i hnone
          rw [hnone]
          exact election_sendLoop hzero _ _ _
        · rw [List.append_nil]
          exact election_sendLoop hzero _ _ _
  | answer =>
      simp only [hsent, Election.receive]
      split
      · exact election_lastSent (election_lastReceived h _) _
      · exact h
  | coord =>
      have hreceived := election_lastReceived h (some .coord)
      simp only [haya, Election.receive]
      split
      · exact election_startThread hreceived src
      · exact hreceived
  | aya => exact election_lastSent (election_lastReceived h _) _
  | iaa => exact h
  | other id => exact h

theorem election_receiveTimeout (h : n.election = some x) :
    ((process c).exec n (receiveTimeout c n)).election = Election.timeout c x := by
  obtain ⟨-, hsent, hreceived, haya⟩ := fields_of_election h
  unfold receiveTimeout Election.timeout
  rw [← hsent, ← hreceived, ← haya]
  cases hs : x.lastSent with
  | none =>
      cases hr : x.lastReceived with
      | none => exact h
      | some k =>
          cases k with
          | answer => exact election_sendLoop h _ _ _
          | elect => exact election_sendLoop h _ _ _
          | _ => exact h
  | some k =>
      cases k with
      | elect => exact election_sendLoop h _ _ _
      | aya =>
          cases ha : x.aya with
          | none => rfl
          | some target =>
              -- the thread is cancelled before the call
              have hburst : ((process c).exec (n.apply .cancelThread)
                  (sendLoop c .elect none n.myVectorClock n.counter (higher c))).election =
                    Election.burst c .elect (higher c) { x with aya := none } :=
                election_sendLoop (election_cancelThread h) _ _ _
              rw [hs] at hburst
              exact hburst
      | _ => exact h

/-- A received message is logged, and handled on a state that has not changed. -/
theorem election_receive (h : n.election = some x) (n' : Node) (hsent : n'.lastSent = x.lastSent)
    (haya : n'.aya = x.aya) (src : SockAddr) (m : Msg) :
    ((process c).exec n (receive c n' src m)).election = Election.receive c x src m.msgID := by
  have hlogged : ((process c).exec n [.clock (mergeVectorClock n'.myVectorClock m),
      .clock (receivedClock c n' m), .log (.message m.msgID m.electionID false src.port)]).election =
        some x := h
  rw [receive, Process.exec_append]
  exact election_handleMsg hlogged n' hsent haya src m

/-- **The node refines the election state**: one step of a node that has not exited is the
    step of its election state. -/
theorem election_handle (h : n.election = some x) (i : Input) :
    ((process c).exec n (handle c n i)).election = Election.next c x i := by
  obtain ⟨hstarted, hsent, hreceived, haya⟩ := fields_of_election h
  have hcontrol := control_of_election h
  cases i with
  | message src m =>
      unfold handle Election.next
      cases hc : n.control with
      | starting =>
          -- the first message: both fields are cleared before it is handled
          have hreset := election_lastSent (election_lastReceived (election_loop h) none) none
          have hx : x.started = false := by simp [hstarted, hc]
          simp only [hx, Bool.false_eq_true, if_false, Process.exec_append]
          exact election_receive hreset { n with lastReceived := none, lastSent := none } rfl haya.symm src m
      | loop =>
          have hx : x.started = true := by simp [hstarted, hc]
          simp only [hx, if_true]
          exact election_receive h n hsent.symm haya.symm src m
      | exited => exact absurd hc hcontrol
  | timeout =>
      unfold handle Election.next
      cases hc : n.control with
      | starting =>
          have hx : x.started = false := by simp [hstarted, hc]
          simp only [hx, Bool.false_eq_true, if_false]
          exact election_startupLoop (election_loop h) _ _
      | loop =>
          have hx : x.started = true := by simp [hstarted, hc]
          simp only [hx, if_true]
          exact election_receiveTimeout h
      | exited => exact absurd hc hcontrol
  | thread =>
      unfold handle Election.next threadIteration
      cases ha : n.aya with
      | none =>
          rw [haya.trans ha]
          exact h
      | some target =>
          rw [haya.trans ha]
          simp only
          split
          · rfl
          · have hsent := election_lastSent h (some .aya)
            rw [haya.trans ha] at hsent
            exact hsent

end Node

end DistributedSystem.Bully
