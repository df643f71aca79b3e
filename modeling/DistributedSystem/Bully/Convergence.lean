import DistributedSystem.Bully.Declaration
import DistributedSystem.Bully.Thread

/-!
# An election in a group that does not time out

As long as no receive timeout of a lower node does anything, only the highest member of the
group declares itself, so every AYA thread asks that member. When the calls and the declarations
have all been received, every other node has such a thread.
-/

namespace DistributedSystem.Bully

open DistributedSystem.Library

namespace Election

variable {c : Config} {k : MsgType} {ms : List GroupMem} {e e' : Election} {i : Node.Input} {src : SockAddr}

theorem burst_aya (h : burst c k ms e = some e') : e'.aya = e.aya := by
  obtain ⟨-, rfl⟩ := burst_eq_some.mp h
  split
  · rfl
  · rfl

/-- A message ends no thread. -/
theorem receive_aya (h : receive c e src k = some e') (haya : e.aya ≠ none) : e'.aya ≠ none := by
  cases k with
  | elect =>
      simp only [receive] at h
      split at h
      · cases h
        exact haya
      · split at h
        · rw [burst_aya h]
          exact haya
        · rw [burst_aya h]
          exact haya
  | coord =>
      cases h
      simp only [if_neg haya]
      exact haya
  | answer =>
      simp only [receive, Option.some.injEq] at h
      subst h
      split
      · exact haya
      · exact haya
  | aya =>
      cases h
      exact haya
  | iaa =>
      cases h
      exact haya
  | other id =>
      cases h
      exact haya

theorem startup_aya (h : startup c ms e = some e') : e'.aya = e.aya := by
  unfold startup at h
  split at h
  · simp only [Option.some.injEq] at h
    subst h
    cases ms.getLast? with
    | none => rfl
    | some m => rfl
  · exact absurd h (by simp)

theorem burst_of_resolves (hresolves : Resolves c ms) (k : MsgType) (e : Election) :
    burst c k ms e = some (if ms = [] then e else { e with lastSent := some k }) := if_pos hresolves

theorem resolves_lower (h : Resolves c c.groupMems) : Resolves c (Node.lower c) :=
  fun m hm => h m (Node.mem_lower.mp hm).1

theorem resolves_higher (h : Resolves c c.groupMems) : Resolves c (Node.higher c) :=
  fun m hm => h m (Node.mem_higher.mp hm).1

/-- COORD to the members below is no call. -/
theorem burst_coord (hresolves : Resolves c c.groupMems) (hs : e.lastSent ≠ some .elect) :
    ∃ e', burst c .coord (Node.lower c) e = some e' ∧ e'.lastSent ≠ some .elect := by
  refine ⟨_, burst_of_resolves (resolves_lower hresolves) _ _, ?_⟩
  split
  · exact hs
  · simp

/-- The highest member goes on without a call of its own, whatever happens to it. -/
theorem next_highest (hhigher : Node.higher c = []) (hresolves : Resolves c c.groupMems)
    (haya : e.aya = none) (hcall : e.lastSent ≠ some .elect) (hasks : e.lastSent ≠ some .aya) :
    ∃ e', next c e i = some e' ∧ e'.lastSent ≠ some .elect := by
  have hreceive : ∀ (e : Election) (src : SockAddr) (k : MsgType), e.lastSent ≠ some .elect →
      ∃ e', receive c e src k = some e' ∧ e'.lastSent ≠ some .elect := by
    intro e src k hcall
    cases k with
    | elect =>
        simp only [receive, if_neg hcall, hhigher, if_true]
        exact burst_coord hresolves (by simp)
    | answer =>
        refine ⟨_, rfl, ?_⟩
        rw [if_neg hcall]
        exact hcall
    | coord => exact ⟨_, rfl, hcall⟩
    | aya => exact ⟨_, rfl, by simp⟩
    | iaa => exact ⟨_, rfl, hcall⟩
    | other id => exact ⟨_, rfl, hcall⟩
  cases i with
  | message src m =>
      simp only [next]
      split
      · exact hreceive e src m.msgID hcall
      · exact hreceive _ src m.msgID (by simp)
  | thread =>
      simp only [next, haya]
      exact ⟨e, rfl, hcall⟩
  | timeout =>
      simp only [next]
      split
      · -- a timeout in the loop
        unfold timeout
        cases hs : e.lastSent with
        | none =>
            cases hr : e.lastReceived with
            | none => exact ⟨e, rfl, by simp [hs]⟩
            | some k =>
                cases k with
                | answer =>
                    refine ⟨_, burst_of_resolves (resolves_higher hresolves) _ _, ?_⟩
                    simp [hhigher, hs]
                | elect => exact burst_coord hresolves (by simp [hs])
                | _ => exact ⟨e, rfl, by simp [hs]⟩
        | some k =>
            cases k with
            | elect => exact absurd hs hcall
            | aya => exact absurd hs hasks
            | _ => exact ⟨e, rfl, by simp [hs]⟩
      · -- the first timeout calls nobody
        have hnone : c.groupMems.filter (fun m => c.port < m.portno) = [] := hhigher
        refine ⟨_, if_pos (by rw [hnone]; exact fun m hm => absurd hm List.not_mem_nil), ?_⟩
        cases hlast : c.groupMems.getLast? with
        | none => exact hcall
        | some m =>
            have hm : m ∈ c.groupMems := List.mem_of_getLast? hlast
            have hlow : ¬ c.port < m.portno := by
              intro hport
              have hmem : m ∈ Node.higher c := Node.mem_higher.mpr ⟨hm, hport⟩
              rw [hhigher] at hmem
              exact absurd hmem List.not_mem_nil
            simp [hlow]

end Election

namespace Node

variable {c : Config} {n : Node} {i : Input} {dst src : SockAddr} {p msg : Msg} {vc : VClock}
  {counter : ℕ} {id : Option ℕ}

/-- A call of the list goes to every member of the list. -/
def CallsAll (c : Config) (es : List NodeEffect) : Prop :=
  ∀ m ∈ higher c, ∀ a, memberAddr c m = some a → ∃ p, .send a p ∈ es ∧ p.msgID = .elect

theorem CallsAll.append_right {es : List NodeEffect} (h : CallsAll c es) (fs : List NodeEffect) :
    CallsAll c (fs ++ es) := by
  intro m hm a ha
  obtain ⟨p, hp, hk⟩ := h m hm a ha
  exact ⟨p, List.mem_append_right _ hp, hk⟩

theorem callsAll_sendLoop (hresolves : Election.Resolves c c.groupMems) :
    CallsAll c (sendLoop c .elect id vc counter (higher c)) := fun _ hm _ ha =>
  send_mem_sendLoop .elect id vc counter (Election.resolves_higher hresolves) hm ha

theorem callsAll_startupLoop (hresolves : Election.Resolves c c.groupMems) :
    CallsAll c (startupLoop c vc counter c.groupMems) := by
  intro m hm a ha
  obtain ⟨hmem, hport⟩ := mem_higher.mp hm
  exact send_mem_startupLoop vc counter (Election.resolves_higher hresolves) hmem hport ha

theorem callsAll_receive {n' : Node} (hresolves : Election.Resolves c c.groupMems)
    (h : .send dst p ∈ receive c n' src msg) (hk : p.msgID = .elect) : CallsAll c (receive c n' src msg) := by
  unfold receive at h ⊢
  rcases List.mem_append.mp h with h | h
  · simp at h
  refine CallsAll.append_right ?_ _
  unfold handleMsg at h ⊢
  cases hm : msg.msgID with
  | elect =>
      simp only [hm, List.mem_append] at h ⊢
      rcases h with (h | h) | h
      · obtain ⟨-, rfl⟩ := send_mem_sendMsg.mp h
        exact absurd hk (by simp)
      · simp at h
      · split at h
        · simp at h
        · rename_i hidle
          rw [if_neg hidle]
          refine CallsAll.append_right ?_ _
          intro m hmem a ha
          have hcalls : CallsAll c (sendLoop c .elect (some msg.electionID)
              (updateMyVectorClock c.port (receivedClock c n' msg)) n'.counter (higher c)) :=
            callsAll_sendLoop hresolves
          obtain ⟨p, hp, hk⟩ := hcalls m hmem a ha
          exact ⟨p, by simp [hp], hk⟩
  | answer =>
      simp only [hm] at h
      split at h
      · simp at h
      · simp at h
  | coord =>
      simp only [hm] at h
      split at h
      · simp at h
      · simp at h
  | aya =>
      simp only [hm, List.mem_append] at h
      rcases h with h | h
      · simp at h
      · obtain ⟨-, rfl⟩ := send_mem_sendMsg.mp h
        exact absurd hk (by simp)
  | iaa => simp [hm] at h
  | other id => simp [hm] at h

/-- Whoever calls one member above calls them all. -/
theorem callsAll_handle (hresolves : Election.Resolves c c.groupMems)
    (h : .send dst p ∈ handle c n i) (hk : p.msgID = .elect) : CallsAll c (handle c n i) := by
  cases i with
  | message src msg =>
      unfold handle at h ⊢
      cases hc : n.control with
      | starting =>
          simp only [hc] at h ⊢
          rcases List.mem_append.mp h with h | h
          · simp at h
          · exact (callsAll_receive hresolves h hk).append_right _
      | loop =>
          simp only [hc] at h ⊢
          exact callsAll_receive hresolves h hk
      | exited => simp [hc] at h
  | timeout =>
      unfold handle at h ⊢
      cases hc : n.control with
      | starting =>
          simp only [hc] at h ⊢
          exact (callsAll_startupLoop hresolves).append_right [.control .loop]
      | loop =>
          simp only [hc] at h ⊢
          unfold receiveTimeout at h ⊢
          cases hs : n.lastSent with
          | none =>
              cases hr : n.lastReceived with
              | none => simp [hs, hr] at h
              | some k =>
                  cases k with
                  | answer => exact callsAll_sendLoop hresolves
                  | elect =>
                      simp only [hs, hr] at h
                      exact absurd ((of_send_mem_sendLoop h).1.symm.trans hk) (by simp)
                  | _ => simp [hs, hr] at h
          | some k =>
              cases k with
              | elect =>
                  simp only [hs] at h
                  exact absurd ((of_send_mem_sendLoop h).1.symm.trans hk) (by simp)
              | aya =>
                  cases ha : n.aya with
                  | none => simp [hs, ha] at h
                  | some target => exact (callsAll_sendLoop hresolves).append_right [.cancelThread]
              | _ => simp [hs] at h
      | exited => simp [hc] at h
  | thread =>
      have hsends := sends_handle h
      rw [hk] at hsends
      cases hsends with
      | elect hm hdst =>
          change .send dst p ∈ threadIteration c n at h
          unfold threadIteration at h
          split at h
          · split at h
            · simp at h
            · rcases List.mem_cons.mp h with h | h
              · simp at h
              · obtain ⟨-, rfl⟩ := send_mem_sendMsg.mp h
                exact absurd hk (by simp)
          · simp at h

/-- The highest member declares itself to all others when it is called. -/
theorem coord_of_elect (src : SockAddr) (hresolves : Election.Resolves c c.groupMems)
    (hhigher : higher c = [])
    (hcontrol : n.control ≠ .exited) (hidle : n.lastSent ≠ some .elect) (hk : msg.msgID = .elect)
    {m : GroupMem} (hm : m ∈ lower c) {a : SockAddr} (ha : memberAddr c m = some a) :
    ∃ p, .send a p ∈ handle c n (.message src msg) ∧ p.msgID = .coord := by
  have hreceive : ∀ n' : Node, n'.lastSent ≠ some .elect →
      ∃ p, .send a p ∈ receive c n' src msg ∧ p.msgID = .coord := by
    intro n' hidle
    obtain ⟨p, hp, hcoord⟩ := send_mem_sendLoop .coord (some 0)
      (updateMyVectorClock c.port (receivedClock c n' msg)) n'.counter (Election.resolves_lower hresolves) hm ha
    refine ⟨p, List.mem_append_right _ ?_, hcoord⟩
    simp only [handleMsg, hk, hhigher, if_neg hidle, if_true]
    exact List.mem_append_right _ (List.mem_append_right _ hp)
  unfold handle
  cases hc : n.control with
  | starting =>
      obtain ⟨p, hp, hcoord⟩ := hreceive { n with lastReceived := none, lastSent := none } (by simp)
      exact ⟨p, List.mem_append_right _ hp, hcoord⟩
  | loop => exact hreceive n hidle
  | exited => exact absurd hc hcontrol

/-- Only a receive timeout ends a thread. -/
theorem aya_handle (h : ((process c).exec n (handle c n i)).control ≠ .exited)
    (hcontrol : n.control ≠ .exited) (haya : n.aya ≠ none)
    (hquiet : i = .timeout → n.control = .loop → receiveTimeout c n = []) :
    ((process c).exec n (handle c n i)).aya ≠ none := by
  have hnext := (election_handle (c := c) (election_eq hcontrol) i).symm.trans (election_eq h)
  cases i with
  | message src m =>
      simp only [Election.next] at hnext
      split at hnext
      · exact Election.receive_aya hnext haya
      · exact Election.receive_aya hnext haya
  | timeout =>
      cases hc : n.control with
      | starting =>
          simp only [Election.next, hc, reduceCtorEq, decide_false, Bool.false_eq_true, if_false] at hnext
          have hsame := Election.startup_aya hnext
          exact fun hnone => haya (hsame.symm.trans hnone)
      | loop =>
          have hnone : handle c n .timeout = [] := by
            simp only [handle, hc]
            exact hquiet rfl hc
          rw [hnone]
          exact haya
      | exited => exact absurd hc hcontrol
  | thread =>
      obtain ⟨target, htarget⟩ := Option.ne_none_iff_exists'.mp haya
      simp only [Election.next, htarget] at hnext
      split at hnext
      · exact absurd hnext (by simp)
      · simp only [Option.some.injEq, Election.mk.injEq] at hnext
        rw [← hnext.2.2.2]
        simp

end Node

namespace Group

open Node

/-- The names of the group list resolve. -/
def Resolves (g : Group) : Prop := ∀ p, Election.Resolves (g.config p) (g.groupMems p)

/-- The member with the highest port. -/
structure Highest (g : Group) (top : ℕ) : Prop where
  member : g.IsMember top
  le : ∀ p, g.IsMember p → p ≤ top

/-- A step without a crash, in which no receive timeout of a lower node does anything. -/
def Undisturbed (g : Group) (top : ℕ) (s : GroupState) : GroupAct → Prop
  | .run p a => a.cut = none ∧
      (p ≠ top → a.input = .timeout → (s.nodes p).control = .loop →
        receiveTimeout (g.config p) (s.nodes p) = [])
  | .restart _ => False

instance (g : Group) (top : ℕ) (s : GroupState) : ∀ a, Decidable (Undisturbed g top s a)
  | .run _ _ => inferInstanceAs (Decidable (_ ∧ _))
  | .restart _ => inferInstanceAs (Decidable False)

/-- The datagram number `k` of the net has been delivered. -/
def Delivered (as : List GroupAct) (k : ℕ) : Prop := ∃ p addr cut, .run p ⟨.deliver k addr, cut⟩ ∈ as

/-- What a run without such timeouts keeps. -/
structure Converging (g : Group) (top : ℕ) (as : List GroupAct) (s : GroupState) : Prop where
  threaded : Threaded g s
  coords : ∀ d ∈ s.net, d.msg.msgID = .coord → d.src = top
  targets : ∀ p target, (s.nodes p).aya = some target → target.port = top
  running : (s.nodes top).control ≠ .exited
  idle : (s.nodes top).lastSent ≠ some .elect
  numbered : ∀ k, Delivered as k → k < s.net.length
  /-- if anybody is called, the highest member is -/
  called : (∃ d ∈ s.net, d.msg.msgID = .elect) → ∃ d ∈ s.net, d.msg.msgID = .elect ∧ d.dst.port = top
  /-- a call that the highest member has heard -/
  declared : ∀ k d, Delivered as k → s.net[k]? = some d → d.msg.msgID = .elect → d.dst.port = top →
    ∀ p, g.IsMember p → p ≠ top → ∃ d' ∈ s.net, d'.msg.msgID = .coord ∧ d'.dst.port = p
  /-- a COORD that has been heard -/
  heard : ∀ k d, Delivered as k → s.net[k]? = some d → d.msg.msgID = .coord →
    (s.nodes d.dst.port).control ≠ .exited → (s.nodes d.dst.port).aya ≠ none

variable {g : Group} {s : GroupState} {top p : ℕ} {i : Input} {st : Stimulus} {d : Datagram}
  {as : List GroupAct}

theorem Highest.higher_eq_nil (h : Highest g top) : higher (g.config top) = [] := by
  refine List.eq_nil_iff_forall_not_mem.mpr fun m hm => ?_
  obtain ⟨hmem, hport⟩ := mem_higher.mp hm
  obtain ⟨m', hm', heq⟩ := List.mem_map.mp (((g.known top m.portno).map GroupMem.portno).subset
    (List.mem_map_of_mem hmem))
  have hle := h.le m.portno (List.mem_map.mpr ⟨m', hm', heq⟩)
  have hlt : top < m.portno := hport
  omega

/-- The highest member is above every other one, in any group list. -/
theorem Highest.mem_higher (h : Highest g top) (hp : g.IsMember p) (hne : p ≠ top) :
    ∃ m ∈ higher (g.config p), m.portno = top := by
  obtain ⟨m, hm, hport⟩ := exists_mem_of_isMember h.member p
  have hle := h.le p hp
  have hlt : p < m.portno := by omega
  exact ⟨m, Node.mem_higher.mpr ⟨hm, hlt⟩, hport⟩

theorem Highest.mem_lower (h : Highest g top) (hp : g.IsMember p) (hne : p ≠ top) :
    ∃ m ∈ lower (g.config top), m.portno = p := by
  obtain ⟨m, hm, hport⟩ := exists_mem_of_isMember hp top
  have hle := h.le p hp
  have hlt : m.portno < top := by omega
  exact ⟨m, Node.mem_lower.mpr ⟨hm, hlt⟩, hport⟩

/-- A member has an address, with its port. -/
theorem exists_memberAddr (hresolves : g.Resolves) {m : GroupMem} (hm : m ∈ g.groupMems p) :
    ∃ a, memberAddr (g.config p) m = some a ∧ a.port = m.portno := by
  obtain ⟨addr, haddr⟩ := Option.ne_none_iff_exists'.mp (hresolves p m hm)
  have ha : memberAddr (g.config p) m = some ⟨addr, m.portno % 65536⟩ := by
    rw [memberAddr, haddr]
    rfl
  exact ⟨_, ha, port_of_memberAddr hm ha⟩

theorem datagram_mem_nodeStep : d ∈ (g.nodeStep s p ⟨i, none⟩).net ↔
    d ∈ s.net ∨ d.src = p ∧ .send d.dst d.msg ∈ handle (g.config p) (s.nodes p) i := by
  simp only [nodeStep, List.mem_append, mem_filterMap_datagram]
  rfl

/-- The numbers of the datagrams do not change. -/
theorem getElem?_nodeStep {k : ℕ} (hk : k < s.net.length) :
    (g.nodeStep s p ⟨i, none⟩).net[k]? = s.net[k]? := List.getElem?_append_left hk

theorem delivered_concat {k : ℕ} : Delivered (as ++ [.run p ⟨st, none⟩]) k ↔
    Delivered as k ∨ ∃ addr, st = .deliver k addr := by
  unfold Delivered
  constructor
  · rintro ⟨q, addr, cut, hmem⟩
    rcases List.mem_append.mp hmem with hmem | hmem
    · exact Or.inl ⟨q, addr, cut, hmem⟩
    · simp only [List.mem_singleton, GroupAct.run.injEq, Act.mk.injEq] at hmem
      exact Or.inr ⟨addr, hmem.2.1.symm⟩
  · rintro (⟨q, addr, cut, hmem⟩ | ⟨addr, rfl⟩)
    · exact ⟨q, addr, cut, List.mem_append_left _ hmem⟩
    · exact ⟨p, addr, none, List.mem_append_right _ (List.mem_singleton.mpr rfl)⟩

/-- A delivery hands over the datagram at its place. -/
theorem datagram_of_input {k addr : ℕ} (hin : input s.net p (.deliver k addr) = some i) :
    ∃ d, s.net[k]? = some d ∧ d.dst.port = p ∧ i = .message ⟨addr, d.src⟩ d.msg := by
  unfold input at hin
  cases hk : s.net[k]? with
  | none => simp [hk] at hin
  | some d =>
      simp only [hk, Option.ite_none_right_eq_some, Option.some.injEq] at hin
      exact ⟨d, rfl, hin.1, hin.2.symm⟩

theorem stimulus_of_timeout (hin : input s.net p st = some .timeout) : st = .timeout := by
  cases st with
  | deliver k addr =>
      obtain ⟨d, -, -, hi⟩ := datagram_of_input hin
      exact absurd hi (by simp)
  | timeout => rfl
  | thread => exact absurd hin (by simp [input])

/-- A COORD comes from the highest member, without a timeout of a lower node. -/
theorem coord_of_send (htop : Highest g top) (hmember : g.IsMember p)
    (hquiet : p ≠ top → i = .timeout → (s.nodes p).control = .loop →
      receiveTimeout (g.config p) (s.nodes p) = [])
    {dst : SockAddr} {m : Msg} (hsend : .send dst m ∈ handle (g.config p) (s.nodes p) i)
    (hk : m.msgID = .coord) : p = top := by
  by_contra hne
  obtain ⟨m', hm', -⟩ := htop.mem_higher hmember hne
  have hsends := sends_handle hsend
  rw [hk] at hsends
  cases hsends with
  | coordOnElect hi hmsg hhigher hm hdst =>
      rw [hhigher] at hm'
      exact absurd hm' List.not_mem_nil
  | coordOnTimeout hi hn hm hdst =>
      subst hi
      have hnone := hquiet hne rfl hn.1
      simp only [handle, hn.1, hnone] at hsend
      exact absurd hsend List.not_mem_nil

/-- The highest member goes on. -/
theorem Converging.highest_step (h : Converging g top as s) (htop : Highest g top)
    (hresolves : g.Resolves) (i : Input) :
    ((process (g.config top)).exec (s.nodes top) (handle (g.config top) (s.nodes top) i)).control ≠ .exited ∧
      ((process (g.config top)).exec (s.nodes top) (handle (g.config top) (s.nodes top) i)).lastSent ≠
        some .elect := by
  -- nobody is above it, so it has no thread
  have haya : (s.nodes top).aya = none := by
    by_contra hsome
    obtain ⟨target, htarget⟩ := Option.ne_none_iff_exists'.mp hsome
    have hup := h.threaded.ordered.targets top target htarget
    rw [h.targets top target htarget] at hup
    exact absurd hup (lt_irrefl top)
  have hasks : (s.nodes top).lastSent ≠ some .aya := fun hs =>
    h.threaded.threads top h.running hs haya
  obtain ⟨e', hnext, hsent⟩ := Election.next_highest (i := i)
    (e := ⟨decide ((s.nodes top).control = .loop), (s.nodes top).lastSent, (s.nodes top).lastReceived,
      (s.nodes top).aya⟩) htop.higher_eq_nil (hresolves top) haya h.idle hasks
  have hafter := (election_handle (c := g.config top) (election_eq h.running) i).trans hnext
  refine ⟨control_of_election hafter, ?_⟩
  rw [← (fields_of_election hafter).2.1]
  exact hsent

theorem Converging.targets_step (h : Converging g top as s) (hin : input s.net p st = some i)
    {target : SockAddr}
    (htarget : ((process (g.config p)).exec (s.nodes p) (handle (g.config p) (s.nodes p) i)).aya =
      some target) : target.port = top := by
  rcases target_of_handle htarget with hold | ⟨m, rfl, hk⟩
  · exact h.targets p target hold
  · cases st with
    | deliver k addr =>
        obtain ⟨d, hd, -, hi⟩ := datagram_of_input hin
        obtain ⟨rfl, rfl⟩ := Input.message.inj hi
        exact h.coords d (List.mem_of_getElem? hd) hk
    | timeout => exact absurd hin (by simp [input])
    | thread => exact absurd hin (by simp [input])

/-- A call is one of a loop that also calls the highest member. -/
theorem Converging.called_step (h : Converging g top as s) (htop : Highest g top)
    (hresolves : g.Resolves) (hmember : g.IsMember p)
    (hcall : ∃ d ∈ (g.nodeStep s p ⟨i, none⟩).net, d.msg.msgID = .elect) :
    ∃ d ∈ (g.nodeStep s p ⟨i, none⟩).net, d.msg.msgID = .elect ∧ d.dst.port = top := by
  obtain ⟨d, hd, hk⟩ := hcall
  rcases datagram_mem_nodeStep.mp hd with hd | ⟨-, hsend⟩
  · obtain ⟨d', hd', hcall⟩ := h.called ⟨d, hd, hk⟩
    exact ⟨d', datagram_mem_nodeStep.mpr (Or.inl hd'), hcall⟩
  · have hne : p ≠ top := by
      rintro rfl
      have hsends := sends_handle hsend
      rw [hk] at hsends
      cases hsends with
      | elect hm hdst =>
          rw [htop.higher_eq_nil] at hm
          exact absurd hm List.not_mem_nil
    obtain ⟨m, hm, hport⟩ := htop.mem_higher hmember hne
    obtain ⟨a, ha, haport⟩ := exists_memberAddr hresolves (Node.mem_higher.mp hm).1
    obtain ⟨p', hp', hk'⟩ := callsAll_handle (hresolves p) hsend hk m hm a ha
    exact ⟨⟨p, a, p'⟩, datagram_mem_nodeStep.mpr (Or.inr ⟨rfl, hp'⟩), hk', haport.trans hport⟩

/-- A datagram that was delivered before the step or is delivered by it. -/
theorem Converging.delivered_step (h : Converging g top as s) (hin : input s.net p st = some i) {k : ℕ}
    (hk : Delivered (as ++ [.run p ⟨st, none⟩]) k)
    (hd : (g.nodeStep s p ⟨i, none⟩).net[k]? = some d) :
    (Delivered as k ∧ s.net[k]? = some d) ∨
      (d ∈ s.net ∧ d.dst.port = p ∧ ∃ addr, i = .message ⟨addr, d.src⟩ d.msg) := by
  rcases delivered_concat.mp hk with hk | ⟨addr, rfl⟩
  · rw [getElem?_nodeStep (h.numbered k hk)] at hd
    exact Or.inl ⟨hk, hd⟩
  · obtain ⟨d', hd', hport, hi⟩ := datagram_of_input hin
    obtain ⟨hlt, -⟩ := List.getElem?_eq_some_iff.mp hd'
    rw [getElem?_nodeStep hlt, hd'] at hd
    obtain rfl := Option.some.inj hd
    exact Or.inr ⟨List.mem_of_getElem? hd', hport, addr, hi⟩

theorem Converging.numbered_step (h : Converging g top as s) (hin : input s.net p st = some i) {k : ℕ}
    (hk : Delivered (as ++ [.run p ⟨st, none⟩]) k) : k < (g.nodeStep s p ⟨i, none⟩).net.length := by
  have hle : s.net.length ≤ (g.nodeStep s p ⟨i, none⟩).net.length := by
    rw [nodeStep, List.length_append]
    omega
  rcases delivered_concat.mp hk with hk | ⟨addr, rfl⟩
  · exact Nat.lt_of_lt_of_le (h.numbered k hk) hle
  · obtain ⟨d', hd', -, -⟩ := datagram_of_input hin
    obtain ⟨hlt, -⟩ := List.getElem?_eq_some_iff.mp hd'
    exact Nat.lt_of_lt_of_le hlt hle

/-- **Step lemma** for the node that acts. -/
theorem converging_nodeStep (htop : Highest g top) (hresolves : g.Resolves)
    (h : Converging g top as s) (hmember : g.IsMember p) (hin : input s.net p st = some i)
    (haccepts : accepts (g.config p) (s.nodes p) i)
    (hquiet : p ≠ top → i = .timeout → (s.nodes p).control = .loop →
      receiveTimeout (g.config p) (s.nodes p) = []) :
    Converging g top (as ++ [.run p ⟨st, none⟩]) (g.nodeStep s p ⟨i, none⟩) := by
  have hself : (g.nodeStep s p ⟨i, none⟩).nodes p =
      (process (g.config p)).exec (s.nodes p) (handle (g.config p) (s.nodes p) i) := by
    simp only [nodeStep, Function.update_self]
    rfl
  have hother : ∀ q, q ≠ p → (g.nodeStep s p ⟨i, none⟩).nodes q = s.nodes q := by
    intro q hq
    simp only [nodeStep, Function.update_of_ne hq]
  have hcontrol := control_of_accepts haccepts
  refine ⟨threaded_nodeStep h.threaded hmember hin haccepts, fun d hd hk => ?_, fun q target htarget => ?_,
    ?_, ?_, fun k hk => h.numbered_step hin hk, h.called_step htop hresolves hmember,
    fun k d hk hd helect hport q hq hne => ?_, fun k d hk hd hcoord hup => ?_⟩
  · rcases datagram_mem_nodeStep.mp hd with hd | ⟨hsrc, hsend⟩
    · exact h.coords d hd hk
    · exact hsrc.trans (coord_of_send htop hmember hquiet hsend hk)
  · by_cases hq : q = p
    · subst hq
      rw [hself] at htarget
      exact h.targets_step hin htarget
    · rw [hother q hq] at htarget
      exact h.targets q target htarget
  · by_cases hp : top = p
    · subst hp
      rw [hself]
      exact (h.highest_step htop hresolves i).1
    · rw [hother top hp]
      exact h.running
  · by_cases hp : top = p
    · subst hp
      rw [hself]
      exact (h.highest_step htop hresolves i).2
    · rw [hother top hp]
      exact h.idle
  · rcases h.delivered_step hin hk hd with ⟨hk, hd⟩ | ⟨-, hp, addr, rfl⟩
    · obtain ⟨d', hd', hcoord⟩ := h.declared k d hk hd helect hport q hq hne
      exact ⟨d', datagram_mem_nodeStep.mpr (Or.inl hd'), hcoord⟩
    · -- the call reaches the highest member in this step
      obtain rfl := hp.symm.trans hport
      obtain ⟨m, hm, hmport⟩ := htop.mem_lower hq hne
      obtain ⟨a, ha, haport⟩ := exists_memberAddr hresolves (Node.mem_lower.mp hm).1
      obtain ⟨p', hp', hk'⟩ := coord_of_elect ⟨addr, d.src⟩ (hresolves p) htop.higher_eq_nil
        hcontrol h.idle helect hm ha
      exact ⟨⟨p, a, p'⟩, datagram_mem_nodeStep.mpr (Or.inr ⟨rfl, hp'⟩), hk', haport.trans hmport⟩
  · rcases h.delivered_step hin hk hd with ⟨hk, hd⟩ | ⟨-, hp, addr, rfl⟩
    · by_cases hq : d.dst.port = p
      · -- COORD goes down, so its addressee is not the highest member
        have hmem := List.mem_of_getElem? hd
        have hdown := h.threaded.ordered.net d hmem
        simp only [InOrder, hcoord, h.coords d hmem hcoord, hq] at hdown
        rw [hq, hself] at hup ⊢
        have haya := h.heard k d hk hd hcoord
        rw [hq] at haya
        exact aya_handle hup hcontrol (haya hcontrol) (hquiet hdown.ne)
      · rw [hother _ hq] at hup ⊢
        exact h.heard k d hk hd hcoord hup
    · rw [hp, hself, aya_coord hcontrol hcoord]
      split
      · simp
      · assumption

/-- **Step lemma** -/
theorem converging_next (htop : Highest g top) (hresolves : g.Resolves) (h : Converging g top as s)
    {a : GroupAct} (ha : g.enabled s a) (hquiet : g.Undisturbed top s a) :
    Converging g top (as ++ [a]) (g.next s a) := by
  cases a with
  | restart p => exact absurd hquiet id
  | run p a =>
      obtain ⟨st, cut⟩ := a
      obtain ⟨hmember, i, hin, haccepts⟩ := ha
      obtain ⟨rfl, hquiet⟩ := hquiet
      have hin' : input s.net p st = some i := hin
      have hquiet' : p ≠ top → i = .timeout → (s.nodes p).control = .loop →
          receiveTimeout (g.config p) (s.nodes p) = [] := by
        rintro hne rfl hloop
        exact hquiet hne (stimulus_of_timeout hin') hloop
      simp only [next, hin']
      exact converging_nodeStep htop hresolves h hmember hin' haccepts hquiet'

theorem not_delivered_nil (k : ℕ) : ¬ Delivered [] k := by
  rintro ⟨p, addr, cut, hmem⟩
  exact absurd hmem List.not_mem_nil

theorem converging_start (g : Group) (top : ℕ) : Converging g top [] g.start where
  threaded := threaded_start g
  coords _ hd := absurd hd (by simp [start])
  targets _ _ htarget := absurd htarget (by simp [start, Node.start])
  running := by simp [start, Node.start]
  idle := by simp [start, Node.start]
  numbered k hk := absurd hk (not_delivered_nil k)
  called := by simp [start]
  declared k _ hk := absurd hk (not_delivered_nil k)
  heard k _ hk := absurd hk (not_delivered_nil k)

/-- **The highest member is elected**: in every run without crashes in which no receive timeout
    of a lower node does anything, only the highest member sends COORD and every AYA thread asks
    it; and when a node has been called, and every ELECT and COORD to a node that still runs has
    been delivered, every other node that still runs has such a thread. -/
theorem highest_member_elected (g : Group) (top : ℕ) (htop : Highest g top) (hresolves : g.Resolves)
    (as : List GroupAct)
    (hrun : g.machine.Along (fun s a => g.enabled s a ∧ g.Undisturbed top s a) g.start as) :
    (∀ d ∈ (g.machine.after g.start as).net, d.msg.msgID = .coord → d.src = top) ∧
      (∀ p target, ((g.machine.after g.start as).nodes p).aya = some target → target.port = top) ∧
      ((∃ d ∈ (g.machine.after g.start as).net, d.msg.msgID = .elect) →
        (∀ k d, (g.machine.after g.start as).net[k]? = some d →
          d.msg.msgID = .elect ∨ d.msg.msgID = .coord →
            ((g.machine.after g.start as).nodes d.dst.port).control ≠ .exited → Delivered as k) →
        ∀ p, g.IsMember p → p ≠ top → ((g.machine.after g.start as).nodes p).control ≠ .exited →
          ∃ target, ((g.machine.after g.start as).nodes p).aya = some target ∧ target.port = top) := by
  have h : Converging g top ([] ++ as) (g.machine.after g.start as) :=
    hrun.invariant_history (I := Converging g top) (converging_start g top)
      fun bs s a hs ha => converging_next htop hresolves hs ha.1 ha.2
  rw [List.nil_append] at h
  refine ⟨h.coords, h.targets, fun hcalled hdelivered p hp hne hup => ?_⟩
  obtain ⟨d, hd, helect, hport⟩ := h.called hcalled
  obtain ⟨k, hk⟩ := List.getElem?_of_mem hd
  have hheard : Delivered as k := hdelivered k d hk (Or.inl helect) (by rw [hport]; exact h.running)
  obtain ⟨d', hd', hcoord, hport'⟩ := h.declared k d hheard hk helect hport p hp hne
  obtain ⟨k', hk'⟩ := List.getElem?_of_mem hd'
  have hup' : ((g.machine.after g.start as).nodes d'.dst.port).control ≠ .exited := by
    rw [hport']
    exact hup
  have haya := h.heard k' d' (hdelivered k' d' hk' (Or.inr hcoord) hup') hk' hcoord hup'
  rw [hport'] at haya
  obtain ⟨target, htarget⟩ := Option.ne_none_iff_exists'.mp haya
  exact ⟨target, htarget, h.targets p target htarget⟩

theorem highest_three : Highest three 3 where
  member := show 3 ∈ [1, 2, 3] by decide
  le p hp := by
    have hmem : p ∈ [1, 2, 3] := hp
    simp only [List.mem_cons, List.not_mem_nil, or_false] at hmem
    omega

/-- Node 3 wins the election of node 2, before it dies. -/
theorem highest_member_elected_three :
    (∀ d ∈ (three.machine.after three.start (electionOfThree.take 6)).net,
        d.msg.msgID = .coord → d.src = 3) ∧
      (∀ p target, ((three.machine.after three.start (electionOfThree.take 6)).nodes p).aya = some target →
        target.port = 3) ∧
      ((∃ d ∈ (three.machine.after three.start (electionOfThree.take 6)).net, d.msg.msgID = .elect) →
        (∀ k d, (three.machine.after three.start (electionOfThree.take 6)).net[k]? = some d →
          d.msg.msgID = .elect ∨ d.msg.msgID = .coord →
            ((three.machine.after three.start (electionOfThree.take 6)).nodes d.dst.port).control ≠
              .exited → Delivered (electionOfThree.take 6) k) →
        ∀ p, three.IsMember p → p ≠ 3 →
          ((three.machine.after three.start (electionOfThree.take 6)).nodes p).control ≠ .exited →
            ∃ target, ((three.machine.after three.start (electionOfThree.take 6)).nodes p).aya =
              some target ∧ target.port = 3) :=
  highest_member_elected three 3 highest_three (fun _ _ _ => by simp [Group.config, three])
    (electionOfThree.take 6) (by decide +kernel)

end Group

end DistributedSystem.Bully
