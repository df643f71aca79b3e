import DistributedSystem.Bully.Declaration

/-!
# How an unanswered election ends

After it has called an election and has heard neither an ANSWER nor a COORD, a node should
declare itself at the receive timeout. That it has called one is kept in `lastSent` alone,
or after a first election in `lastReceived`. The answer to an AYA and the AYA thread overwrite
it; the next ELECT sets it again.
-/

namespace DistributedSystem.Bully

open DistributedSystem.Library

namespace Node

/-! ## The call that waits for its timeout -/

/-- What is known of the latest call for an election from the messages alone. -/
structure Call where
  /-- ELECT was sent to a higher member, and since then no ANSWER and no COORD was processed
      and no receive timeout fired -/
  unanswered : Bool := false
  /-- an AYA was processed or sent since the last ELECT or receive timeout -/
  overwritten : Bool := false
  deriving DecidableEq

/-- Whether `lastSent` is overwritten, after an input. -/
def overwrites : Input → Bool → Bool
  | .message _ m, overwritten => m.msgID = .aya ∨ (overwritten ∧ m.msgID ≠ .elect)
  | .timeout, _ => false
  | .thread, _ => true

def watchCall (c : Config) (n : Node) (i : Input) (call : Call) : Call where
  unanswered := asks (handle c n i) ≠ [] ∨ (call.unanswered ∧ i.settles = false ∧ i ≠ .timeout)
  overwritten := overwrites i call.overwritten

/-- The runs of a node, with its latest call. -/
def calling (c : Config) : Machine (Node × Call) Input := (process c).atomic.watch (watchCall c)

/-- The addresses a COORD is sent to. -/
def tells (es : List NodeEffect) : List SockAddr := addressees .coord es

/-- Every lower member is told. -/
def AllTold (c : Config) (told : List SockAddr) : Prop :=
  ∀ m ∈ lower c, ∃ a ∈ told, memberAddr c m = some a

/-- The receive timeout of an unanswered call sends COORD to every lower member. -/
def Concludes (c : Config) (x : Node × Call) (i : Input) : Prop :=
  i = .timeout → x.2.unanswered → AllTold c (tells (handle c x.1 i))

/-- The names of the lower members resolve, and the call is not overwritten when its timeout
    fires. -/
def Recalls (c : Config) (x : Node × Call) (i : Input) : Prop :=
  i = .timeout → x.2.unanswered → lower c = [] ∨ (x.2.overwritten = false ∧ Election.Resolves c (lower c))

instance (c : Config) (told : List SockAddr) : Decidable (AllTold c told) := by
  unfold AllTold; infer_instance

instance (c : Config) (x : Node × Call) (i : Input) : Decidable (Concludes c x i) := by
  unfold Concludes; infer_instance

variable {c : Config} {n : Node} {i : Input} {e e' : Election} {call : Call} {as : List Input}
  {es fs : List NodeEffect} {k : MsgType} {id : Option ℕ} {vc : VClock} {counter : ℕ}
  {ms : List GroupMem} {m : Msg} {src : SockAddr}

/-! ## What is asked and told -/

/-- The loop that declares the node tells all lower members exactly when they have addresses. -/
theorem allTold_sendLoop :
    AllTold c (tells (sendLoop c .coord id vc counter (lower c))) ↔ Election.Resolves c (lower c) := by
  constructor
  · intro htold m hm hnone
    obtain ⟨a, -, ha⟩ := htold m hm
    simp [memberAddr, hnone] at ha
  · intro hall m hm
    cases haddr : c.gethostbyname m.hostname with
    | none => exact absurd haddr (hall m hm)
    | some addr =>
        have hmember : memberAddr c m = some ⟨addr, m.portno % 65536⟩ := by simp [memberAddr, haddr]
        obtain ⟨p, hp, hk⟩ := send_mem_sendLoop .coord id vc counter hall hm hmember
        exact ⟨_, mem_addressees.mpr ⟨p, hp, hk⟩, hmember⟩

theorem allTold_nil : AllTold c [] ↔ lower c = [] := by
  constructor
  · intro htold
    refine List.eq_nil_iff_forall_not_mem.mpr fun m hm => ?_
    obtain ⟨a, ha, -⟩ := htold m hm
    exact absurd ha (by simp)
  · intro hnone m hm
    rw [hnone] at hm
    exact absurd hm (by simp)

/-- Only a node with higher members asks. -/
theorem higher_of_asks (h : asks (handle c n i) ≠ []) : higher c ≠ [] := by
  obtain ⟨a, ha⟩ := List.exists_mem_of_ne_nil _ h
  obtain ⟨p, hp, hk⟩ := mem_asks.mp ha
  have hsends := sends_handle hp
  rw [hk] at hsends
  cases hsends with
  | elect hm _ => exact List.ne_nil_of_mem hm

/-! ## The invariant -/

/-- A node with an unanswered call would declare itself, or has overwritten it. -/
def CallInv (c : Config) (e : Election) (call : Call) : Prop :=
  call.unanswered → higher c ≠ [] ∧ e.started = true ∧
    if call.overwritten then e.lastSent = some .iaa ∨ e.lastSent = some .aya else e.Declares

/-- A message that makes a node ask the others is an ELECT, and is remembered. -/
theorem called_of_receive {n' : Node} (hsent : n'.lastSent = e.lastSent)
    (hasks : asks (receive c n' src m) ≠ []) (hnext : Election.receive c e src m.msgID = some e')
    (hhigher : higher c ≠ []) :
    m.msgID = .elect ∧ e'.started = e.started ∧ e'.lastSent = some .elect := by
  unfold receive at hasks
  rw [asks_append] at hasks
  cases hk : m.msgID with
  | elect =>
      simp only [hk, Election.receive] at hnext
      simp only [hk, handleMsg] at hasks
      split at hnext
      · -- an election is running: nothing but the answer is sent
        rename_i hbusy
        simp [hsent, hbusy, asks, addressees, sendMsg] at hasks
      · obtain ⟨-, rfl⟩ := Election.burst_eq_some.mp hnext
        rw [if_neg hhigher]
        exact ⟨rfl, rfl, rfl⟩
  | answer =>
      -- nothing is sent on an ANSWER or a COORD
      simp only [hk, handleMsg] at hasks
      split at hasks
      · simp [asks, addressees] at hasks
      · simp [asks, addressees] at hasks
  | coord =>
      simp only [hk, handleMsg] at hasks
      split at hasks
      · simp [asks, addressees] at hasks
      · simp [asks, addressees] at hasks
  -- only the sender of an AYA gets something
  | aya => simp [hk, handleMsg, asks, addressees, sendMsg] at hasks
  | iaa => simp [hk, handleMsg, asks, addressees] at hasks
  | other id => simp [hk, handleMsg, asks, addressees] at hasks

/-- So is the call that a receive timeout makes. -/
theorem called_of_timeout (hn : n.election = some e) (hasks : asks (receiveTimeout c n) ≠ [])
    (hnext : Election.timeout c e = some e') (hhigher : higher c ≠ []) :
    e'.started = e.started ∧ e'.lastSent = some .elect := by
  obtain ⟨-, hsent, hreceived, haya⟩ := fields_of_election hn
  have hcoord : asks (sendLoop c .coord (some 0) n.myVectorClock n.counter (lower c)) = [] :=
    addressees_sendLoop (by simp)
  unfold Election.timeout at hnext
  unfold receiveTimeout at hasks
  rw [← hsent, ← hreceived, ← haya] at hasks
  cases hs : e.lastSent with
  | none =>
      cases hr : e.lastReceived with
      | none => simp [hs, hr, asks, addressees] at hasks
      | some k =>
          cases k with
          | answer =>
              simp only [hs, hr] at hnext
              obtain ⟨-, rfl⟩ := Election.burst_eq_some.mp hnext
              rw [if_neg hhigher]
              exact ⟨rfl, rfl⟩
          -- these timeouts send COORD or nothing
          | elect => simp [hs, hr, hcoord] at hasks
          | _ => simp [hs, hr, asks, addressees] at hasks
  | some k =>
      cases k with
      | elect => simp [hs, hcoord] at hasks
      | aya =>
          cases ha : e.aya with
          | none => simp [hs, ha] at hnext
          | some target =>
              -- the suspected coordinator is replaced by a call
              simp only [hs, ha] at hnext
              obtain ⟨-, rfl⟩ := Election.burst_eq_some.mp hnext
              rw [if_neg hhigher]
              exact ⟨rfl, rfl⟩
      | _ => simp [hs, asks, addressees] at hasks

/-- The first receive timeout leaves ELECT in `lastReceived`, and in `lastSent` nothing else. -/
theorem called_of_startup (hstarted : e.started = true) (hhigher : higher c ≠ [])
    (hnext : Election.startup c c.groupMems e = some e') : e'.Declares := by
  unfold Election.startup at hnext
  split at hnext
  · cases hlast : c.groupMems.getLast? with
    | none =>
        -- an empty list has no higher member
        rw [List.getLast?_eq_none_iff] at hlast
        simp [higher, hlast] at hhigher
    | some m =>
        rw [hlast] at hnext
        cases hnext
        refine ⟨hstarted, ?_⟩
        by_cases hm : c.port < m.portno
        · exact Or.inl (if_pos hm)
        · exact Or.inr ⟨if_neg hm, rfl⟩
  · exact absurd hnext (by simp)

/-- A step that makes a call remembers it. -/
theorem called_of_handle (hn : n.election = some e) (hnext : Election.next c e i = some e')
    (hasks : asks (handle c n i) ≠ []) (b : Bool) : e'.Declares ∧ overwrites i b = false := by
  have hhigher := higher_of_asks hasks
  obtain ⟨hstarted, hsent, -, -⟩ := fields_of_election hn
  have hcontrol := control_of_election hn
  have hloop : n.control = .loop → e.started = true := fun hc => by simp [hstarted, hc]
  cases i with
  | message src m =>
      have hkeeps : m.msgID = .elect → overwrites (.message src m) b = false := fun hk => by
        simp [overwrites, hk]
      cases hc : n.control with
      | exited => exact absurd hc hcontrol
      | starting =>
          have hx : e.started = false := by simp [hstarted, hc]
          have hreset : asks [.control .loop, .lastReceived none, .lastSent none] = [] := rfl
          simp only [handle, hc, asks_append, hreset, List.nil_append] at hasks
          simp only [Election.next, hx, Bool.false_eq_true, if_false] at hnext
          obtain ⟨hk, hstarted', hs⟩ := called_of_receive rfl hasks hnext hhigher
          exact ⟨⟨hstarted', Or.inl hs⟩, hkeeps hk⟩
      | loop =>
          simp only [handle, hc] at hasks
          simp only [Election.next, hloop hc, if_true] at hnext
          obtain ⟨hk, hstarted', hs⟩ := called_of_receive hsent.symm hasks hnext hhigher
          exact ⟨⟨hstarted'.trans (hloop hc), Or.inl hs⟩, hkeeps hk⟩
  | timeout =>
      refine ⟨?_, rfl⟩
      cases hc : n.control with
      | exited => exact absurd hc hcontrol
      | starting =>
          have hx : e.started = false := by simp [hstarted, hc]
          simp only [Election.next, hx, Bool.false_eq_true, if_false] at hnext
          exact called_of_startup rfl hhigher hnext
      | loop =>
          simp only [handle, hc] at hasks
          simp only [Election.next, hloop hc, if_true] at hnext
          obtain ⟨hstarted', hs⟩ := called_of_timeout hn hasks hnext hhigher
          exact ⟨hstarted'.trans (hloop hc), Or.inl hs⟩
  | thread =>
      -- the AYA thread asks nobody
      simp only [handle, threadIteration] at hasks
      split at hasks
      · split at hasks
        · simp [asks, addressees] at hasks
        · simp [asks, addressees, sendMsg] at hasks
      · simp [asks, addressees] at hasks

/-- **Step lemma**: an unanswered call is remembered unless it is overwritten. -/
theorem callInv_step (hn : n.election = some e) (haccepts : accepts c n i)
    (hnext : Election.next c e i = some e') (h : CallInv c e call) :
    CallInv c e' (watchCall c n i call) := by
  intro hcall
  by_cases hasks : asks (handle c n i) = []
  · -- the call is an older one, and the input does not end it
    obtain ⟨hopen, hsettles, hi⟩ : call.unanswered ∧ i.settles = false ∧ i ≠ .timeout := by
      simpa [watchCall, hasks] using hcall
    obtain ⟨hhigher, hstarted, hmemory⟩ := h hopen
    refine ⟨hhigher, ?_⟩
    cases i with
    | message src m =>
        simp only [Election.next, hstarted, if_true] at hnext
        cases hk : m.msgID with
        | elect =>
            -- an ELECT sets lastSent again, if it is not set already
            simp only [hk, Election.receive] at hnext
            split at hnext
            · rename_i hbusy
              cases hnext
              simp [watchCall, overwrites, hk, hstarted, Election.Declares, hbusy]
            · obtain ⟨-, rfl⟩ := Election.burst_eq_some.mp hnext
              simp [watchCall, overwrites, hk, hstarted, hhigher, Election.Declares]
        | answer => simp [Input.settles, hk] at hsettles
        | coord => simp [Input.settles, hk] at hsettles
        | aya =>
            -- the answer to an AYA overwrites it
            simp only [hk, Election.receive, Option.some.injEq] at hnext
            subst hnext
            simp [watchCall, overwrites, hk, hstarted]
        | iaa =>
            simp only [hk, Election.receive, Option.some.injEq] at hnext
            subst hnext
            exact ⟨hstarted, by simpa [watchCall, overwrites, hk] using hmemory⟩
        | other id =>
            simp only [hk, Election.receive, Option.some.injEq] at hnext
            subst hnext
            exact ⟨hstarted, by simpa [watchCall, overwrites, hk] using hmemory⟩
    | timeout => exact absurd rfl hi
    | thread =>
        -- so does the AYA that the thread sends
        obtain ⟨-, -, -, haya⟩ := fields_of_election hn
        simp only [Election.next, haya] at hnext
        cases ha : n.aya with
        | none => exact absurd ha haccepts.2
        | some target =>
            simp only [ha] at hnext
            split at hnext
            · exact absurd hnext (by simp)
            · cases hnext
              simp [watchCall, overwrites, hstarted]
  · -- the call is made by this step
    obtain ⟨hd, hkept⟩ := called_of_handle hn hnext hasks call.overwritten
    refine ⟨higher_of_asks hasks, hd.1, ?_⟩
    show if overwrites i call.overwritten then _ else _
    rw [hkept]
    exact hd

/-! ## The law -/

/-- An overwritten call is not concluded: nobody is told. -/
theorem tells_of_overwritten (hc : n.control = .loop)
    (hs : n.lastSent = some .iaa ∨ n.lastSent = some .aya) : tells (handle c n .timeout) = [] := by
  simp only [handle, hc, receiveTimeout]
  rcases hs with hs | hs
  · rw [hs]
    rfl
  · rw [hs]
    cases n.aya with
    | none => rfl
    | some target =>
        exact addressees_sendLoop (by simp)

/-- At a receive timeout the call is concluded exactly when it is recalled. -/
theorem concludes_iff_recalls (hn : n.election = some e) (h : CallInv c e call) :
    Concludes c (n, call) i ↔ Recalls c (n, call) i := by
  refine imp_congr_right fun hi => imp_congr_right fun hopen => ?_
  subst hi
  obtain ⟨-, hstarted, hmemory⟩ := h hopen
  obtain ⟨hloop, hsent, -, -⟩ := fields_of_election hn
  have hc : n.control = .loop := by
    rw [hloop] at hstarted
    simpa using hstarted
  cases ho : call.overwritten with
  | true =>
      -- IAA or AYA is in lastSent
      simp only [ho, if_true] at hmemory
      rw [hsent] at hmemory
      show AllTold c (tells (handle c n .timeout)) ↔ _
      rw [tells_of_overwritten hc hmemory, allTold_nil]
      simp
  | false =>
      -- the node declares itself
      simp only [ho, Bool.false_eq_true, if_false] at hmemory
      show AllTold c (tells (handle c n .timeout)) ↔ _
      rw [handle_of_declares ((declares_iff hn).mpr hmemory), allTold_sendLoop]
      constructor
      · intro hresolves
        exact Or.inr ⟨rfl, hresolves⟩
      · rintro (hnone | ⟨-, hresolves⟩)
        · simp [Election.Resolves, hnone]
        · exact hresolves

end Node

end DistributedSystem.Bully
