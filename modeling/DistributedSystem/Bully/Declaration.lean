import DistributedSystem.Bully.Sends

/-!
# When a node declares itself coordinator

A node with higher members should send COORD only after it has asked all of them and has
heard neither an ANSWER nor a COORD since. An ANSWER that the state `lastSent`,
`lastReceived` shows is taken into account; a COORD is not, and neither is an ANSWER
after a first election in which the last member of the list had no higher port.
-/

namespace DistributedSystem.Bully

open DistributedSystem.Library

namespace Election

/-- A receive timeout in this state declares the node coordinator. -/
def Declares (e : Election) : Prop :=
  e.started = true ∧ (e.lastSent = some .elect ∨ e.lastSent = none ∧ e.lastReceived = some .elect)

theorem burst_eq_some {c : Config} {k : MsgType} {ms : List GroupMem} {e e' : Election} :
    burst c k ms e = some e' ↔
      Resolves c ms ∧ e' = if ms = [] then e else { e with lastSent := some k } := by
  unfold burst
  split
  · rename_i hresolves
    simp [hresolves, eq_comm]
  · rename_i hresolves
    simp [hresolves]

end Election

namespace Node

/-! ## The history of an election -/

/-- The addresses an ELECT is sent to. -/
def asks (es : List NodeEffect) : List SockAddr := addressees .elect es

/-- The input is an ANSWER or a COORD. -/
def Input.settles : Input → Bool
  | .message _ m => m.msgID = .answer ∨ m.msgID = .coord
  | _ => false

/-- The addresses asked since the last ANSWER or COORD, after an input. -/
def watchAsked (c : Config) (n : Node) (i : Input) (asked : List SockAddr) : List SockAddr :=
  (if i.settles then [] else asked) ++ asks (handle c n i)

/-- The runs of a node, with the addresses asked since the last ANSWER or COORD. -/
def asking (c : Config) : Machine (Node × List SockAddr) Input :=
  (process c).atomic.watch (watchAsked c)

/-- The effects send a COORD. -/
def sendsCoord (es : List NodeEffect) : Bool :=
  es.any fun
    | .send _ m => m.msgID = .coord
    | _ => false

/-- All higher members are asked. -/
def AllAsked (c : Config) (asked : List SockAddr) : Prop :=
  ∀ m ∈ higher c, ∃ a ∈ asked, memberAddr c m = some a

/-- If the step sends COORD, all higher members have been asked, and none has answered or
    declared itself since. -/
def DeclaresSafely (c : Config) (x : Node × List SockAddr) (i : Input) : Prop :=
  sendsCoord (handle c x.1 i) → AllAsked c x.2

/-- A receive timeout can make the node send a COORD. -/
def CanDeclare (c : Config) : Prop :=
  c.timeoutValue ≠ 0 ∧ ((lower c).head?.bind (memberAddr c)).isSome

/-- No COORD arrives while `lastSent` is ELECT, and no ANSWER while it is 0 and
    `lastReceived` is ELECT. -/
def Heeds (c : Config) (n : Node) (i : Input) : Prop :=
  CanDeclare c → n.control = .loop →
    match i with
    | .message _ m =>
        (m.msgID = .coord → n.lastSent ≠ some .elect) ∧
          (m.msgID = .answer → ¬ (n.lastSent = none ∧ n.lastReceived = some .elect))
    | _ => True

instance (c : Config) (asked : List SockAddr) : Decidable (AllAsked c asked) := by
  unfold AllAsked; infer_instance

instance (c : Config) (x : Node × List SockAddr) (i : Input) : Decidable (DeclaresSafely c x i) := by
  unfold DeclaresSafely; infer_instance

instance (c : Config) : Decidable (CanDeclare c) := by unfold CanDeclare; infer_instance

instance (c : Config) (n : Node) : ∀ i, Decidable (Heeds c n i)
  | .message _ _ => inferInstanceAs (Decidable (_ → _ → _ ∧ _))
  | .timeout | .thread => isTrue fun _ _ => trivial

variable {c : Config} {n : Node} {asked : List SockAddr} {i : Input} {es : List NodeEffect}
  {as : List Input}

theorem mem_asks {a : SockAddr} : a ∈ asks es ↔ ∃ p, .send a p ∈ es ∧ p.msgID = .elect :=
  mem_addressees (k := .elect)

theorem AllAsked.mono {asked' : List SockAddr} (h : AllAsked c asked)
    (hsub : ∀ a ∈ asked, a ∈ asked') : AllAsked c asked' := by
  intro m hm
  obtain ⟨a, ha, haddr⟩ := h m hm
  exact ⟨a, hsub a ha, haddr⟩

/-- Effects that contain an ELECT for every higher member ask all of them. -/
theorem allAsked_of_sends (hresolves : Election.Resolves c (higher c))
    (hsend : ∀ m ∈ higher c, ∀ a, memberAddr c m = some a → ∃ p, .send a p ∈ es ∧ p.msgID = .elect) :
    AllAsked c (asks es) := by
  intro m hm
  cases haddr : c.gethostbyname m.hostname with
  | none => exact absurd haddr (hresolves m hm)
  | some addr =>
      have hmember : memberAddr c m = some ⟨addr, m.portno % 65536⟩ := by simp [memberAddr, haddr]
      exact ⟨_, mem_asks.mpr (hsend m hm _ hmember), hmember⟩

theorem allAsked_sendLoop (id : Option ℕ) (vc : VClock) (counter : ℕ)
    (hresolves : Election.Resolves c (higher c))
    (hsub : ∀ e ∈ sendLoop c .elect id vc counter (higher c), e ∈ es) :
    AllAsked c (asks es) := by
  refine allAsked_of_sends hresolves fun m hm a ha => ?_
  obtain ⟨p, hp, hk⟩ := send_mem_sendLoop .elect id vc counter hresolves hm ha
  exact ⟨p, hsub _ hp, hk⟩

/-! ## The invariant -/

/-- A node that would declare itself has asked all higher members. -/
def AskedInv (c : Config) (x : Node × List SockAddr) : Prop := x.1.Declares → AllAsked c x.2

theorem declares_iff {e : Election} (h : n.election = some e) : n.Declares ↔ e.Declares := by
  obtain ⟨hstarted, hsent, hreceived, -⟩ := fields_of_election h
  unfold Declares Election.Declares
  rw [hstarted, hsent, hreceived, decide_eq_true_iff]

/-- A node that declares itself after a step has not exited. -/
theorem election_of_declares (h : n.Declares) : ∃ e, n.election = some e := by
  have hcontrol : n.control ≠ .exited := by
    rw [h.1]
    simp
  exact ⟨_, election_eq hcontrol⟩

/-- After a receive timeout in the loop: all are asked, or the node declared itself before
    and nothing has changed that. -/
theorem asked_of_timeout {e e' : Election} (hn : n.election = some e)
    (hnext : Election.timeout c e = some e') (hd : e'.Declares) :
    AllAsked c (asks (receiveTimeout c n)) ∨ e.Declares := by
  obtain ⟨-, hsent, hreceived, haya⟩ := fields_of_election hn
  unfold Election.timeout at hnext
  unfold receiveTimeout
  rw [← hsent, ← hreceived, ← haya]
  cases hs : e.lastSent with
  | none =>
      cases hr : e.lastReceived with
      | none =>
          simp only [hs, hr, Option.some.injEq] at hnext
          exact Or.inr (hnext ▸ hd)
      | some k =>
          cases k with
          | answer =>
              simp only [hs, hr] at hnext
              obtain ⟨hresolves, -⟩ := Election.burst_eq_some.mp hnext
              -- an answer was received: a new call asks all members above
              exact Or.inl (allAsked_sendLoop _ _ _ hresolves fun e he => he)
          | elect =>
              simp only [hs, hr] at hnext
              obtain ⟨-, rfl⟩ := Election.burst_eq_some.mp hnext
              split at hd
              · exact Or.inr hd
              · exact absurd hd.2 (by simp)
          | _ =>
              simp only [hs, hr, Option.some.injEq] at hnext
              exact Or.inr (hnext ▸ hd)
  | some k =>
      cases k with
      | elect =>
          simp only [hs] at hnext
          obtain ⟨-, rfl⟩ := Election.burst_eq_some.mp hnext
          split at hd
          · exact Or.inr hd
          · exact absurd hd.2 (by simp)
      | aya =>
          cases ha : e.aya with
          | none => simp [hs, ha] at hnext
          | some target =>
              simp only [hs, ha] at hnext
              obtain ⟨hresolves, -⟩ := Election.burst_eq_some.mp hnext
              exact Or.inl (allAsked_sendLoop _ _ _ hresolves fun e he => List.mem_cons_of_mem _ he)
      | _ =>
          simp only [hs, Option.some.injEq] at hnext
          exact Or.inr (hnext ▸ hd)

/-- After the first receive timeout all higher members are asked. -/
theorem asked_of_startup {e e' : Election} (hnext : Election.startup c c.groupMems e = some e') :
    AllAsked c (asks (startupLoop c n.myVectorClock n.counter c.groupMems)) := by
  unfold Election.startup at hnext
  split at hnext
  · rename_i hresolves
    refine allAsked_of_sends hresolves fun m hm a ha => ?_
    obtain ⟨hm, hport⟩ := mem_higher.mp hm
    exact send_mem_startupLoop _ _ hresolves hm hport ha
  · exact absurd hnext (by simp)

/-- After a message that is handled on the election state `e`. -/
theorem asked_of_receive {e e' : Election} (n' : Node) {src : SockAddr} {m : Msg}
    (hsent : n'.lastSent = e.lastSent)
    (hcoord : m.msgID = .coord → e.lastSent ≠ some .elect)
    (hanswer : m.msgID = .answer → ¬ (e.lastSent = none ∧ e.lastReceived = some .elect))
    (hstarted : e.started = true) (hnext : Election.receive c e src m.msgID = some e')
    (hd : e'.Declares) :
    AllAsked c (asks (receive c n' src m)) ∨ e.Declares ∧ (Input.message src m).settles = false := by
  unfold Election.receive at hnext
  cases hk : m.msgID with
  | elect =>
      have hsettles : (Input.message src m).settles = false := by simp [Input.settles, hk]
      simp only [hk] at hnext
      split at hnext
      · -- an election is running, so nothing is settled
        rename_i hbusy
        exact Or.inr ⟨⟨hstarted, Or.inl hbusy⟩, hsettles⟩
      · -- the node calls an election of its own, unless it is the highest
        rename_i hidle
        split at hnext
        · rename_i hnone
          refine Or.inl fun m' hm' => ?_
          rw [hnone] at hm'
          exact absurd hm' (by simp)
        · obtain ⟨hresolves, -⟩ := Election.burst_eq_some.mp hnext
          refine Or.inl (allAsked_sendLoop (some m.electionID)
            (updateMyVectorClock c.port (receivedClock c n' m)) n'.counter hresolves fun e he => ?_)
          have hidle' : n'.lastSent ≠ some .elect := hsent ▸ hidle
          simp only [receive, handleMsg, hk, if_neg hidle', List.mem_append]
          exact Or.inr (Or.inr (Or.inl (Or.inr he)))
  | answer =>
      simp only [hk, Option.some.injEq] at hnext
      subst hnext
      split at hd
      · exact absurd hd.2 (by simp)
      · rename_i hne
        exact absurd (hd.2.resolve_left hne) (hanswer hk)
  | coord =>
      simp only [hk, Option.some.injEq] at hnext
      subst hnext
      rcases hd.2 with hs | ⟨-, hr⟩
      · exact absurd hs (hcoord hk)
      · exact absurd hr (by simp)
  | aya =>
      simp only [hk, Option.some.injEq] at hnext
      subst hnext
      exact absurd hd.2 (by simp)
  | iaa =>
      simp only [hk, Option.some.injEq] at hnext
      exact Or.inr ⟨hnext ▸ hd, by simp [Input.settles, hk]⟩
  | other id =>
      simp only [hk, Option.some.injEq] at hnext
      exact Or.inr ⟨hnext ▸ hd, by simp [Input.settles, hk]⟩

theorem asks_append (es fs : List NodeEffect) : asks (es ++ fs) = asks es ++ asks fs :=
  List.filterMap_append

/-- **Step lemma**: a step that heeds the others' messages keeps the invariant. -/
theorem askedInv_step (hcan : CanDeclare c) (h : AskedInv c (n, asked)) (haccepts : accepts c n i)
    (hheeds : Heeds c n i) : AskedInv c ((asking c).next (n, asked) i) := by
  intro hd
  show AllAsked c (watchAsked c n i asked)
  change ((process c).exec n (handle c n i)).Declares at hd
  -- what was asked before counts when the input does not settle the election
  have hkeep : i.settles = false → n.Declares → AllAsked c (watchAsked c n i asked) := by
    intro hsettles hold
    refine (h hold).mono fun a ha => ?_
    simp only [watchAsked, hsettles, Bool.false_eq_true, if_false]
    exact List.mem_append_left _ ha
  have hburst : AllAsked c (asks (handle c n i)) → AllAsked c (watchAsked c n i asked) :=
    fun hall => hall.mono fun a ha => List.mem_append_right _ ha
  have hcontrol := control_of_accepts haccepts
  obtain ⟨e', he'⟩ := election_of_declares hd
  have hn := election_eq hcontrol
  have hnext := (election_handle hn i).symm.trans he'
  have hd' := (declares_iff he').mp hd
  cases i with
  | message src m =>
      cases hc : n.control with
      | exited => exact absurd hc hcontrol
      | starting =>
          -- the first message is handled on a fresh state
          have hreceive : Election.receive c { (⟨false, n.lastSent, n.lastReceived, n.aya⟩ : Election)
              with started := true, lastReceived := none, lastSent := none } src m.msgID = some e' := by
            simpa [Election.next, hc] using hnext
          have hasked := asked_of_receive { n with lastReceived := none, lastSent := none } rfl
            (by simp) (by simp) rfl hreceive hd'
          rcases hasked with hall | ⟨hold, -⟩
          · refine hburst ?_
            simp only [handle, hc, asks_append]
            exact hall.mono fun a ha => List.mem_append_right _ ha
          · exact absurd hold.2 (by simp)
      | loop =>
          obtain ⟨hcoord, hanswer⟩ := hheeds hcan hc
          have hreceive : Election.receive c ⟨true, n.lastSent, n.lastReceived, n.aya⟩ src m.msgID =
              some e' := by
            simpa [Election.next, hc] using hnext
          rcases asked_of_receive n rfl hcoord hanswer rfl hreceive hd' with hall | ⟨hold, hs⟩
          · refine hburst ?_
            simp only [handle, hc]
            exact hall
          · exact hkeep hs ⟨hc, hold.2⟩
  | timeout =>
      cases hc : n.control with
      | exited => exact absurd hc hcontrol
      | starting =>
          have hstartup : Election.startup c c.groupMems
              ⟨true, n.lastSent, n.lastReceived, n.aya⟩ = some e' := by
            simpa [Election.next, hc] using hnext
          refine hburst ?_
          simp only [handle, hc]
          exact asked_of_startup hstartup
      | loop =>
          have htimeout : Election.timeout c ⟨true, n.lastSent, n.lastReceived, n.aya⟩ = some e' := by
            simpa [Election.next, hc] using hnext
          have hn' : n.election = some ⟨true, n.lastSent, n.lastReceived, n.aya⟩ := by
            rw [hn, hc]
            rfl
          rcases asked_of_timeout hn' htimeout hd' with hall | hold
          · refine hburst ?_
            simp only [handle, hc]
            exact hall
          · exact hkeep rfl ((declares_iff hn').mpr hold)
  | thread =>
      -- the thread leaves AYA in lastSent
      simp only [Election.next] at hnext
      cases ha : n.aya with
      | none => exact absurd ha haccepts.2
      | some target =>
          simp only [ha] at hnext
          split at hnext
          · exact absurd hnext (by simp)
          · cases hnext
            exact absurd hd'.2 (by simp)

/-! ## The law -/

theorem sendsCoord_iff : sendsCoord es = true ↔ ∃ dst m, .send dst m ∈ es ∧ m.msgID = .coord := by
  simp only [sendsCoord, List.any_eq_true]
  constructor
  · rintro ⟨e, he, hcoord⟩
    cases e with
    | send dst m => exact ⟨dst, m, he, by simpa using hcoord⟩
    | _ => simp at hcoord
  · rintro ⟨dst, m, hm, hk⟩
    exact ⟨_, hm, by simp [hk]⟩

/-- A node that sends COORD although it has higher members is at the end of a receive timeout. -/
theorem declares_of_sendsCoord (hhigher : higher c ≠ []) (h : sendsCoord (handle c n i)) :
    i = .timeout ∧ n.Declares := by
  obtain ⟨dst, m, hm, hk⟩ := sendsCoord_iff.mp h
  have hsends := sends_handle hm
  rw [hk] at hsends
  cases hsends with
  | coordOnTimeout hi hn _ _ => exact ⟨hi, hn⟩
  | coordOnElect _ _ hnone _ _ => exact absurd hnone hhigher

/-- What that timeout sends is the loop over the lower members. -/
theorem handle_of_declares (h : n.Declares) :
    handle c n .timeout = sendLoop c .coord (some 0) n.myVectorClock n.counter (lower c) := by
  simp only [handle, h.1, receiveTimeout]
  rcases h.2 with hs | ⟨hs, hr⟩
  · rw [hs]
  · rw [hs, hr]

/-- It sends at all exactly when the first lower member resolves. -/
theorem sendsCoord_sendLoop {vc : VClock} {counter : ℕ} {ms : List GroupMem} :
    sendsCoord (sendLoop c .coord (some 0) vc counter ms) ↔
      ((ms.head?.bind (memberAddr c)).isSome) := by
  cases ms with
  | nil => simp [sendLoop, sendsCoord]
  | cons m ms =>
      cases haddr : c.gethostbyname m.hostname with
      | none => simp [sendLoop, haddr, sendsCoord, memberAddr]
      | some addr => simp [sendLoop, haddr, sendsCoord, memberAddr, sendMsg]

theorem canDeclare_of_sendsCoord (hhigher : higher c ≠ []) (haccepts : accepts c n i)
    (h : sendsCoord (handle c n i)) : CanDeclare c := by
  obtain ⟨rfl, hn⟩ := declares_of_sendsCoord hhigher h
  rw [handle_of_declares hn, sendsCoord_sendLoop] at h
  exact ⟨haccepts.2, h⟩

/-- Along a run that heeds ANSWER and COORD every declaration is safe. -/
theorem declaresSafely_along (hhigher : higher c ≠ [])
    (hrun : (process c).atomic.Along (accepts c) (start c) as)
    (hheeds : (process c).atomic.Along (Heeds c) (start c) as) :
    (asking c).Along (DeclaresSafely c) (start c, []) as := by
  by_cases hcan : CanDeclare c
  · have hall : (asking c).Along (fun x i => accepts c x.1 i ∧ Heeds c x.1 i) (start c, []) as :=
      Machine.along_and.mpr ⟨Machine.along_watch.mpr hrun, Machine.along_watch.mpr hheeds⟩
    refine hall.strengthen (I := AskedInv c) ?_ (fun x i hx hC => ?_) fun x i hx _ hcoord => ?_
    · intro hd
      exact absurd hd.1 (by simp [start])
    · exact askedInv_step hcan hx hC.1 hC.2
    · exact hx (declares_of_sendsCoord hhigher hcoord).2
  · -- the node never sends COORD
    have haccepts : (asking c).Along (fun x i => accepts c x.1 i) (start c, []) as :=
      Machine.along_watch.mpr hrun
    refine haccepts.mono fun x i hx hcoord => ?_
    exact absurd (canDeclare_of_sendsCoord hhigher hx hcoord) hcan

/-- A node that has asked nobody and would declare itself does so at a receive timeout. -/
theorem unsafe_of_declares (hhigher : higher c ≠ []) (hcan : CanDeclare c) (hn : n.Declares) :
    accepts c n .timeout ∧ ¬ DeclaresSafely c (n, []) .timeout := by
  refine ⟨⟨?_, hcan.1⟩, fun hsafe => ?_⟩
  · rw [hn.1]
    simp
  · obtain ⟨m, hm⟩ := List.exists_mem_of_ne_nil _ hhigher
    have hcoord : sendsCoord (handle c n .timeout) := by
      rw [handle_of_declares hn, sendsCoord_sendLoop]
      exact hcan.2
    obtain ⟨a, ha, -⟩ := hsafe hcoord m hm
    exact absurd ha (by simp)

/-- A step that does not heed the message leaves a node that has asked nobody and declares
    itself at the next receive timeout. -/
theorem unsafe_after_unheeded (asked : List SockAddr) (hhigher : higher c ≠ [])
    (h : ¬ Heeds c n i) :
    accepts c ((process c).atomic.next n i) .timeout ∧
      ¬ DeclaresSafely c ((asking c).next (n, asked) i) .timeout := by
  unfold Heeds at h
  simp only [Classical.not_imp] at h
  obtain ⟨hcan, hc, hmsg⟩ := h
  cases i with
  | message src m =>
      have hloop : (process c).atomic.next n (.message src m) =
          (process c).exec n (receive c n src m) := by
        show (process c).exec n (handle c n (.message src m)) = _
        simp only [handle, hc]
      suffices hdeclares : ((process c).exec n (receive c n src m)).Declares ∧
          (Input.message src m).settles = true ∧ asks (receive c n src m) = [] by
        obtain ⟨hn, hsettles, hasks⟩ := hdeclares
        have hnext : (asking c).next (n, asked) (.message src m) =
            ((process c).exec n (receive c n src m), []) := by
          refine Prod.ext hloop ?_
          show watchAsked c n (.message src m) asked = []
          simp [watchAsked, hsettles, handle, hc, hasks]
        rw [hnext, hloop]
        exact unsafe_of_declares hhigher hcan hn
      rcases not_and_or.mp hmsg with hcoord | hanswer
      · -- a COORD leaves ELECT in lastSent
        obtain ⟨hk, hs⟩ := Classical.not_imp.mp hcoord
        have hs := not_not.mp hs
        refine ⟨?_, by simp [Input.settles, hk], ?_⟩
        · by_cases ha : n.aya = none
          · simp only [receive, handleMsg, hk, if_pos ha]
            exact ⟨hc, Or.inl hs⟩
          · simp only [receive, handleMsg, hk, if_neg ha]
            exact ⟨hc, Or.inl hs⟩
        · by_cases ha : n.aya = none
          · simp [receive, handleMsg, hk, ha, asks, addressees]
          · simp [receive, handleMsg, hk, ha, asks, addressees]
      · -- an ANSWER is taken for one to an older election
        obtain ⟨hk, hs⟩ := Classical.not_imp.mp hanswer
        have hs := not_not.mp hs
        have hne : n.lastSent ≠ some .elect := by
          rw [hs.1]
          simp
        refine ⟨?_, by simp [Input.settles, hk], ?_⟩
        · simp only [receive, handleMsg, hk, if_neg hne]
          exact ⟨hc, Or.inr hs⟩
        · simp [receive, handleMsg, hk, hne, asks, addressees]
  | timeout => exact absurd trivial hmsg
  | thread => exact absurd trivial hmsg

/-- **When declarations are safe**: a run of a node with higher members heeds ANSWER and COORD
    exactly when its declarations are safe, and would still be if after any of its steps the
    next thing were a receive timeout. -/
theorem declarations_safe_iff (c : Config) (as : List Input) (hhigher : higher c ≠ [])
    (hrun : (process c).atomic.Along (accepts c) (start c) as) :
    (process c).atomic.Along (Heeds c) (start c) as ↔
      (asking c).Along (DeclaresSafely c) (start c, []) as ∧
      ∀ bs, bs <+: as → (process c).atomic.Along (accepts c) (start c) (bs ++ [.timeout]) →
        (asking c).Along (DeclaresSafely c) (start c, []) (bs ++ [.timeout]) := by
  constructor
  · intro hheeds
    refine ⟨declaresSafely_along hhigher hrun hheeds, fun bs hbs haccepts => ?_⟩
    refine declaresSafely_along hhigher haccepts (Machine.along_concat.mpr ⟨?_, fun _ _ => trivial⟩)
    obtain ⟨cs, rfl⟩ := hbs
    exact (Machine.along_append.mp hheeds).1
  · rintro ⟨-, hsafe⟩
    refine Machine.along_iff_forall_prefix.mpr fun bs i hbs => ?_
    by_contra hunheeded
    have hrunBs : (process c).atomic.Along (accepts c) (start c) (bs ++ [i]) := by
      obtain ⟨cs, rfl⟩ := hbs
      exact (Machine.along_append.mp hrun).1
    have hlast := unsafe_after_unheeded ((asking c).after (start c, []) bs).2 hhigher hunheeded
    -- a receive timeout right after it is a run that declares itself unsafely
    have hafter : (process c).atomic.after (start c) (bs ++ [i]) =
        (process c).atomic.next ((process c).atomic.after (start c) bs) i := by
      rw [Machine.after_append]
      rfl
    have hghost : (asking c).after (start c, []) (bs ++ [i]) =
        (asking c).next ((process c).atomic.after (start c) bs,
          ((asking c).after (start c, []) bs).2) i := by
      have hfst : ((asking c).after (start c, []) bs).1 = (process c).atomic.after (start c) bs :=
        Machine.watch_after_fst bs
      rw [Machine.after_append, ← hfst]
      rfl
    have hrunTimeout : (process c).atomic.Along (accepts c) (start c) (bs ++ [i] ++ [.timeout]) :=
      Machine.along_concat.mpr ⟨hrunBs, hafter ▸ hlast.1⟩
    have hunsafe := (Machine.along_concat.mp (hsafe (bs ++ [i]) hbs hrunTimeout)).2
    rw [hghost] at hunsafe
    exact hlast.2 hunsafe

/-- An election that node 3 answers, and one that it does not. -/
theorem declarations_safe_iff_ofThree :
    (process (ofThree 2)).atomic.Along (Heeds (ofThree 2)) (start (ofThree 2))
        [.timeout, fromPort 3 .answer, .timeout, .timeout] ↔
      (asking (ofThree 2)).Along (DeclaresSafely (ofThree 2)) (start (ofThree 2), [])
          [.timeout, fromPort 3 .answer, .timeout, .timeout] ∧
      ∀ bs, bs <+: [.timeout, fromPort 3 .answer, .timeout, .timeout] →
        (process (ofThree 2)).atomic.Along (accepts (ofThree 2)) (start (ofThree 2)) (bs ++ [.timeout]) →
          (asking (ofThree 2)).Along (DeclaresSafely (ofThree 2)) (start (ofThree 2), []) (bs ++ [.timeout]) :=
  declarations_safe_iff (ofThree 2) _ (by decide) (by decide +kernel)

/-- Node 2 follows node 3, is drawn into an election by node 1, processes the COORD of
    node 3 for it, and declares itself at the next timeout. -/
theorem declares_after_coord :
    higher (ofThree 2) ≠ [] ∧
      (process (ofThree 2)).atomic.Along (accepts (ofThree 2)) (start (ofThree 2))
        [.timeout, fromPort 3 .coord, .thread, fromPort 1 .elect, fromPort 3 .coord, .timeout] ∧
      ¬ (asking (ofThree 2)).Along (DeclaresSafely (ofThree 2)) (start (ofThree 2), [])
        [.timeout, fromPort 3 .coord, .thread, fromPort 1 .elect, fromPort 3 .coord, .timeout] :=
  ⟨by decide, by decide +kernel, by decide +kernel⟩

end Node

end DistributedSystem.Bully
