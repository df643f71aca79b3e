import DistributedSystem.Bully.Election

/-!
# What a node sends

Every send site of `node.c` addresses the members with a higher port, those with a lower
one, the sender of the message that is handled, or the target of the AYA thread. `Sends`
lists them, with the branch that each is reached by.
-/

namespace DistributedSystem.Bully

open DistributedSystem.Library

namespace Node

/-- The address of a member, if its name resolves. -/
def memberAddr (c : Config) (m : GroupMem) : Option SockAddr :=
  (c.gethostbyname m.hostname).map fun addr => ⟨addr, m.portno % 65536⟩

/-- A receive timeout in this state declares the node coordinator. -/
def Declares (n : Node) : Prop :=
  n.control = .loop ∧
    (n.lastSent = some .elect ∨ n.lastSent = none ∧ n.lastReceived = some .elect)

instance (n : Node) : Decidable (Declares n) := by unfold Declares; infer_instance

/-- What a node sends on an input, and where. -/
inductive Sends (c : Config) (n : Node) (i : Input) (dst : SockAddr) : MsgType → Prop
  | elect {m : GroupMem} (hm : m ∈ higher c) (hdst : memberAddr c m = some dst) :
      Sends c n i dst .elect
  | coordOnTimeout {m : GroupMem} (hi : i = .timeout) (hn : n.Declares) (hm : m ∈ lower c)
      (hdst : memberAddr c m = some dst) : Sends c n i dst .coord
  | coordOnElect {m : GroupMem} {src : SockAddr} {msg : Msg} (hi : i = .message src msg)
      (hmsg : msg.msgID = .elect) (hhigher : higher c = []) (hm : m ∈ lower c)
      (hdst : memberAddr c m = some dst) : Sends c n i dst .coord
  | answer {msg : Msg} (hi : i = .message dst msg) (hmsg : msg.msgID = .elect) :
      Sends c n i dst .answer
  | aya (hi : i = .thread) (htarget : n.aya = some dst) : Sends c n i dst .aya
  | iaa {msg : Msg} (hi : i = .message dst msg) (hmsg : msg.msgID = .aya) : Sends c n i dst .iaa

variable {c : Config} {n : Node} {k : MsgType} {vc : VClock} {dst : SockAddr} {p : Msg} {i : Input}
  {id : Option ℕ} {counter : ℕ} {ms : List GroupMem} {m : GroupMem}

theorem mem_higher : m ∈ higher c ↔ m ∈ c.groupMems ∧ c.port < m.portno := by
  simp [higher]

theorem mem_lower : m ∈ lower c ↔ m ∈ c.groupMems ∧ m.portno < c.port := by
  simp [lower]

theorem send_mem_sendMsg {dst' : SockAddr} {e : ℕ} {drawn : Option ℕ} :
    .send dst p ∈ sendMsg c vc dst' k e drawn ↔
      dst = dst' ∧ p = { msgID := k, electionID := e, vectorClock := updateMyVectorClock c.port vc } := by
  cases drawn <;> simp [sendMsg]

/-- A loop over members sends to members only. -/
theorem of_send_mem_sendLoop (h : .send dst p ∈ sendLoop c k id vc counter ms) :
    p.msgID = k ∧ ∃ m ∈ ms, memberAddr c m = some dst := by
  induction ms generalizing vc counter with
  | nil => simp [sendLoop] at h
  | cons m ms ih =>
      unfold sendLoop at h
      cases haddr : c.gethostbyname m.hostname with
      | none => simp [haddr] at h
      | some addr =>
          simp only [haddr, List.mem_append] at h
          rcases h with (h | h) | h
          · obtain ⟨rfl, rfl⟩ := send_mem_sendMsg.mp h
            exact ⟨rfl, m, by simp, by simp [memberAddr, haddr]⟩
          · simp at h
          · obtain ⟨hk, m', hm', hdst⟩ := ih h
            exact ⟨hk, m', List.mem_cons_of_mem _ hm', hdst⟩

/-- And to every member, when all names resolve. -/
theorem send_mem_sendLoop (k : MsgType) (id : Option ℕ) (vc : VClock) (counter : ℕ)
    (hall : Election.Resolves c ms) (hm : m ∈ ms)
    (hdst : memberAddr c m = some dst) :
    ∃ p, .send dst p ∈ sendLoop c k id vc counter ms ∧ p.msgID = k := by
  induction ms generalizing vc counter with
  | nil => exact absurd hm (by simp)
  | cons m' ms ih =>
      unfold sendLoop
      cases haddr : c.gethostbyname m'.hostname with
      | none => exact absurd haddr (hall m' (by simp))
      | some addr =>
          simp only [List.mem_append]
          rcases List.mem_cons.mp hm with rfl | hm
          · simp only [memberAddr, haddr, Option.map_some, Option.some.injEq] at hdst
            exact ⟨_, Or.inl (Or.inl (send_mem_sendMsg.mpr ⟨hdst.symm, rfl⟩)), rfl⟩
          · obtain ⟨p, hp, hk⟩ := ih _ _ (fun m'' hm'' => hall m'' (List.mem_cons_of_mem _ hm'')) hm
            exact ⟨p, Or.inr hp, hk⟩

/-- The addresses a message of kind `k` is sent to. -/
def addressees (k : MsgType) (es : List NodeEffect) : List SockAddr :=
  es.filterMap fun
    | .send dst m => if m.msgID = k then some dst else none
    | _ => none

theorem mem_addressees {es : List NodeEffect} :
    dst ∈ addressees k es ↔ ∃ p, .send dst p ∈ es ∧ p.msgID = k := by
  simp only [addressees, List.mem_filterMap]
  constructor
  · rintro ⟨e, he, ha⟩
    cases e with
    | send dst p =>
        simp only [Option.ite_none_right_eq_some, Option.some.injEq] at ha
        obtain ⟨hp, rfl⟩ := ha
        exact ⟨p, he, hp⟩
    | _ => simp at ha
  · rintro ⟨p, hp, hk⟩
    exact ⟨_, hp, by simp [hk]⟩

/-- Loops that send messages of another kind have no addressee. -/
theorem addressees_sendLoop {k' : MsgType} (hk : k' ≠ k) :
    addressees k (sendLoop c k' id vc counter ms) = [] := by
  refine List.eq_nil_iff_forall_not_mem.mpr fun a ha => ?_
  obtain ⟨p, hp, hkind⟩ := mem_addressees.mp ha
  exact hk ((of_send_mem_sendLoop hp).1.symm.trans hkind)

theorem of_send_mem_startupLoop (h : .send dst p ∈ startupLoop c vc counter ms) :
    p.msgID = .elect ∧ ∃ m ∈ ms, c.port < m.portno ∧ memberAddr c m = some dst := by
  induction ms generalizing vc counter with
  | nil => simp [startupLoop] at h
  | cons m ms ih =>
      -- what the rest of the loop sends goes to a later member of the list
      have hrest : ∀ {vc counter}, .send dst p ∈ startupLoop c vc counter ms →
          p.msgID = .elect ∧ ∃ m' ∈ m :: ms, c.port < m'.portno ∧ memberAddr c m' = some dst := by
        intro vc counter h
        obtain ⟨hk, m', hm', hport, hdst⟩ := ih h
        exact ⟨hk, m', List.mem_cons_of_mem _ hm', hport, hdst⟩
      unfold startupLoop at h
      rcases List.mem_append.mp h with h | h
      · simp at h
      by_cases hport : c.port < m.portno
      · rw [if_pos hport] at h
        cases haddr : c.gethostbyname m.hostname with
        | none => simp [haddr] at h
        | some addr =>
            simp only [haddr, List.mem_append] at h
            rcases h with (h | h) | h
            · obtain ⟨rfl, rfl⟩ := send_mem_sendMsg.mp h
              exact ⟨rfl, m, by simp, hport, by simp [memberAddr, haddr]⟩
            · simp at h
            · exact hrest h
      · rw [if_neg hport] at h
        exact hrest h

theorem send_mem_startupLoop (vc : VClock) (counter : ℕ)
    (hall : Election.Resolves c (ms.filter fun m => c.port < m.portno))
    (hm : m ∈ ms) (hport : c.port < m.portno) (hdst : memberAddr c m = some dst) :
    ∃ p, .send dst p ∈ startupLoop c vc counter ms ∧ p.msgID = .elect := by
  induction ms generalizing vc counter with
  | nil => exact absurd hm (by simp)
  | cons m' ms ih =>
      -- the members above in the rest of the list have addresses too
      have hall' : Election.Resolves c (ms.filter fun m => c.port < m.portno) := by
        intro m'' hm''
        refine hall m'' ?_
        rw [List.mem_filter] at hm'' ⊢
        exact ⟨List.mem_cons_of_mem _ hm''.1, hm''.2⟩
      unfold startupLoop
      rcases List.mem_cons.mp hm with rfl | hm
      · rw [if_pos hport]
        cases haddr : c.gethostbyname m.hostname with
        | none => exact absurd haddr (hall m (by simp [hport]))
        | some addr =>
            simp only [memberAddr, haddr, Option.map_some, Option.some.injEq] at hdst
            simp only [List.mem_append]
            exact ⟨_, Or.inr (Or.inl (Or.inl (send_mem_sendMsg.mpr ⟨hdst.symm, rfl⟩))), rfl⟩
      · by_cases hport' : c.port < m'.portno
        · rw [if_pos hport']
          cases haddr : c.gethostbyname m'.hostname with
          | none => exact absurd haddr (hall m' (by simp [hport']))
          | some addr =>
              obtain ⟨p, hp, hk⟩ := ih (updateMyVectorClock c.port vc)
                (nextElection counter) hall' hm
              exact ⟨p, List.mem_append_right _ (List.mem_append_right _ hp), hk⟩
        · rw [if_neg hport']
          obtain ⟨p, hp, hk⟩ := ih vc counter hall' hm
          exact ⟨p, List.mem_append_right _ hp, hk⟩

/-- What a received message makes a node send. -/
theorem sends_receive {n' : Node} {src : SockAddr} {msg : Msg} (hi : i = .message src msg)
    (h : .send dst p ∈ receive c n' src msg) : Sends c n i dst p.msgID := by
  unfold receive at h
  rcases List.mem_append.mp h with h | h
  · simp at h
  unfold handleMsg at h
  cases hk : msg.msgID with
  | elect =>
      simp only [hk, List.mem_append] at h
      -- ELECT: the answer, then the loops over the members above and below
      rcases h with (h | h) | h
      · obtain ⟨rfl, rfl⟩ := send_mem_sendMsg.mp h
        exact .answer hi hk
      · simp at h
      · split at h
        · simp at h
        · simp only [List.mem_append] at h
          rcases h with (h | h) | h
          · simp at h
          · obtain ⟨hp, m, hm, hdst⟩ := of_send_mem_sendLoop h
            exact hp ▸ .elect hm hdst
          · split at h
            · rename_i hhigher
              obtain ⟨hp, m, hm, hdst⟩ := of_send_mem_sendLoop h
              exact hp ▸ .coordOnElect hi hk hhigher hm hdst
            · simp at h
  | answer =>
      simp only [hk] at h
      split at h
      · simp at h
      · simp at h
  | coord =>
      simp only [hk] at h
      split at h
      · simp at h
      · simp at h
  | aya =>
      simp only [hk, List.mem_append] at h
      rcases h with h | h
      · simp at h
      · obtain ⟨rfl, rfl⟩ := send_mem_sendMsg.mp h
        exact .iaa hi hk
  | iaa => simp [hk] at h
  | other id => simp [hk] at h

/-- **What a node sends.** -/
theorem sends_handle (h : .send dst p ∈ handle c n i) : Sends c n i dst p.msgID := by
  cases i with
  | message src msg =>
      unfold handle at h
      cases hc : n.control with
      | starting =>
          simp only [hc] at h
          rcases List.mem_append.mp h with h | h
          · simp at h
          · exact sends_receive rfl h
      | loop =>
          simp only [hc] at h
          exact sends_receive rfl h
      | exited => simp [hc] at h
  | timeout =>
      unfold handle at h
      cases hc : n.control with
      | starting =>
          simp only [hc] at h
          rcases List.mem_cons.mp h with h | h
          · simp at h
          · obtain ⟨hp, m, hm, hport, hdst⟩ := of_send_mem_startupLoop h
            exact hp ▸ .elect (mem_higher.mpr ⟨hm, hport⟩) hdst
      | loop =>
          simp only [hc] at h
          -- the three branches of the timeout that send
          unfold receiveTimeout at h
          split at h
          · rename_i hs
            obtain ⟨hp, m, hm, hdst⟩ := of_send_mem_sendLoop h
            exact hp ▸ .coordOnTimeout rfl ⟨hc, Or.inl hs⟩ hm hdst
          · split at h
            · rcases List.mem_cons.mp h with h | h
              · simp at h
              · obtain ⟨hp, m, hm, hdst⟩ := of_send_mem_sendLoop h
                exact hp ▸ .elect hm hdst
            · simp at h
          · rename_i hs
            split at h
            · obtain ⟨hp, m, hm, hdst⟩ := of_send_mem_sendLoop h
              exact hp ▸ .elect hm hdst
            · rename_i hr
              obtain ⟨hp, m, hm, hdst⟩ := of_send_mem_sendLoop h
              exact hp ▸ .coordOnTimeout rfl ⟨hc, Or.inr ⟨hs, hr⟩⟩ hm hdst
            · simp at h
          · simp at h
      | exited => simp [hc] at h
  | thread =>
      change .send dst p ∈ threadIteration c n at h
      unfold threadIteration at h
      cases htarget : n.aya with
      | none => simp [htarget] at h
      | some target =>
          simp only [htarget] at h
          split at h
          · simp at h
          · rcases List.mem_cons.mp h with h | h
            · simp at h
            · obtain ⟨rfl, rfl⟩ := send_mem_sendMsg.mp h
              exact .aya rfl htarget

end Node

end DistributedSystem.Bully
