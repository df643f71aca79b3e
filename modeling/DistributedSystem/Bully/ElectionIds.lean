import DistributedSystem.Bully.Sends
import Mathlib.Data.List.Iterate
import Mathlib.Data.List.Nodup
import Mathlib.Algebra.Order.BigOperators.Group.List

/-!
# The ids of elections

The id of an election should be the same in all ELECTs of one call, differ between the calls
of a node, and be left unchanged by whoever forwards or answers them. Forwarding keeps it.
A call takes the next value of `counter` for every member it asks, so all ids that a node
draws are consecutive: they differ between calls, and also within a call to more than one
member.
-/

namespace DistributedSystem.Bully

open DistributedSystem.Library

namespace Node

/-! ## Elections a node starts -/

/-- The ids of the ELECTs that are sent. -/
def electIds (es : List NodeEffect) : List ℕ :=
  es.filterMap fun
    | .send _ m => if m.msgID = .elect then some m.electionID else none
    | _ => none

/-- The elections that a node starts itself in a run, all of them at receive timeouts: the ids
    of the ELECTs of each. -/
def ownElections (c : Config) : Node → List Input → List (List ℕ)
  | _, [] => []
  | n, i :: as =>
      (if i = .timeout ∧ electIds (handle c n i) ≠ [] then [electIds (handle c n i)] else []) ++
        ownElections c ((process c).atomic.next n i) as

/-- An ANSWER, and an ELECT that is not sent at a receive timeout, has the id of the ELECT that
    is handled. -/
def KeepsId (c : Config) (n : Node) (i : Input) : Prop :=
  ∀ dst p, .send dst p ∈ handle c n i → (p.msgID = .answer ∨ (p.msgID = .elect ∧ i ≠ .timeout)) →
    ∃ src m, i = .message src m ∧ m.msgID = .elect ∧ p.electionID = m.electionID

/-- The ids of a run are what they are meant to be. -/
structure LawfulIds (c : Config) (as : List Input) : Prop where
  oneId : ∀ ids ∈ ownElections c (start c) as, ∀ a ∈ ids, ∀ b ∈ ids, a = b
  distinct : (ownElections c (start c) as).Pairwise List.Disjoint
  forwarded : (process c).atomic.Along (KeepsId c) (start c) as

/-- The members that a call reaches: those before the first name that does not resolve. -/
def reached (c : Config) (ms : List GroupMem) : List GroupMem :=
  ms.takeWhile fun m => (c.gethostbyname m.hostname).isSome

/-- A receive timeout in this state calls an election. -/
def Calls (n : Node) : Prop :=
  n.control = .starting ∨
    n.control = .loop ∧ (n.lastSent = some .aya ∧ n.aya ≠ none ∨
      n.lastSent = none ∧ n.lastReceived = some .answer)

instance (n : Node) : Decidable (Calls n) := by unfold Calls; infer_instance

/-- A receive timeout that calls an election reaches one higher member at most. -/
def CallsOne (c : Config) (n : Node) (i : Input) : Prop :=
  i = .timeout → Calls n → (reached c (higher c)).length ≤ 1

instance (c : Config) (n : Node) (i : Input) : Decidable (CallsOne c n i) := by
  unfold CallsOne; infer_instance

variable {c : Config} {n : Node} {i : Input} {as : List Input} {es fs : List NodeEffect}
  {k : MsgType} {vc : VClock} {counter d d' : ℕ} {ms : List GroupMem} {m : GroupMem}
  {src : SockAddr} {msg : Msg}

theorem electIds_append : electIds (es ++ fs) = electIds es ++ electIds fs := List.filterMap_append

theorem mem_electIds {a : ℕ} :
    a ∈ electIds es ↔ ∃ dst p, .send dst p ∈ es ∧ p.msgID = .elect ∧ p.electionID = a := by
  simp only [electIds, List.mem_filterMap]
  constructor
  · rintro ⟨e, he, ha⟩
    cases e with
    | send dst p =>
        simp only [Option.ite_none_right_eq_some, Option.some.injEq] at ha
        exact ⟨dst, p, he, ha⟩
    | _ => simp at ha
  · rintro ⟨dst, p, hp, hk, rfl⟩
    exact ⟨_, hp, by simp [hk]⟩

/-! ## Drawing ids -/

/-- The effects draw `d` ids, in order, and use each in one ELECT. -/
structure Draws (c : Config) (counter d : ℕ) (es : List NodeEffect) : Prop where
  ids : electIds es = List.iterate nextElection counter d
  drawn : ∀ n : Node, n.counter = counter → ((process c).exec n es).counter = nextElection^[d] counter

theorem Draws.nil : Draws c counter 0 [] where
  ids := rfl
  drawn _ hn := hn

theorem Draws.append (h : Draws c counter d es) (h' : Draws c (nextElection^[d] counter) d' fs) :
    Draws c counter (d + d') (es ++ fs) where
  ids := by rw [electIds_append, h.ids, h'.ids, List.iterate_add]
  drawn n hn := by
    rw [Process.exec_append, h'.drawn _ (h.drawn n hn), Nat.add_comm, Function.iterate_add_apply]

theorem counter_exec (hcounter : ∀ x, .counter x ∉ es) : ((process c).exec n es).counter = n.counter := by
  refine Process.exec_unchanged (fun n : Node => n.counter) fun n' e he => ?_
  cases e with
  | counter x => exact absurd he (hcounter x)
  | control k =>
      cases k with
      | _ => rfl
  | _ => rfl

/-- Effects that leave the counter and send no ELECT. -/
theorem Draws.none (hids : electIds es = []) (hcounter : ∀ x, .counter x ∉ es) :
    Draws c counter 0 es where
  ids := hids
  drawn _ hn := (counter_exec hcounter).trans hn

/-- One ELECT of a call. -/
theorem draws_elect (vc : VClock) (dst : SockAddr) : Draws c counter 1
    (sendMsg c vc dst .elect counter (some counter) ++ [.lastSent (some .elect)]) where
  ids := rfl
  drawn _ _ := rfl

/-- **A call draws one id for each member it reaches.** -/
theorem draws_sendLoop :
    Draws c counter (reached c ms).length (sendLoop c .elect none vc counter ms) := by
  induction ms generalizing vc counter with
  | nil => exact .nil
  | cons m ms ih =>
      unfold sendLoop
      cases haddr : c.gethostbyname m.hostname with
      | none =>
          -- a name that does not resolve ends the program
          have hreached : reached c (m :: ms) = [] := by simp [reached, haddr]
          rw [hreached]
          exact .none rfl (by simp)
      | some addr =>
          have hreached : reached c (m :: ms) = m :: reached c ms := by simp [reached, haddr]
          rw [hreached, List.length_cons, Nat.add_comm]
          exact (draws_elect vc _).append ih

theorem draws_startupLoop : Draws c counter (reached c (ms.filter fun m => c.port < m.portno)).length
    (startupLoop c vc counter ms) := by
  induction ms generalizing vc counter with
  | nil => exact .nil
  | cons m ms ih =>
      -- what every member resets draws nothing
      have hreset : Draws c counter 0 [.lastReceived (some .elect), .lastSent .none] :=
        .none rfl (by simp)
      unfold startupLoop
      rw [← Nat.zero_add (List.length _)]
      refine hreset.append ?_
      by_cases hm : c.port < m.portno
      · rw [if_pos hm, List.filter_cons_of_pos (by simpa using hm)]
        cases haddr : c.gethostbyname m.hostname with
        | none =>
            have hreached : reached c (m :: ms.filter fun m => c.port < m.portno) = [] := by
              simp [reached, haddr]
            rw [hreached]
            exact .none rfl (by simp)
        | some addr =>
            have hreached : reached c (m :: ms.filter fun m => c.port < m.portno) =
                m :: reached c (ms.filter fun m => c.port < m.portno) := by
              simp [reached, haddr]
            rw [hreached, List.length_cons, Nat.add_comm]
            exact (draws_elect vc _).append ih
      · -- lower members are passed over
        rw [if_neg hm, List.filter_cons_of_neg (by simpa using hm)]
        exact ih

theorem counter_not_mem_sendLoop {x id : ℕ} : .counter x ∉ sendLoop c k (some id) vc counter ms := by
  induction ms generalizing vc counter with
  | nil => simp [sendLoop]
  | cons m ms ih =>
      unfold sendLoop
      cases c.gethostbyname m.hostname with
      | none => simp
      | some addr => simp [sendMsg, ih]

theorem draws_coord {id : ℕ} : Draws c counter 0 (sendLoop c .coord (some id) vc d ms) := by
  refine .none ?_ fun x => counter_not_mem_sendLoop
  refine List.eq_nil_iff_forall_not_mem.mpr fun a ha => ?_
  obtain ⟨dst, p, hp, hk, -⟩ := mem_electIds.mp ha
  rw [(of_send_mem_sendLoop hp).1] at hk
  exact absurd hk (by simp)

/-- A receive timeout draws an id for each higher member it reaches, if it calls an election. -/
theorem draws_timeout (c : Config) (n : Node) : Draws c n.counter
    (if Calls n then (reached c (higher c)).length else 0) (handle c n .timeout) := by
  cases hc : n.control with
  | starting =>
      -- the first receive timeout
      have hcalls : Calls n := Or.inl hc
      have hloop : Draws c n.counter 0 [.control .loop] := .none rfl (by simp)
      rw [if_pos hcalls, ← Nat.zero_add (List.length _)]
      simp only [handle, hc]
      exact hloop.append draws_startupLoop
  | exited =>
      have hcalls : ¬ Calls n := by simp [Calls, hc]
      rw [if_neg hcalls]
      simp only [handle, hc]
      exact .nil
  | loop =>
      simp only [handle, hc, receiveTimeout]
      cases hs : n.lastSent with
      | none =>
          cases hr : n.lastReceived with
          | none =>
              rw [if_neg (by simp [Calls, hc, hs, hr])]
              exact .nil
          | some k =>
              cases k with
              | answer =>
                  -- the retry after an ANSWER
                  rw [if_pos (by simp [Calls, hc, hs, hr])]
                  exact draws_sendLoop
              | elect =>
                  rw [if_neg (by simp [Calls, hc, hs, hr])]
                  exact draws_coord
              | _ =>
                  rw [if_neg (by simp [Calls, hc, hs, hr])]
                  exact .nil
      | some k =>
          cases k with
          | elect =>
              rw [if_neg (by simp [Calls, hc, hs])]
              exact draws_coord
          | aya =>
              cases ha : n.aya with
              | none =>
                  rw [if_neg (by simp [Calls, hc, hs, ha])]
                  exact .none rfl (by simp)
              | some target =>
                  -- the thread is cancelled before the call
                  have hcancel : Draws c n.counter 0 [.cancelThread] := .none rfl (by simp)
                  rw [if_pos (by simp [Calls, hc, hs, ha]), ← Nat.zero_add (List.length _)]
                  exact hcancel.append draws_sendLoop
          | _ =>
              rw [if_neg (by simp [Calls, hc, hs])]
              exact .nil

/-! ## Ids that are kept -/

theorem id_of_send_mem_sendLoop {dst : SockAddr} {p : Msg} {id : ℕ}
    (h : .send dst p ∈ sendLoop c k (some id) vc counter ms) : p.electionID = id := by
  induction ms generalizing vc counter with
  | nil => simp [sendLoop] at h
  | cons m ms ih =>
      unfold sendLoop at h
      cases haddr : c.gethostbyname m.hostname with
      | none => simp [haddr] at h
      | some addr =>
          simp only [haddr, List.mem_append] at h
          rcases h with (h | h) | h
          · obtain ⟨-, rfl⟩ := send_mem_sendMsg.mp h
            rfl
          · simp at h
          · exact ih h

/-- The answer to an ELECT and the ELECTs that forward it have its id. -/
theorem id_of_send_mem_receive {n' : Node} {dst : SockAddr} {p : Msg}
    (h : .send dst p ∈ receive c n' src msg) (hp : p.msgID = .answer ∨ p.msgID = .elect) :
    msg.msgID = .elect ∧ p.electionID = msg.electionID := by
  unfold receive at h
  rcases List.mem_append.mp h with h | h
  · simp at h
  unfold handleMsg at h
  cases hk : msg.msgID with
  | elect =>
      refine ⟨rfl, ?_⟩
      simp only [hk, List.mem_append] at h
      rcases h with (h | h) | h
      · -- the ANSWER
        obtain ⟨-, rfl⟩ := send_mem_sendMsg.mp h
        rfl
      · simp at h
      · split at h
        · simp at h
        · simp only [List.mem_append] at h
          rcases h with (h | h) | h
          · simp at h
          · -- the forwarded ELECTs
            exact id_of_send_mem_sendLoop h
          · split at h
            · rw [(of_send_mem_sendLoop h).1] at hp
              exact absurd hp (by simp)
            · simp at h
  | answer =>
      simp only [hk] at h
      split at h
      · simp at h
      · simp at h
  | coord =>
      simp only [hk] at h
      split at h
      · simp at h
      · simp at h
  | aya =>
      simp only [hk, List.mem_append] at h
      rcases h with h | h
      · simp at h
      · obtain ⟨-, rfl⟩ := send_mem_sendMsg.mp h
        exact absurd hp (by simp)
  | iaa => simp [hk] at h
  | other id => simp [hk] at h

/-- **Forwarding and answering keep the id**, in every state. -/
theorem keepsId (c : Config) (n : Node) (i : Input) : KeepsId c n i := by
  intro dst p h hp
  cases i with
  | message src msg =>
      have hkind : p.msgID = .answer ∨ p.msgID = .elect := hp.imp_right fun hp => hp.1
      refine ⟨src, msg, rfl, ?_⟩
      simp only [handle] at h
      cases hc : n.control with
      | starting =>
          simp only [hc] at h
          rcases List.mem_append.mp h with h | h
          · simp at h
          · exact id_of_send_mem_receive h hkind
      | loop =>
          simp only [hc] at h
          exact id_of_send_mem_receive h hkind
      | exited => simp [hc] at h
  | timeout =>
      -- a timeout answers nothing
      have hanswer : p.msgID = .answer := hp.resolve_right fun hp => hp.2 rfl
      have hsends := sends_handle h
      rw [hanswer] at hsends
      cases hsends with
      | answer hi _ => exact absurd hi (by simp)
  | thread =>
      simp only [handle, threadIteration] at h
      split at h
      · split at h
        · simp at h
        · rcases List.mem_cons.mp h with h | h
          · simp at h
          · obtain ⟨-, rfl⟩ := send_mem_sendMsg.mp h
            exact absurd hp (by simp)
      · simp at h

theorem counter_not_mem_receive {n' : Node} {x : ℕ} : .counter x ∉ receive c n' src msg := by
  unfold receive handleMsg
  cases msg.msgID with
  | elect =>
      simp only [List.mem_append]
      rintro (h | (h | h) | h)
      · simp at h
      · simp [sendMsg] at h
      · simp at h
      · split at h
        · simp at h
        · simp only [List.mem_append] at h
          rcases h with (h | h) | h
          · simp at h
          · exact counter_not_mem_sendLoop h
          · split at h
            · exact counter_not_mem_sendLoop h
            · simp at h
  | answer =>
      simp only
      split
      · simp
      · simp
  | coord =>
      simp only
      split
      · simp
      · simp
  | aya => simp [sendMsg]
  | iaa => simp
  | other id => simp

/-- Only a receive timeout draws ids. -/
theorem counter_of_ne_timeout (hi : i ≠ .timeout) :
    ((process c).atomic.next n i).counter = n.counter := by
  refine counter_exec fun x => ?_
  cases i with
  | message src msg =>
      show .counter x ∉ handle c n (.message src msg)
      simp only [handle]
      cases n.control with
      | starting => simp [counter_not_mem_receive]
      | loop => exact counter_not_mem_receive
      | exited => simp
  | timeout => exact absurd rfl hi
  | thread =>
      show .counter x ∉ threadIteration c n
      unfold threadIteration
      split
      · split
        · simp
        · simp [sendMsg]
      · simp

/-! ## The ids of a run -/

/-- **Run lemma**: the ids of a node's own elections are consecutive. -/
theorem flatten_ownElections (c : Config) (n : Node) (as : List Input) :
    (ownElections c n as).flatten =
      List.iterate nextElection n.counter (ownElections c n as).flatten.length := by
  induction as generalizing n with
  | nil => rfl
  | cons i as ih =>
      by_cases hi : i = .timeout
      · -- the ids of this timeout come first, and the counter goes on behind them
        subst hi
        obtain ⟨hids, hdrawn⟩ := draws_timeout c n
        have hnext : ((process c).atomic.next n .timeout).counter =
            nextElection^[(electIds (handle c n .timeout)).length] n.counter := by
          rw [hids, List.length_iterate]
          exact hdrawn n rfl
        have hstep : (ownElections c n (.timeout :: as)).flatten = electIds (handle c n .timeout) ++
            (ownElections c ((process c).atomic.next n .timeout) as).flatten := by
          by_cases hnone : electIds (handle c n .timeout) = []
          · simp [ownElections, hnone]
          · simp [ownElections, hnone]
        rw [hstep, List.length_append, List.iterate_add, ← hnext, ← ih]
        congr 1
        rw [hids, List.length_iterate]
      · -- no other input draws an id
        have hstep : ownElections c n (i :: as) = ownElections c ((process c).atomic.next n i) as := by
          simp [ownElections, hi]
        rw [hstep, ← counter_of_ne_timeout (c := c) (n := n) hi]
        exact ih _

/-- Every one of these elections draws its ids in a row. -/
theorem ids_of_mem_ownElections {ids : List ℕ} (h : ids ∈ ownElections c n as) :
    ∃ counter d, ids = List.iterate nextElection counter d := by
  induction as generalizing n with
  | nil => simp [ownElections] at h
  | cons i as ih =>
      rcases List.mem_append.mp h with h | h
      · split at h
        · rename_i hi
          obtain ⟨rfl, -⟩ := hi
          rw [List.mem_singleton.mp h]
          exact ⟨_, _, (draws_timeout c n).ids⟩
        · simp at h
      · exact ih h

theorem iterate_nextElection (j : ℕ) : nextElection^[j] 1 = (1 + j) % 2 ^ 32 := by
  induction j with
  | zero => rfl
  | succ j ih =>
      rw [Function.iterate_succ_apply', ih, nextElection]
      omega

/-- Fewer than 2 ^ 32 ids are all different. -/
theorem nodup_iterate (hd : d < 2 ^ 32) : (List.iterate nextElection 1 d).Nodup := by
  rw [← List.range_map_iterate]
  refine List.Nodup.map_on (fun x hx y hy hxy => ?_) List.nodup_range
  have hx := List.mem_range.mp hx
  have hy := List.mem_range.mp hy
  rw [iterate_nextElection, iterate_nextElection] at hxy
  omega

/-- Ids in a row are equal only if there is at most one. -/
theorem oneId_iterate :
    (∀ a ∈ List.iterate nextElection counter d, ∀ b ∈ List.iterate nextElection counter d, a = b) ↔
      d ≤ 1 := by
  constructor
  · intro hone
    by_contra hd
    obtain ⟨d, rfl⟩ : ∃ d', d = d' + 2 := ⟨d - 2, by omega⟩
    have heq : counter = nextElection counter := hone _ (by simp [List.iterate]) _ (by simp [List.iterate])
    unfold nextElection at heq
    omega
  · intro hd
    rcases Nat.le_one_iff_eq_zero_or_eq_one.mp hd with rfl | rfl
    · simp
    · simp

/-- All elections of a run have one id exactly when every call reaches one member at most. -/
theorem oneId_iff (c : Config) (n : Node) (as : List Input) :
    (∀ ids ∈ ownElections c n as, ∀ a ∈ ids, ∀ b ∈ ids, a = b) ↔
      (process c).atomic.Along (CallsOne c) n as := by
  induction as generalizing n with
  | nil => simp [ownElections]
  | cons i as ih =>
      refine Iff.trans List.forall_mem_append (and_congr ?_ (ih _))
      by_cases hi : i = .timeout
      · subst hi
        obtain ⟨hids, -⟩ := draws_timeout c n
        -- an empty list of ids is no election, and has no two different ids
        have hstep : (∀ ids ∈ (if Input.timeout = .timeout ∧ electIds (handle c n .timeout) ≠ [] then
            [electIds (handle c n .timeout)] else []), ∀ a ∈ ids, ∀ b ∈ ids, a = b) ↔
              ∀ a ∈ electIds (handle c n .timeout), ∀ b ∈ electIds (handle c n .timeout), a = b := by
          by_cases hnone : electIds (handle c n .timeout) = []
          · simp [hnone]
          · simp [hnone]
        rw [hstep, hids, oneId_iterate]
        by_cases hcalls : Calls n
        · simp [CallsOne, hcalls]
        · simp [CallsOne, hcalls]
      · simp [CallsOne, hi]

/-- **When election ids are lawful**: in a run with fewer than 2 ^ 32 elections the ids are what
    they are meant to be exactly when no election the node starts reaches two higher members. -/
theorem lawfulIds_iff (c : Config) (as : List Input)
    (hfew : (ownElections c (start c) as).length < 2 ^ 32) :
    LawfulIds c as ↔ (process c).atomic.Along (CallsOne c) (start c) as := by
  constructor
  · intro hlawful
    exact (oneId_iff c (start c) as).mp hlawful.oneId
  · intro hcalls
    have hone := (oneId_iff c (start c) as).mpr hcalls
    -- with one id each there are as many ids as elections
    have hlength : (ownElections c (start c) as).flatten.length ≤ (ownElections c (start c) as).length := by
      rw [List.length_flatten]
      refine (List.sum_le_card_nsmul _ 1 fun d hd => ?_).trans (by simp)
      obtain ⟨ids, hids, rfl⟩ := List.mem_map.mp hd
      obtain ⟨counter, d, rfl⟩ := ids_of_mem_ownElections hids
      rw [List.length_iterate]
      exact oneId_iterate.mp (hone _ hids)
    have hnodup : (ownElections c (start c) as).flatten.Nodup := by
      rw [flatten_ownElections]
      exact nodup_iterate (hlength.trans_lt hfew)
    refine ⟨hone, (List.nodup_flatten.mp hnodup).2, ?_⟩
    exact Machine.along_iff_forall_prefix.mpr fun _ _ _ => keepsId c _ _

/-- Node 2 asks one member: it starts, is answered, and retries. -/
theorem lawfulIds_iff_ofThree :
    LawfulIds (ofThree 2) [.timeout, fromPort 3 .answer, .timeout] ↔
      (process (ofThree 2)).atomic.Along (CallsOne (ofThree 2)) (start (ofThree 2))
        [.timeout, fromPort 3 .answer, .timeout] :=
  lawfulIds_iff (ofThree 2) _ (by decide +kernel)

/-- Node 1 asks nodes 2 and 3 with the ids 1 and 2 in its first election. -/
theorem not_lawfulIds :
    (process (ofThree 1)).atomic.Along (accepts (ofThree 1)) (start (ofThree 1)) [.timeout] ∧
      (ownElections (ofThree 1) (start (ofThree 1)) [.timeout]).length < 2 ^ 32 ∧
      ¬ LawfulIds (ofThree 1) [.timeout] := by
  refine ⟨by decide +kernel, by decide +kernel, fun h => ?_⟩
  have hids : [1, 2] ∈ ownElections (ofThree 1) (start (ofThree 1)) [.timeout] := by decide +kernel
  exact absurd (h.oneId _ hids 1 (by simp) 2 (by simp)) (by decide)

end Node

end DistributedSystem.Bully
