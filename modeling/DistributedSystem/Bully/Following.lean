import DistributedSystem.Bully.Sends

/-!
# Which coordinator a node follows

The address a node sends AYA to is the sender of the COORD that found no AYA thread
running. A later COORD leaves the thread as it is, so the node follows the sender of the
latest COORD as long as the COORDs that arrive while the thread runs come from its target.
-/

namespace DistributedSystem.Bully

open DistributedSystem.Library

namespace Node

/-- The sender of the latest COORD, after an input. -/
def watchCoord : Node → Input → Option SockAddr → Option SockAddr
  | _, .message src m, last => if m.msgID = .coord then some src else last
  | _, _, last => last

/-- The runs of a node, with the sender of the latest COORD it has processed. -/
def heeding (c : Config) : Machine (Node × Option SockAddr) Input :=
  (process c).atomic.watch watchCoord

/-- If the AYA thread runs, its messages go to the sender of the latest COORD. -/
def FollowsCoord (x : Node × Option SockAddr) : Prop :=
  ∀ target, x.1.aya = some target → x.2 = some target

/-- A COORD that arrives while the AYA thread runs comes from its target. -/
def CoordFromTarget (n : Node) (i : Input) : Prop :=
  ∀ target src m, n.aya = some target → i = .message src m → m.msgID = .coord → src = target

variable {c : Config} {n : Node} {last : Option SockAddr} {i : Input} {es : List NodeEffect}
  {as : List Input} {src target : SockAddr} {m : Msg}

/-! ## What changes the target -/

/-- Without `pthread_create` the thread keeps its target or ends. -/
theorem aya_exec (hes : ∀ t, .startThread t ∉ es) :
    ((process c).exec n es).aya = n.aya ∨ ((process c).exec n es).aya = none := by
  refine Process.exec_invariant (I := fun n' : Node => n'.aya = n.aya ∨ n'.aya = none)
    (Or.inl rfl) fun n' e he hn' => ?_
  cases e with
  | startThread t => exact absurd he (hes t)
  | cancelThread => exact Or.inr rfl
  | control k =>
      cases k with
      | exited => exact Or.inr rfl
      | starting => exact hn'
      | loop => exact hn'
  | _ => exact hn'

theorem startThread_not_mem_sendLoop {k : MsgType} {id : Option ℕ} {vc : VClock} {counter : ℕ}
    {ms : List GroupMem} : .startThread target ∉ sendLoop c k id vc counter ms := by
  induction ms generalizing vc counter with
  | nil => simp [sendLoop]
  | cons m ms ih =>
      unfold sendLoop
      cases c.gethostbyname m.hostname with
      | none => simp
      | some addr =>
          simp [sendMsg, ih]

theorem startThread_not_mem_startupLoop {vc : VClock} {counter : ℕ} {ms : List GroupMem} :
    .startThread target ∉ startupLoop c vc counter ms := by
  induction ms generalizing vc counter with
  | nil => simp [startupLoop]
  | cons m ms ih =>
      unfold startupLoop
      by_cases hm : c.port < m.portno
      · cases haddr : c.gethostbyname m.hostname with
        | none => simp [hm]
        | some addr => simp [hm, sendMsg, ih]
      · simp [hm, ih]

theorem startThread_not_mem_receiveTimeout : .startThread target ∉ receiveTimeout c n := by
  unfold receiveTimeout
  split
  · exact startThread_not_mem_sendLoop
  · split
    · simp [startThread_not_mem_sendLoop]
    · simp
  · split
    · exact startThread_not_mem_sendLoop
    · exact startThread_not_mem_sendLoop
    · simp
  · simp

theorem startThread_not_mem_handleMsg {vc : VClock} (hk : m.msgID ≠ .coord) :
    .startThread target ∉ handleMsg c n vc src m := by
  unfold handleMsg
  cases h : m.msgID with
  | elect =>
      simp only [List.mem_append]
      rintro ((hsend | hset) | hloop)
      · simp [sendMsg] at hsend
      · simp at hset
      · split at hloop
        · simp at hloop
        · rcases List.mem_append.mp hloop with hloop | hloop
          · rcases List.mem_append.mp hloop with hloop | hloop
            · simp at hloop
            · exact startThread_not_mem_sendLoop hloop
          · split at hloop
            · exact startThread_not_mem_sendLoop hloop
            · simp at hloop
  | answer =>
      simp only
      split
      · simp
      · simp
  | coord => exact absurd h hk
  | aya => simp [sendMsg]
  | iaa => simp
  | other id => simp

/-- Only a COORD starts a thread. -/
theorem startThread_not_mem_handle (hk : ∀ src m, i = .message src m → m.msgID ≠ .coord) :
    .startThread target ∉ handle c n i := by
  cases i with
  | message src m =>
      have hmsg := hk src m rfl
      unfold handle
      cases n.control with
      | starting => simp [receive, startThread_not_mem_handleMsg hmsg]
      | loop => simp [receive, startThread_not_mem_handleMsg hmsg]
      | exited => simp
  | timeout =>
      unfold handle
      cases n.control with
      | starting => simp [startThread_not_mem_startupLoop]
      | loop => exact startThread_not_mem_receiveTimeout
      | exited => simp
  | thread =>
      show .startThread target ∉ threadIteration c n
      unfold threadIteration
      split
      · split
        · simp
        · simp [sendMsg]
      · simp

/-- A COORD starts the thread for its sender, if none runs. -/
theorem aya_coord (hcontrol : n.control ≠ .exited) (hk : m.msgID = .coord) :
    ((process c).exec n (handle c n (.message src m))).aya =
      if n.aya = none then some src else n.aya := by
  have hreceive : ∀ n' n'' : Node, n'.aya = n.aya → n''.aya = n.aya →
      ((process c).exec n' (receive c n'' src m)).aya = if n.aya = none then some src else n.aya := by
    intro n' n'' h' h''
    simp only [receive, handleMsg, hk, h'']
    split
    · rfl
    · exact h'
  cases hc : n.control with
  | starting =>
      simp only [handle, hc, Process.exec_append]
      exact hreceive _ _ rfl rfl
  | loop =>
      simp only [handle, hc]
      exact hreceive _ _ rfl rfl
  | exited => exact absurd hc hcontrol

/-- A target is the old one or the sender of a COORD. -/
theorem target_of_handle (htarget : ((process c).exec n (handle c n i)).aya = some target) :
    n.aya = some target ∨ ∃ m, i = .message target m ∧ m.msgID = .coord := by
  by_cases hcoord : ∃ src m, i = .message src m ∧ m.msgID = .coord
  · obtain ⟨src, m, rfl, hk⟩ := hcoord
    by_cases hcontrol : n.control = .exited
    · simp only [handle, hcontrol, Process.exec_nil] at htarget
      exact Or.inl htarget
    · rw [aya_coord hcontrol hk] at htarget
      split at htarget
      · cases htarget
        exact Or.inr ⟨m, rfl, hk⟩
      · exact Or.inl htarget
  · have hk : ∀ src m, i = .message src m → m.msgID ≠ .coord := by
      intro src m hi hcoord'
      exact hcoord ⟨src, m, hi, hcoord'⟩
    rcases aya_exec (n := n) fun t => startThread_not_mem_handle (c := c) hk with hsame | hnone
    · exact Or.inl (hsame.symm.trans htarget)
    · exact absurd (hnone.symm.trans htarget) (by simp)

/-! ## The law -/

/-- **Step lemma**: a COORD from the target keeps the node on the latest coordinator. -/
theorem followsCoord_step (h : FollowsCoord (n, last)) (haccepts : accepts c n i)
    (hfrom : CoordFromTarget n i) : FollowsCoord ((heeding c).next (n, last) i) := by
  intro target htarget
  change ((process c).exec n (handle c n i)).aya = some target at htarget
  show watchCoord n i last = some target
  -- COORD sets the target only where there is none
  by_cases hcoord : ∃ src m, i = .message src m ∧ m.msgID = .coord
  · obtain ⟨src, m, rfl, hk⟩ := hcoord
    rw [aya_coord haccepts hk] at htarget
    show (if m.msgID = .coord then some src else last) = some target
    rw [if_pos hk]
    split at htarget
    · exact htarget
    · rw [hfrom target src m htarget rfl hk]
  · -- no other input changes what was heard last
    have hlast : watchCoord n i last = last := by
      cases i with
      | message src m => exact if_neg fun hk => hcoord ⟨src, m, rfl, hk⟩
      | _ => rfl
    rcases target_of_handle htarget with hold | ⟨m, hi, hk⟩
    · exact hlast.trans (h target hold)
    · exact absurd ⟨target, m, hi, hk⟩ hcoord

/-- After a COORD from somebody else the thread still sends to its old target. -/
theorem not_followsCoord_step (haccepts : accepts c n i) (hother : ¬ CoordFromTarget n i) :
    ¬ FollowsCoord ((heeding c).next (n, last) i) := by
  unfold CoordFromTarget at hother
  push Not at hother
  obtain ⟨target, src, m, htarget, rfl, hk, hne⟩ := hother
  intro hfollows
  have haya : ((process c).exec n (handle c n (.message src m))).aya = some target := by
    rw [aya_coord haccepts hk, htarget]
    rfl
  have hlast : (if m.msgID = .coord then some src else last) = some target := hfollows target haya
  rw [if_pos hk] at hlast
  exact hne (Option.some.inj hlast)

/-- **Following the current coordinator**: in all states of a run the AYA messages go to the
    sender of the latest COORD, exactly when every COORD that arrives while the AYA thread
    runs comes from the target of the thread. -/
theorem followsCoord_iff (c : Config) (as : List Input)
    (hrun : (process c).atomic.Along (accepts c) (start c) as) :
    (∀ bs, bs <+: as → FollowsCoord ((heeding c).after (start c, none) bs)) ↔
      (process c).atomic.Along CoordFromTarget (start c) as := by
  have hfst : ∀ bs, ((heeding c).after (start c, none) bs).1 =
      (process c).atomic.after (start c) bs := fun bs => Machine.watch_after_fst bs
  constructor
  · intro hfollows
    refine Machine.along_iff_forall_prefix.mpr fun bs i hbs => ?_
    -- a COORD of another node would be heard, and the target kept
    by_contra hother
    have haccepts := Machine.along_iff_forall_prefix.mp hrun bs i hbs
    rw [← hfst bs] at hother haccepts
    have hnext := hfollows (bs ++ [i]) hbs
    rw [Machine.after_append] at hnext
    exact not_followsCoord_step haccepts hother hnext
  · intro hfrom bs hbs
    obtain ⟨cs, rfl⟩ := hbs
    -- the induction is on the part of the run before the state
    have hall : (heeding c).Along (fun x i => accepts c x.1 i ∧ CoordFromTarget x.1 i)
        (start c, none) bs :=
      Machine.along_and.mpr ⟨Machine.along_watch.mpr (Machine.along_append.mp hrun).1,
        Machine.along_watch.mpr (Machine.along_append.mp hfrom).1⟩
    refine hall.invariant (I := FollowsCoord) ?_ fun x i hx hC => ?_
    · intro target htarget
      exact absurd htarget (by simp [start])
    · exact followsCoord_step hx hC.1 hC.2

/-- Node 3 declares itself while node 1 has no thread. -/
theorem followsCoord_iff_ofThree :
    (∀ bs, bs <+: [.timeout, fromPort 3 .coord, .thread] →
      FollowsCoord ((heeding (ofThree 1)).after (start (ofThree 1), none) bs)) ↔
      (process (ofThree 1)).atomic.Along CoordFromTarget (start (ofThree 1))
        [.timeout, fromPort 3 .coord, .thread] :=
  followsCoord_iff (ofThree 1) _ (by decide +kernel)

/-- Node 2 declares itself, then node 3; node 1 goes on asking node 2. -/
theorem aya_to_former_coord :
    (process (ofThree 1)).atomic.Along (accepts (ofThree 1)) (start (ofThree 1))
        [.timeout, fromPort 2 .coord, .thread, fromPort 3 .coord, .thread] ∧
      (let x := (heeding (ofThree 1)).after (start (ofThree 1), none)
        [.timeout, fromPort 2 .coord, .thread, fromPort 3 .coord]
      x.1.aya = some ⟨1, 2⟩ ∧ x.2 = some ⟨1, 3⟩ ∧ ¬ FollowsCoord x ∧
        ∃ p, .send ⟨1, 2⟩ p ∈ handle (ofThree 1) x.1 .thread ∧ p.msgID = .aya) := by
  refine ⟨by decide +kernel, by decide +kernel, by decide +kernel, fun h => ?_, ?_⟩
  · have htarget := h ⟨1, 2⟩ (by decide +kernel)
    revert htarget
    decide +kernel
  · exact ⟨_, List.mem_cons_of_mem _ (List.mem_cons_of_mem _ List.mem_cons_self), rfl⟩

end Node

end DistributedSystem.Bully
