import DistributedSystem.Bully.Sends

/-!
# When a node suspects its coordinator

A node in time: the receive timeout expires `timeoutValue` seconds after the wait for a
datagram began, and the AYA thread sends an AYA, sleeps for a random interval, and sends
the next one. An IAA ends the wait and changes nothing else, so `lastSent` is still AYA
when the next timeout comes. Whether it comes before the next AYA depends on `timeoutValue`
and `AYATime` only.
-/

namespace DistributedSystem.Bully

open DistributedSystem.Library

/-- The clock of a host: ticks in a second, and by how many ticks a timeout or the end of a
    sleep may be late, less than a second. -/
structure Timing where
  hz : ℕ
  slack : ℕ
  slack_lt : slack < hz

/-- A clock that ticks once a second and is never late. -/
def Timing.seconds : Timing := ⟨1, 0, by decide⟩

/-- A node in time. `latestAya` and `answered` are ghosts: where the latest AYA went, and
    whether an IAA from there has been processed since. -/
structure TimedNode where
  node : Node
  now : ℕ := 0
  /-- when the wait for a datagram began -/
  waitSince : ℕ := 0
  /-- when the sleep of the AYA thread ends -/
  wakeAt : ℕ := 0
  latestAya : Option SockAddr := none
  answered : Bool := false

/-- What happens at a node in time; `rn` is the last number `random` gave the thread. -/
inductive TimedAct where
  | pass (ticks : ℕ)
  | message (src : SockAddr) (m : Msg)
  | timeout
  | thread (rn : ℕ)
  deriving DecidableEq

namespace TimedNode

open Node

/-- Where the effects send an AYA. -/
def sentAya (es : List NodeEffect) : Option SockAddr :=
  es.findSome? fun
    | .send dst m => if m.msgID = .aya then some dst else none
    | _ => none

/-- A step of the node at this moment. -/
def input (c : Config) (x : TimedNode) (i : Input) : TimedNode :=
  let y := { x with node := (process c).atomic.next x.node i }
  match sentAya (handle c x.node i) with
  | some dst => { y with latestAya := some dst, answered := false }
  | none =>
      match i with
      | .message src m =>
          { y with answered := x.answered ∨ (m.msgID = .iaa ∧ x.latestAya = some src) }
      | _ => y

/-- A step of the main thread, which then waits again. A new AYA thread is about to send. -/
def mainStep (c : Config) (x : TimedNode) (i : Input) : TimedNode :=
  { x.input c i with
    waitSince := x.now
    wakeAt := if x.node.aya = none then x.now else x.wakeAt }

def next (c : Config) (t : Timing) (x : TimedNode) : TimedAct → TimedNode
  | .pass ticks => { x with now := x.now + ticks }
  | .message src m => x.mainStep c (.message src m)
  | .timeout => x.mainStep c .timeout
  | .thread rn => { x.input c .thread with wakeAt := x.now + (AYARate c rn).getD 0 * t.hz }

/-- Time does not pass an end of a wait by more than the slack. -/
def enabled (c : Config) (t : Timing) (x : TimedNode) : TimedAct → Prop
  | .pass ticks =>
      (x.node.control ≠ .exited → c.timeoutValue ≠ 0 →
        x.now + ticks ≤ x.waitSince + c.timeoutValue * t.hz + t.slack) ∧
      (x.node.aya ≠ none → x.now + ticks ≤ x.wakeAt + t.slack)
  | .message src m => accepts c x.node (.message src m)
  | .timeout => accepts c x.node .timeout ∧ x.waitSince + c.timeoutValue * t.hz ≤ x.now
  | .thread rn => accepts c x.node .thread ∧ rn < 2 ^ 31 ∧ x.wakeAt ≤ x.now

instance (c : Config) (t : Timing) (x : TimedNode) : ∀ a, Decidable (enabled c t x a)
  | .pass _ => inferInstanceAs (Decidable (_ ∧ _))
  | .message src m => inferInstanceAs (Decidable (accepts c x.node (.message src m)))
  | .timeout | .thread _ => inferInstanceAs (Decidable (_ ∧ _))

/-- The runs of a node in time. -/
def machine (c : Config) (t : Timing) : Machine TimedNode TimedAct where
  enabled := enabled c t
  next := next c t

def start (c : Config) : TimedNode where
  node := Node.start c

/-- The branch for AYA is entered only if the latest AYA has not been answered. -/
def NoFalseSuspicion (x : TimedNode) (a : TimedAct) : Prop :=
  a = .timeout → x.node.control = .loop → x.node.lastSent = some .aya → x.answered = false

instance (x : TimedNode) (a : TimedAct) : Decidable (NoFalseSuspicion x a) := by
  unfold NoFalseSuspicion; infer_instance

end TimedNode

/-! ## AYA in `lastSent` -/

namespace Election

variable {c : Config} {e e' : Election} {i : Node.Input}

theorem burst_lastSent_aya {k : MsgType} {ms : List GroupMem} (hk : k ≠ .aya)
    (h : burst c k ms e = some e') (hs : e'.lastSent = some .aya) : ms = [] ∧ e' = e := by
  unfold burst at h
  split at h
  · split at h
    · rename_i hms
      exact ⟨hms, (Option.some.inj h).symm⟩
    · cases h
      exact absurd (Option.some.inj hs) hk
  · exact absurd h (by simp)

/-- A message leaves AYA in `lastSent` only if it was there before. -/
theorem receive_lastSent_aya {src : SockAddr} {k : MsgType} (h : receive c e src k = some e')
    (hs : e'.lastSent = some .aya) : e.lastSent = some .aya ∧ (e'.aya = none → e.aya = none) := by
  unfold receive at h
  cases k with
  | elect =>
      simp only at h
      -- the answer is given, and then a call or a declaration sets lastSent
      split at h
      · rename_i helect
        cases h
        exact absurd (helect.symm.trans hs) (by simp)
      · split at h
        · obtain ⟨-, rfl⟩ := burst_lastSent_aya (by simp) h hs
          exact absurd hs (by simp)
        · obtain ⟨-, rfl⟩ := burst_lastSent_aya (by simp) h hs
          exact absurd hs (by simp)
  | answer =>
      simp only [Option.some.injEq] at h
      subst h
      split at hs
      · exact absurd hs (by simp)
      · rename_i hne
        rw [if_neg hne]
        exact ⟨hs, id⟩
  | coord =>
      -- COORD may set a target but clears none
      simp only [Option.some.injEq] at h
      subst h
      refine ⟨hs, fun hnone => ?_⟩
      simp only at hnone
      split at hnone
      · exact absurd hnone (by simp)
      · exact hnone
  | aya =>
      cases h
      exact absurd hs (by simp)
  | iaa =>
      cases h
      exact ⟨hs, id⟩
  | other id =>
      cases h
      exact ⟨hs, fun h => h⟩

theorem timeout_lastSent_aya (h : timeout c e = some e') (hs : e'.lastSent = some .aya) :
    e.lastSent = some .aya ∧ (e'.aya = none → e.aya = none ∨ Node.higher c = []) := by
  unfold timeout at h
  split at h
  · obtain ⟨-, rfl⟩ := burst_lastSent_aya (by simp) h hs
    exact ⟨hs, Or.inl⟩
  · rename_i haya
    split at h
    · -- without higher members nothing is sent, and lastSent is still AYA
      obtain ⟨hnone, rfl⟩ := burst_lastSent_aya (by simp) h hs
      exact ⟨haya, fun _ => Or.inr hnone⟩
    · exact absurd h (by simp)
  · rename_i hzero
    split at h
    · obtain ⟨-, rfl⟩ := burst_lastSent_aya (by simp) h hs
      exact ⟨hs, Or.inl⟩
    · obtain ⟨-, rfl⟩ := burst_lastSent_aya (by simp) h hs
      exact ⟨hs, Or.inl⟩
    · cases h
      exact ⟨hs, Or.inl⟩
  · cases h
    exact ⟨hs, Or.inl⟩

theorem startup_lastSent_aya {ms : List GroupMem} (h : startup c ms e = some e')
    (hs : e'.lastSent = some .aya) : e' = e := by
  unfold startup at h
  split at h
  · cases hlast : ms.getLast? with
    | none =>
        simp only [hlast, Option.some.injEq] at h
        exact h.symm
    | some m =>
        simp only [hlast, Option.some.injEq] at h
        subst h
        simp only at hs
        split at hs
        · exact absurd hs (by simp)
        · exact absurd hs (by simp)
  · exact absurd h (by simp)

/-- AYA in `lastSent` comes from the thread, and the thread ends only in a timeout. -/
theorem lastSent_aya_next (h : next c e i = some e') (hs : e'.lastSent = some .aya) :
    (i = .thread ∧ e'.aya ≠ none ∧ Node.AYARate c 0 ≠ none) ∨
      (e.lastSent = some .aya ∧ (e'.aya = none → e.aya = none ∨ Node.higher c = [])) := by
  cases i with
  | message src m =>
      change receive c _ src m.msgID = some e' at h
      obtain ⟨hs, haya⟩ := receive_lastSent_aya h hs
      -- the first message clears lastSent
      by_cases hstarted : e.started
      · rw [if_pos hstarted] at hs haya
        exact Or.inr ⟨hs, fun hnone => Or.inl (haya hnone)⟩
      · rw [if_neg hstarted] at hs
        exact absurd hs (by simp)
  | timeout =>
      change (if e.started then timeout c e else startup c c.groupMems { e with started := true }) =
        some e' at h
      split at h
      · exact Or.inr (timeout_lastSent_aya h hs)
      · obtain rfl := startup_lastSent_aya h hs
        exact Or.inr ⟨hs, Or.inl⟩
  | thread =>
      simp only [next] at h
      split at h
      · rename_i target htarget
        split at h
        · exact absurd h (by simp)
        · rename_i hrate
          cases h
          refine Or.inl ⟨rfl, ?_, hrate⟩
          rw [htarget]
          simp
      · cases h
        exact Or.inr ⟨hs, Or.inl⟩

end Election

namespace TimedNode

open Node

variable {c : Config} {t : Timing} {x : TimedNode} {a : TimedAct} {i : Input}

/-! ## What a step does -/

@[simp] theorem input_node (c : Config) (x : TimedNode) (i : Input) :
    (x.input c i).node = (process c).atomic.next x.node i := by
  unfold input
  split
  · rfl
  · cases i <;> rfl

@[simp] theorem input_now (c : Config) (x : TimedNode) (i : Input) : (x.input c i).now = x.now := by
  unfold input
  split
  · rfl
  · cases i <;> rfl

@[simp] theorem input_waitSince (c : Config) (x : TimedNode) (i : Input) :
    (x.input c i).waitSince = x.waitSince := by
  unfold input
  split
  · rfl
  · cases i <;> rfl

/-- The thread sends an AYA to its target. -/
theorem sentAya_thread {n : Node} {target : SockAddr} (haya : n.aya = some target)
    (hrate : AYARate c 0 ≠ none) : sentAya (handle c n .thread) = some target := by
  show sentAya (threadIteration c n) = some target
  simp only [threadIteration, haya, if_neg hrate]
  rfl

/-- What leaves AYA in `lastSent`. -/
theorem lastSent_aya_step (hcontrol : x.node.control ≠ .exited)
    (hcontrol' : (x.input c i).node.control ≠ .exited)
    (hs : (x.input c i).node.lastSent = some .aya) :
    (i = .thread ∧ (x.input c i).node.aya ≠ none ∧ AYARate c 0 ≠ none) ∨
      (x.node.lastSent = some .aya ∧
        ((x.input c i).node.aya = none → x.node.aya = none ∨ higher c = [])) := by
  have hnext := election_handle (c := c) (election_eq hcontrol) i
  have hafter := election_eq hcontrol'
  rw [input_node] at hafter hs ⊢
  exact Election.lastSent_aya_next (hnext.symm.trans hafter) hs

/-- The longest interval of the thread. -/
def maxRate (c : Config) : ℕ := min (2 * c.AYATime % 2 ^ 64) (2 ^ 31) - 1

theorem AYARate_le {rn : ℕ} (hrn : rn < 2 ^ 31) : (AYARate c rn).getD 0 ≤ maxRate c := by
  unfold AYARate maxRate
  split
  · simp
  · rename_i hm
    have hlt := Nat.mod_lt rn (Nat.pos_of_ne_zero hm)
    have hle := Nat.mod_le rn (2 * c.AYATime % 2 ^ 64)
    simp only [Option.getD_some]
    omega

/-! ## The invariant -/

/-- A thread that runs sends its next AYA within the longest interval, and a node that
    waits for the answer to an AYA has a thread. -/
structure Timely (c : Config) (t : Timing) (x : TimedNode) : Prop where
  asking : x.node.control ≠ .exited → x.node.lastSent = some .aya → x.node.aya ≠ none
  due : x.node.aya ≠ none → x.now ≤ x.wakeAt + t.slack
  soon : x.node.aya ≠ none → x.wakeAt ≤ x.now + maxRate c * t.hz
  /-- the interval began before the answer to its AYA ended a wait -/
  answered : x.answered = true → x.node.aya ≠ none → x.wakeAt ≤ x.waitSince + maxRate c * t.hz

theorem asking_input (hhigher : higher c ≠ []) (h : Timely c t x) (haccepts : accepts c x.node i)
    (hcontrol : (x.input c i).node.control ≠ .exited)
    (hs : (x.input c i).node.lastSent = some .aya) : (x.input c i).node.aya ≠ none := by
  have hcontrol' := control_of_accepts haccepts
  rcases lastSent_aya_step hcontrol' hcontrol hs with ⟨-, haya, -⟩ | ⟨hold, hkeep⟩
  · exact haya
  · intro hnone
    rcases hkeep hnone with haya | hno
    · exact h.asking hcontrol' hold haya
    · exact hhigher hno

theorem timely_mainStep (hhigher : higher c ≠ []) (h : Timely c t x) (haccepts : accepts c x.node i) :
    Timely c t (x.mainStep c i) := by
  have hwake : (x.mainStep c i).wakeAt ≤ x.now + maxRate c * t.hz := by
    show (if x.node.aya = none then x.now else x.wakeAt) ≤ x.now + maxRate c * t.hz
    split
    · exact Nat.le_add_right _ _
    · rename_i haya
      exact h.soon haya
  refine ⟨asking_input hhigher h haccepts, fun _ => ?_, fun _ => ?_, fun _ _ => hwake⟩
  · show (x.input c i).now ≤ (if x.node.aya = none then x.now else x.wakeAt) + t.slack
    rw [input_now]
    split
    · exact Nat.le_add_right _ _
    · rename_i haya
      exact h.due haya
  · show (x.mainStep c i).wakeAt ≤ (x.input c i).now + maxRate c * t.hz
    rw [input_now]
    exact hwake

/-- **Step lemma** -/
theorem timely_next (hhigher : higher c ≠ []) (hrate : AYARate c 0 ≠ none) (h : Timely c t x)
    (ha : enabled c t x a) : Timely c t (next c t x a) := by
  cases a with
  | pass ticks =>
      refine ⟨h.asking, ha.2, fun haya => ?_, h.answered⟩
      exact (h.soon haya).trans (by
        show x.now + maxRate c * t.hz ≤ x.now + ticks + maxRate c * t.hz
        omega)
  | message src m => exact timely_mainStep hhigher h ha
  | timeout => exact timely_mainStep hhigher h ha.1
  | thread rn =>
      obtain ⟨haccepts, hrn, hdue⟩ := ha
      have hmax : (AYARate c rn).getD 0 * t.hz ≤ maxRate c * t.hz :=
        Nat.mul_le_mul_right _ (AYARate_le hrn)
      refine ⟨asking_input hhigher h haccepts, fun _ => ?_, fun _ => ?_, fun hanswered => ?_⟩
      · show (x.input c .thread).now ≤ x.now + (AYARate c rn).getD 0 * t.hz + t.slack
        rw [input_now]
        omega
      · show x.now + (AYARate c rn).getD 0 * t.hz ≤ (x.input c .thread).now + maxRate c * t.hz
        rw [input_now]
        omega
      · -- nobody has answered the AYA that was just sent
        obtain ⟨target, haya⟩ := Option.ne_none_iff_exists'.mp haccepts.2
        change (x.input c .thread).answered = true at hanswered
        simp [input, sentAya_thread haya hrate] at hanswered

/-! ## The law -/

/-- The parameters that exclude false suspicion: there is no timeout, or the first AYA ends
    the process, or the next AYA comes before the timeout that follows an IAA. -/
def SafeParameters (c : Config) : Prop :=
  c.timeoutValue = 0 ∨ 2 * c.AYATime % 2 ^ 64 = 0 ∨
    (higher c ≠ [] ∧ min (2 * c.AYATime % 2 ^ 64) (2 ^ 31) ≤ c.timeoutValue)

/-- With an AYA interval shorter than the receive timeout, an answered node does not time out. -/
theorem noFalseSuspicion_of_timely (hmax : maxRate c < c.timeoutValue) (h : Timely c t x)
    (ha : enabled c t x a) : NoFalseSuspicion x a := by
  rintro rfl hloop hs
  obtain ⟨-, hexpired⟩ := ha
  have haya : x.node.aya ≠ none := h.asking (by rw [hloop]; simp) hs
  rw [← Bool.not_eq_true]
  intro hanswered
  have hwake := h.answered hanswered haya
  have hdue := h.due haya
  have hlonger : (maxRate c + 1) * t.hz ≤ c.timeoutValue * t.hz := Nat.mul_le_mul_right _ hmax
  have hslack := t.slack_lt
  rw [Nat.add_mul, Nat.one_mul] at hlonger
  omega

theorem timely_start (c : Config) (t : Timing) : Timely c t (start c) := by
  refine ⟨fun _ h => ?_, fun h => ?_, fun h => ?_, fun h _ => ?_⟩
  · exact absurd h (by simp [start, Node.start])
  · exact absurd rfl h
  · exact absurd rfl h
  · exact absurd h (by simp [start])

/-- A process that the first AYA ends never has AYA in `lastSent`. -/
theorem lastSent_ne_aya (hrate : AYARate c 0 = none) {as : List TimedAct}
    (hrun : (machine c t).Along (enabled c t) (start c) as) :
    (machine c t).Along (fun x _ => x.node.control ≠ .exited → x.node.lastSent ≠ some .aya)
      (start c) as := by
  -- only the thread sets it, and there a rate of 0 ends the process
  have hinput : ∀ (x : TimedNode) i, accepts c x.node i →
      (x.node.control ≠ .exited → x.node.lastSent ≠ some .aya) →
      (x.input c i).node.control ≠ .exited → (x.input c i).node.lastSent ≠ some .aya := by
    intro x i haccepts h hcontrol hs
    have hcontrol' := control_of_accepts haccepts
    rcases lastSent_aya_step hcontrol' hcontrol hs with ⟨-, -, hsome⟩ | ⟨hold, -⟩
    · exact hsome hrate
    · exact h hcontrol' hold
  refine hrun.strengthen (I := fun x => x.node.control ≠ .exited → x.node.lastSent ≠ some .aya)
    ?_ (fun x a h ha => ?_) fun x a h _ => h
  · simp [start, Node.start]
  · cases a with
    | pass ticks => exact h
    | message src m => exact hinput x _ ha h
    | timeout => exact hinput x _ ha.1 h
    | thread rn => exact hinput x _ ha.1 h

theorem noFalseSuspicion_along (hc : SafeParameters c) {as : List TimedAct}
    (hrun : (machine c t).Along (enabled c t) (start c) as) :
    (machine c t).Along NoFalseSuspicion (start c) as := by
  by_cases htimeout : c.timeoutValue = 0
  · -- without a timeout value there is no timeout
    refine hrun.mono fun x a ha => ?_
    rintro rfl
    exact absurd htimeout ha.1.2
  by_cases hrate : AYARate c 0 = none
  · -- without a rate no AYA is ever sent
    refine (lastSent_ne_aya hrate hrun).mono fun x a h => ?_
    intro _ hloop hs
    exact absurd hs (h (by rw [hloop]; simp))
  · have hm : 2 * c.AYATime % 2 ^ 64 ≠ 0 := by
      intro hzero
      exact hrate (by rw [AYARate, if_pos hzero])
    obtain ⟨hhigher, hle⟩ := (hc.resolve_left htimeout).resolve_left hm
    -- otherwise the thread sends its next AYA before the timeout
    have hmax : maxRate c < c.timeoutValue := by
      unfold maxRate
      omega
    exact hrun.strengthen (timely_start c t) (fun x a h ha => timely_next hhigher hrate h ha)
      fun x a h ha => noFalseSuspicion_of_timely hmax h ha

/-! ## Parameters that allow false suspicion -/

/-- A message without content. -/
def bare (src : SockAddr) (msgID : MsgType) (electionID : ℕ) : TimedAct :=
  .message src { msgID, electionID, vectorClock := fun _ => ⟨0, 0⟩ }

/-- The thread of the node has sent an AYA to `src`. -/
structure Asks (src : SockAddr) (x : TimedNode) : Prop where
  control : x.node.control = .loop
  aya : x.node.aya = some src
  lastSent : x.node.lastSent = some .aya
  latestAya : x.latestAya = some src

/-- A run with a false suspicion can begin in this state. -/
def CanSuspect (c : Config) (t : Timing) (x : TimedNode) : Prop :=
  (machine c t).CanBreak (enabled c t) NoFalseSuspicion x

variable {src : SockAddr}

/-- A COORD starts the thread. -/
theorem coord_step (c : Config) (t : Timing) (src : SockAddr) :
    (next c t (start c) (bare src .coord 0)).node.control = .loop ∧
      (next c t (start c) (bare src .coord 0)).node.aya = some src ∧
      (next c t (start c) (bare src .coord 0)).now = 0 ∧
      (next c t (start c) (bare src .coord 0)).waitSince = 0 ∧
      (next c t (start c) (bare src .coord 0)).wakeAt = 0 :=
  ⟨rfl, rfl, rfl, rfl, rfl⟩

/-- The thread sends an AYA and sleeps. -/
theorem thread_step (t : Timing) (rn : ℕ) (hcontrol : x.node.control = .loop) (haya : x.node.aya = some src)
    (hrate : AYARate c 0 ≠ none) :
    Asks src (next c t x (.thread rn)) ∧ (next c t x (.thread rn)).now = x.now ∧
      (next c t x (.thread rn)).waitSince = x.waitSince ∧
      (next c t x (.thread rn)).wakeAt = x.now + (AYARate c rn).getD 0 * t.hz := by
  -- the thread has a target and a rate, so it asks and sleeps
  have hhandle : handle c x.node .thread =
      .lastSent (some .aya) :: sendMsg c x.node.myVectorClock src .aya (c.port % 2 ^ 32) := by
    show threadIteration c x.node = _
    simp only [threadIteration, haya, if_neg hrate]
  have hnode : (next c t x (.thread rn)).node = (process c).exec x.node
      (.lastSent (some .aya) :: sendMsg c x.node.myVectorClock src .aya (c.port % 2 ^ 32)) := by
    show (x.input c .thread).node = _
    rw [input_node]
    exact congrArg ((process c).exec x.node) hhandle
  refine ⟨⟨?_, ?_, ?_, ?_⟩, input_now c x .thread, input_waitSince c x .thread, rfl⟩
  · rw [hnode]
    exact hcontrol
  · rw [hnode]
    exact haya
  · rw [hnode]
    rfl
  · show (x.input c .thread).latestAya = some src
    simp [input, sentAya_thread haya hrate]

/-- An IAA answers the latest AYA and ends the wait; the rest is as before. -/
theorem iaa_step (hcontrol : x.node.control = .loop) (hlatest : x.latestAya = some src) (id : ℕ) :
    (next c t x (bare src .iaa id)).node.control = .loop ∧
      (next c t x (bare src .iaa id)).node.aya = x.node.aya ∧
      (next c t x (bare src .iaa id)).node.lastSent = x.node.lastSent ∧
      (next c t x (bare src .iaa id)).answered = true ∧
      (next c t x (bare src .iaa id)).now = x.now ∧
      (next c t x (bare src .iaa id)).waitSince = x.now ∧
      (next c t x (bare src .iaa id)).wakeAt = if x.node.aya = none then x.now else x.wakeAt := by
  have hhandle : ∀ m : Msg, m.msgID = .iaa → handle c x.node (.message src m) =
      [.clock (mergeVectorClock x.node.myVectorClock m), .clock (receivedClock c x.node m),
        .log (.message m.msgID m.electionID false src.port)] := by
    intro m hk
    simp [handle, hcontrol, receive, handleMsg, hk]
  have hnode : ∀ i, (x.mainStep c i).node = (process c).exec x.node (handle c x.node i) :=
    fun i => input_node c x i
  refine ⟨?_, ?_, ?_, ?_, input_now c x _, rfl, rfl⟩
  · show (x.mainStep c _).node.control = _
    rw [hnode, hhandle _ rfl]
    exact hcontrol
  · show (x.mainStep c _).node.aya = _
    rw [hnode, hhandle _ rfl]
    rfl
  · show (x.mainStep c _).node.lastSent = _
    rw [hnode, hhandle _ rfl]
    rfl
  · show (x.input c _).answered = true
    simp [input, hhandle, sentAya, hlatest]

/-- An answered AYA, and a quiet period of the length of the timeout. -/
theorem canSuspect_of_answered (htimeout : c.timeoutValue ≠ 0) (hcontrol : x.node.control = .loop)
    (hs : x.node.lastSent = some .aya) (hanswered : x.answered = true) (hwait : x.waitSince = x.now)
    (hwake : x.node.aya ≠ none → x.now + c.timeoutValue * t.hz ≤ x.wakeAt) : CanSuspect c t x := by
  have hexited : x.node.control ≠ .exited := by
    rw [hcontrol]
    simp
  refine ⟨[.pass (c.timeoutValue * t.hz), .timeout], ⟨⟨fun _ _ => ?_, fun haya => ?_⟩,
    ⟨⟨hexited, htimeout⟩, ?_⟩, trivial⟩, fun hsafe => ?_⟩
  · rw [hwait]
    exact Nat.le_add_right _ _
  · exact (hwake haya).trans (Nat.le_add_right _ _)
  · show x.waitSince + c.timeoutValue * t.hz ≤ x.now + c.timeoutValue * t.hz
    rw [hwait]
  · have hfalse : x.answered = false := hsafe.2.1 rfl hcontrol hs
    rw [hanswered] at hfalse
    exact absurd hfalse (by simp)

/-- The answer to the AYA of a thread that sleeps for at least the timeout. -/
theorem canSuspect_of_asks (htimeout : c.timeoutValue ≠ 0) (hx : Asks src x)
    (hwake : x.now + c.timeoutValue * t.hz ≤ x.wakeAt) : CanSuspect c t x := by
  obtain ⟨hcontrol, haya, hs, hanswered, hnow, hwait, hwakeAt⟩ :=
    iaa_step (c := c) (t := t) hx.control hx.latestAya (c.port % 2 ^ 32)
  refine Machine.CanBreak.of_run [bare src .iaa (c.port % 2 ^ 32)] ⟨?_, trivial⟩ ?_
  · show x.node.control ≠ .exited
    rw [hx.control]
    simp
  · refine canSuspect_of_answered htimeout hcontrol (hs.trans hx.lastSent) hanswered
      (hwait.trans hnow.symm) fun _ => ?_
    show (next c t x (bare src .iaa (c.port % 2 ^ 32))).now + c.timeoutValue * t.hz ≤
      (next c t x (bare src .iaa (c.port % 2 ^ 32))).wakeAt
    rw [hnow, hwakeAt, hx.aya]
    exact hwake

/-- A thread that is about to send its first AYA, after a COORD at time 0. -/
theorem canSuspect_start (src : SockAddr) (rn : ℕ) (hrate : AYARate c 0 ≠ none) (hrn : rn < 2 ^ 31)
    (h : ∀ x, Asks src x → x.now = 0 → x.waitSince = 0 →
      x.wakeAt = (AYARate c rn).getD 0 * t.hz → CanSuspect c t x) :
    CanSuspect c t (start c) := by
  obtain ⟨hcontrol, haya, hnow, hwait, hwake⟩ := coord_step c t src
  obtain ⟨hx, hnow', hwait', hwake'⟩ := thread_step t rn hcontrol haya hrate
  refine Machine.CanBreak.of_run [bare src .coord 0, .thread rn] ⟨?_, ⟨⟨?_, ?_⟩, hrn, ?_⟩, trivial⟩ ?_
  · show (Node.start c).control ≠ .exited
    simp [Node.start]
  · show (next c t (start c) (bare src .coord 0)).node.control ≠ .exited
    rw [hcontrol]
    simp
  · show (next c t (start c) (bare src .coord 0)).node.aya ≠ none
    rw [haya]
    simp
  · exact hwake.le.trans hnow.ge
  · refine h _ hx (hnow'.trans hnow) (hwait'.trans hwait) ?_
    refine hwake'.trans ?_
    rw [hnow, Nat.zero_add]

/-- An interval of at least the timeout. -/
theorem canSuspect_of_interval (htimeout : c.timeoutValue ≠ 0)
    (hlt : c.timeoutValue < min (2 * c.AYATime % 2 ^ 64) (2 ^ 31)) : CanSuspect c t (start c) := by
  have hm : 2 * c.AYATime % 2 ^ 64 ≠ 0 := by omega
  have hrate : AYARate c 0 ≠ none := by
    rw [AYARate, if_neg hm]
    simp
  refine canSuspect_start ⟨0, 0⟩ c.timeoutValue hrate (by omega)
    fun x hx hnow _ hwake => canSuspect_of_asks htimeout hx ?_
  rw [hnow, hwake, AYARate, if_neg hm, Option.getD_some, Nat.mod_eq_of_lt (by omega), Nat.zero_add]

/-! A node without higher members keeps AYA in `lastSent` when it suspects its coordinator. -/

/-- The end of the wait: the thread is cancelled and no election is called. -/
theorem timeout_step (hhigher : higher c = []) (hx : Asks src x) :
    (next c t x .timeout).node.control = .loop ∧ (next c t x .timeout).node.aya = none ∧
      (next c t x .timeout).node.lastSent = some .aya ∧
      (next c t x .timeout).latestAya = some src := by
  have hhandle : handle c x.node .timeout = [.cancelThread] := by
    simp [handle, hx.control, receiveTimeout, hx.lastSent, hx.aya, hhigher, sendLoop]
  have hnode : (next c t x .timeout).node = (process c).exec x.node [.cancelThread] := by
    show (x.input c .timeout).node = _
    rw [input_node]
    exact congrArg ((process c).exec x.node) hhandle
  refine ⟨?_, ?_, ?_, ?_⟩
  · rw [hnode]
    exact hx.control
  · rw [hnode]
    rfl
  · rw [hnode]
    exact hx.lastSent
  · show (x.input c .timeout).latestAya = some src
    simp [input, hhandle, sentAya, hx.latestAya]

/-- One AYA a second until the wait ends, and an answer after that. -/
theorem canSuspect_of_rounds (htimeout : c.timeoutValue ≠ 0) (hhigher : higher c = [])
    (hrate : AYARate c 1 = some 1) (hx : Asks src x) (k : ℕ)
    (hwait : x.waitSince + c.timeoutValue * t.hz = x.now + k * t.hz)
    (hwake : x.wakeAt = x.now + t.hz) : CanSuspect c t x := by
  have hexited : x.node.control ≠ .exited := by
    rw [hx.control]
    simp
  induction k generalizing x with
  | zero =>
      -- the wait is over: the thread is cancelled, and the answer comes too late
      obtain ⟨hcontrol, haya, hs, hlatest⟩ := timeout_step (t := t) hhigher hx
      obtain ⟨hcontrol', haya', hs', hanswered, hnow, hwait', -⟩ :=
        iaa_step (c := c) (t := t) hcontrol hlatest (c.port % 2 ^ 32)
      refine Machine.CanBreak.of_run [.timeout, bare src .iaa (c.port % 2 ^ 32)]
        ⟨⟨⟨hexited, htimeout⟩, ?_⟩, ?_, trivial⟩ ?_
      · rw [hwait, Nat.zero_mul, Nat.add_zero]
      · show (next c t x .timeout).node.control ≠ .exited
        rw [hcontrol]
        simp
      · exact canSuspect_of_answered htimeout hcontrol' (hs'.trans hs) hanswered
          (hwait'.trans hnow.symm) fun hne => absurd (haya'.trans haya) hne
  | succ k ih =>
      have hsome : AYARate c 0 ≠ none := by
        intro hnone
        unfold AYARate at hnone hrate
        split at hnone
        · rename_i hm
          rw [if_pos hm] at hrate
          exact absurd hrate (by simp)
        · exact absurd hnone (by simp)
      have haya : x.node.aya ≠ none := by
        rw [hx.aya]
        simp
      obtain ⟨hx', hnow, hwait', hwake'⟩ := thread_step (x := next c t x (.pass t.hz)) t 1
        hx.control hx.aya hsome
      rw [Nat.add_mul, Nat.one_mul] at hwait
      refine Machine.CanBreak.of_run [.pass t.hz, .thread 1] ⟨⟨fun _ _ => ?_, fun _ => ?_⟩,
        ⟨(show accepts c x.node .thread from ⟨hexited, haya⟩), by omega, ?_⟩, trivial⟩ ?_
      · omega
      · rw [hwake]
        exact Nat.le_add_right _ _
      · exact hwake.le
      · change CanSuspect c t (next c t (next c t x (.pass t.hz)) (.thread 1))
        refine ih hx' ?_ ?_ ?_
        · rw [hnow, hwait']
          show x.waitSince + c.timeoutValue * t.hz = x.now + t.hz + k * t.hz
          omega
        · rw [hnow, hwake', hrate, Option.getD_some, Nat.one_mul]
        · rw [hx'.control]
          simp

theorem canSuspect_of_highest (htimeout : c.timeoutValue ≠ 0) (hhigher : higher c = [])
    (hm : 2 * c.AYATime % 2 ^ 64 ≠ 0) : CanSuspect c t (start c) := by
  have hrate : AYARate c 0 ≠ none := by
    rw [AYARate, if_neg hm]
    simp
  have hone : AYARate c 1 = some 1 := by
    rw [AYARate, if_neg hm, Nat.mod_eq_of_lt (by omega)]
  refine canSuspect_start ⟨0, 0⟩ 1 hrate (by omega) fun x hx hnow hwait hwake => ?_
  refine canSuspect_of_rounds htimeout hhigher hone hx c.timeoutValue ?_ ?_
  · rw [hwait, hnow]
  · rw [hwake, hnow, hone, Option.getD_some, Nat.one_mul, Nat.zero_add]

end TimedNode

end DistributedSystem.Bully
