import DistributedSystem.Transaction.System

/-!
# Bounds on the numbers of a run

Ids that a node keeps or sends are ids it was given, and a step advances a clock by a bounded
number of ticks. So in a run of bounded length every id stays below a bound on the ids that
come in, and every time below a bound on the number of steps.
-/

namespace DistributedSystem.Transaction

open DistributedSystem.Library

variable {N B B' : ℕ}

/-! ## Clocks -/

/-- The ids of a clock are below `N`, and its times at most `B`. -/
def ClockWithin (N B : ℕ) (vc : VClock) : Prop := ∀ i, (vc i).nodeId < N ∧ (vc i).time ≤ B

variable {vc : VClock} {c : Clock}

/-- Later times leave more room. -/
theorem ClockWithin.mono (h : ClockWithin N B vc) (hB : B ≤ B') : ClockWithin N B' vc :=
  fun i => ⟨(h i).1, (h i).2.trans hB⟩

theorem ClockWithin.update (h : ClockWithin N B vc) (i : Fin maxNodes)
    (hc : c.nodeId < N ∧ c.time ≤ B) : ClockWithin N B (Function.update vc i c) :=
  (Function.forall_update_iff vc fun _ (c : Clock) => c.nodeId < N ∧ c.time ≤ B).mpr
    ⟨hc, fun j _ => h j⟩

theorem clockWithin_emptyClock (hN : 0 < N) : ClockWithin N B emptyClock :=
  fun _ => ⟨hN, Nat.zero_le B⟩

/-- A node starts with the time 1. -/
theorem clockWithin_startClock {port : NodeId} (hport : port < N) : ClockWithin N 1 (startClock port) := by
  intro i
  unfold startClock
  split
  · exact ⟨hport, Nat.le_refl 1⟩
  · exact ⟨Nat.zero_lt_of_lt hport, Nat.zero_le 1⟩

/-- A tick adds one to the own time, or wraps it, if the clock has an entry for it. -/
theorem ClockWithin.tick {port : NodeId} (h : ClockWithin N B vc) :
    ClockWithin N (B + 1) (tick port vc) := by
  unfold Transaction.tick updateMyVectorClock
  split
  · rename_i i _
    exact (h.mono (Nat.le_succ B)).update i
      ⟨(h i).1, (Nat.mod_le _ _).trans (Nat.succ_le_succ (h i).2)⟩
  · exact h.mono (Nat.le_succ B)

/-- One entry of the other clock is taken over, into the entry of its id or a free one. -/
theorem ClockWithin.mergeEntry (h : ClockWithin N B vc) (hc : c.nodeId < N ∧ c.time ≤ B) :
    ClockWithin N B (mergeEntry vc c) := by
  unfold Transaction.mergeEntry
  split
  · rename_i j _
    split
    · split
      · exact h.update j ⟨(h j).1, hc.2⟩
      · exact h
    · exact h.update j hc
  · exact h

/-- The loop of `mergeVectorClock` over the entries of the other clock. -/
theorem ClockWithin.mergeLoop {cs : List Clock} (h : ClockWithin N B vc)
    (hcs : ∀ c ∈ cs, c.nodeId < N ∧ c.time ≤ B) : ClockWithin N B (mergeLoop vc cs) := by
  induction cs generalizing vc with
  | nil => exact h
  | cons c cs ih =>
      obtain ⟨hc, hrest⟩ := List.forall_mem_cons.mp hcs
      unfold Transaction.mergeLoop
      split
      · exact h
      · exact ih (h.mergeEntry hc) hrest

/-- The ids of a message are below `N`, and so are those of its clock. -/
structure TxMessage.Within (N B : ℕ) (m : TxMessage) : Prop where
  tid : m.tid < N
  nodeId : m.nodeId < N
  clock : ClockWithin N B m.vectorClock

variable {m : TxMessage}

theorem TxMessage.Within.mono (h : m.Within N B) (hB : B ≤ B') : m.Within N B' :=
  ⟨h.tid, h.nodeId, h.clock.mono hB⟩

/-- A merge keeps the bound of both clocks. -/
theorem ClockWithin.merge (h : ClockWithin N B vc) (hm : m.Within N B) :
    ClockWithin N B (mergeVectorClock vc m) := by
  refine h.mergeLoop fun c hc => ?_
  obtain ⟨i, rfl⟩ := (List.mem_ofFn' m.vectorClock c).mp hc
  exact hm.clock i

/-! ## The manager -/

/-- The numbers of the manager are within the bounds. -/
structure Manager.Within (N B : ℕ) (s : Manager) : Prop where
  port : s.port < N
  clock : ClockWithin N B s.mem.myVectorClock
  saved : ClockWithin N B s.vectorClock
  tid : ∀ i, (s.workerInfo i).tid < N
  nodeId : ∀ i j, ((s.workerInfo i).workers j).nodeId < N
  log : ∀ r ∈ s.log, r.tid < N ∧ r.nodeId < N
  abortTid : s.mem.abortTid < N
  recNodeId : s.mem.recNodeId < N

/-- The numbers that an effect of the manager writes or sends are within the bounds. -/
def ManagerEffect.Within (N B : ℕ) : ManagerEffect → Prop
  | .log r => r.tid < N ∧ r.nodeId < N
  | .tid _ t => t < N
  | .nodeId _ _ n => n < N
  | .clock vc => ClockWithin N B vc
  | .send _ m => m.Within N B
  | .abortTid t => t < N
  | _ => True

/-- All effects are within the bounds. -/
def ManagerEffect.AllWithin (N B : ℕ) (es : List ManagerEffect) : Prop := ∀ e ∈ es, e.Within N B

namespace ManagerEffect

variable {e : ManagerEffect} {es es' : List ManagerEffect}

@[simp] theorem allWithin_nil : AllWithin N B [] := by simp [AllWithin]

@[simp] theorem allWithin_cons : AllWithin N B (e :: es) ↔ e.Within N B ∧ AllWithin N B es :=
  List.forall_mem_cons

@[simp] theorem allWithin_append :
    AllWithin N B (es ++ es') ↔ AllWithin N B es ∧ AllWithin N B es' := List.forall_mem_append

theorem AllWithin.mono (h : AllWithin N B es) (hB : B ≤ B') : AllWithin N B' es := by
  intro e he
  have hwithin := h e he
  cases e with
  | clock vc => exact ClockWithin.mono hwithin hB
  | send dst m => exact TxMessage.Within.mono hwithin hB
  | _ => exact hwithin

end ManagerEffect

namespace Manager

open ManagerEffect

variable {s : Manager} {e : ManagerEffect} {es : List ManagerEffect} {T : Table} {t : Tid}
  {n : NodeId} {k : MsgId} {src : SockAddr} {u : Uninit}

/-- Effects within the bounds keep the manager within them. -/
theorem Within.apply (h : s.Within N B) (he : e.Within N B) : (s.apply e).Within N B := by
  have hN : 0 < N := Nat.zero_lt_of_lt h.port
  refine
    { port := (show (s.apply e).port = s.port by cases e <;> rfl) ▸ h.port
      clock := ?_
      saved := ?_
      tid := fun i => ?_
      nodeId := fun i j => ?_
      log := ?_
      abortTid := ?_
      recNodeId := ?_ }
  · cases e with
    | clock vc => exact he
    | exit => exact clockWithin_emptyClock hN
    | _ => exact h.clock
  · cases e with
    | saveVectorTime => exact h.clock
    | _ => exact h.saved
  · rw [tid_apply]
    cases e with
    | tid i' t =>
        dsimp only
        split
        · exact he
        · exact h.tid i
    | _ => exact h.tid i
  · rw [workers_apply]
    cases e with
    | nodeId i' j' n =>
        dsimp only
        split
        · exact he
        · exact h.nodeId i j
    | port i' j' p =>
        dsimp only
        split <;> exact h.nodeId i j
    | workerAddr i' j' a =>
        dsimp only
        split <;> exact h.nodeId i j
    | voteYes i' j' v =>
        dsimp only
        split <;> exact h.nodeId i j
    | _ => exact h.nodeId i j
  · rw [log_apply]
    cases e with
    | log r => exact List.forall_mem_append.mpr ⟨h.log, List.forall_mem_singleton.mpr he⟩
    | _ => exact h.log
  · cases e with
    | abortTid t => exact he
    | exit => exact hN
    | _ => exact h.abortTid
  · cases e with
    | log r => exact he.2
    | exit => exact hN
    | _ => exact h.recNodeId

/-- What effects within the bounds lead to is within them. -/
theorem Within.exec (h : s.Within N B) (hes : AllWithin N B es) : (process.exec s es).Within N B :=
  Process.exec_invariant h fun _ e he hwithin => hwithin.apply (hes e he)

/-! ### The effects of each function -/

theorem within_receivedClock (h : s.Within N B) (hm : m.Within N B) :
    ClockWithin N (B + 1) (s.receivedClock m) :=
  h.clock.tick.merge (hm.mono (Nat.le_succ B))

theorem within_constructMessage (ht : t < N) (hn : n < N) (hvc : ClockWithin N B vc) :
    (constructMessage k t n vc).Within N B := ⟨ht, hn, hvc⟩

/-- Receiving is one tick. -/
theorem allWithin_receive (h : s.Within N B) (hm : m.Within N B) : AllWithin N (B + 1) (s.receive m) := by
  simp only [receive, allWithin_cons]
  exact ⟨h.clock.tick, within_receivedClock h hm, trivial, trivial, allWithin_nil⟩

/-- A datagram costs one tick, and carries the clock behind it. -/
theorem allWithin_sendTo {port : NodeId} {dst : SockAddr} (ht : t < N) (hn : n < N)
    (hvc : ClockWithin N B vc) : AllWithin N (B + 1) (sendTo port vc dst k t n) := by
  simp only [sendTo, allWithin_cons]
  exact ⟨hvc.tick, trivial, trivial, within_constructMessage ht hn hvc.tick, allWithin_nil⟩

/-- The broadcast ticks once for every participant. -/
theorem allWithin_sendLoop {port : NodeId} {ws : List (Tid × W)} (hn : n < N)
    (hws : ∀ x ∈ ws, x.1 < N ∧ x.2.nodeId < N) (hvc : ClockWithin N B vc) :
    AllWithin N (B + ws.length) (sendLoop port k n vc ws) := by
  induction ws generalizing B vc with
  | nil => exact allWithin_nil
  | cons x ws ih =>
      obtain ⟨hx, hrest⟩ := List.forall_mem_cons.mp hws
      rw [sendLoop, allWithin_append, List.length_cons]
      have hid : (if x.2.nodeId = 0 then n else x.2.nodeId) < N := by
        split
        · exact hn
        · exact hx.2
      refine ⟨(allWithin_sendTo hx.1 hid hvc).mono (by omega), ?_⟩
      exact (ih hrest hvc.tick).mono (by omega)

theorem length_flatMap_le {α β : Type*} {c : ℕ} {f : α → List β} (h : ∀ a, (f a).length ≤ c)
    (l : List α) : (l.flatMap f).length ≤ l.length * c := by
  induction l with
  | nil => simp
  | cons a l ih =>
      rw [List.flatMap_cons, List.length_append, List.length_cons, Nat.succ_mul]
      have ha := h a
      omega

/-- A transaction has at most as many participants as the table has entries. -/
theorem length_targets_le (T : Table) (t : Tid) : (targets T t).length ≤ 50 := by
  refine (length_flatMap_le (c := 10) (fun i => ?_) _).trans_eq
    (congrArg (· * 10) List.length_finRange)
  split
  · exact (List.length_filter_le _ _).trans_eq List.length_ofFn
  · exact Nat.zero_le _

/-- A restart tells the participants of the transactions of five slots. -/
theorem length_recoveryTargets_le (T : Table) (log : List CoordRecord) :
    (recoveryTargets T log).length ≤ 250 := by
  refine (length_flatMap_le (c := 50) (fun k => ?_) _).trans_eq
    (congrArg (· * 50) List.length_finRange)
  split
  · exact Nat.zero_le _
  · rw [List.length_map]
    exact length_targets_le T _

/-- The participants are entries of the table, so their ids are within the bounds. -/
theorem within_targets (h : s.Within N B) {w : W} (hw : w ∈ targets s.workerInfo t) : w.nodeId < N := by
  obtain ⟨i, -, -, j, rfl⟩ := mem_targets.mp hw
  exact h.nodeId i j

theorem within_recoveryTargets (h : s.Within N B) {x : Tid × W}
    (hx : x ∈ recoveryTargets s.workerInfo s.log) : x.1 < N ∧ x.2.nodeId < N := by
  obtain ⟨i, -, hx⟩ := List.mem_flatMap.mp hx
  split at hx
  · exact absurd hx List.not_mem_nil
  · obtain ⟨w, hw, rfl⟩ := List.mem_map.mp hx
    exact ⟨h.tid i, within_targets h hw⟩

theorem allWithin_sendToAllWorkers (h : s.Within N B) (ht : t < N) (hn : n < N)
    (hvc : ClockWithin N B' vc) : AllWithin N (B' + 50) (s.sendToAllWorkers vc t n k) := by
  have hwithin : ∀ x ∈ (targets s.workerInfo t).map fun w => (t, w), x.1 < N ∧ x.2.nodeId < N := by
    intro x hx
    obtain ⟨w, hw, rfl⟩ := List.mem_map.mp hx
    exact ⟨ht, within_targets h hw⟩
  refine (allWithin_sendLoop hn hwithin hvc).mono (Nat.add_le_add_left ?_ B')
  rw [List.length_map]
  exact length_targets_le _ _

/-- A slot is cleared with zeros. -/
theorem allWithin_cleanWorkerInfo (hN : 0 < N) : AllWithin N B (cleanWorkerInfo T t) := by
  intro e he
  obtain ⟨i, -, rfl | rfl | ⟨j, rfl | rfl | rfl⟩⟩ := mem_cleanWorkerInfo he
  · exact hN
  · trivial
  · exact hN
  · trivial
  · trivial

/-- What a `BEGIN` or `JOIN` enters comes from its message. -/
theorem allWithin_saveWorkerInfo {p : ℕ} {index : ℕ} (ht : t < N) (hn : n < N) :
    AllWithin N B (saveWorkerInfo T p t k n src index).2 := by
  intro e he
  rcases mem_saveWorkerInfo he with ⟨-, i, -, -, rfl⟩ | ⟨-, i, j, -, rfl | rfl | rfl⟩
  · exact ht
  · trivial
  · exact hn
  · trivial

theorem allWithin_crashFlag : AllWithin N B (s.crashFlag m) := by
  intro e he
  obtain ⟨i, b, rfl⟩ := mem_crashFlag he
  trivial

theorem allWithin_collectVote {d : MsgId} : AllWithin N B (s.collectVote m d).2 := by
  intro e he
  obtain ⟨i, j, -, -, rfl⟩ := mem_collectVote he
  trivial

theorem allWithin_reply (hm : m.Within N B) (hvc : ClockWithin N B' vc) :
    AllWithin N B' (reply src m k vc) := by
  simp only [reply, allWithin_cons]
  exact ⟨trivial, within_constructMessage hm.tid hm.nodeId hvc, allWithin_nil⟩

/-- A decision goes to at most 50 participants. -/
theorem allWithin_announce (h : s.Within N B) (hm : m.Within N B) :
    AllWithin N (B + 51) (s.announce m k) := by
  have hN : 0 < N := Nat.zero_lt_of_lt h.port
  have hvc := within_receivedClock h hm
  unfold announce
  split
  · simp only [allWithin_cons, allWithin_append]
    refine ⟨⟨hm.tid, hm.nodeId⟩, ⟨⟨?_, ?_⟩, allWithin_cleanWorkerInfo hN⟩, trivial, allWithin_nil⟩
    · intro e he
      obtain ⟨i, b, rfl⟩ := mem_resetCrash he
      trivial
    · exact ⟨hvc.tick.mono (by omega), trivial, trivial, allWithin_nil⟩
  · rw [allWithin_cons, allWithin_append]
    exact ⟨⟨hm.tid, hm.nodeId⟩, (allWithin_sendToAllWorkers h hm.tid hm.nodeId hvc).mono (by omega),
      allWithin_cleanWorkerInfo hN⟩

/-- A vote costs at most the tick of its receipt and the announcement. -/
theorem allWithin_handleVote (h : s.Within N B) (hm : m.Within N B) :
    AllWithin N (B + 51) (s.handleVote src m u) := by
  have hvc := within_receivedClock h hm
  have hcounted : (s.counted m u.commit).Within N B :=
    (h.exec allWithin_crashFlag).exec allWithin_collectVote
  have hreply : ∀ d, AllWithin N (B + 51) (sendTo s.port (s.receivedClock m) src d m.tid m.nodeId) :=
    fun d => (allWithin_sendTo hm.tid hm.nodeId hvc).mono (by omega)
  rw [handleVote_eq, allWithin_append, allWithin_append]
  refine ⟨⟨allWithin_crashFlag, allWithin_collectVote⟩, ?_⟩
  split
  · split
    · exact hreply _
    · exact allWithin_announce hcounted hm
  · exact hreply _
  · exact allWithin_nil

/-- **Every datagram of a worker** leaves the bounds in place, with the ticks added. -/
theorem allWithin_handleWorkerMsg (h : s.Within N B) (hm : m.Within N B) :
    AllWithin N (B + 51) (s.handleWorkerMsg src m u) := by
  have hvc := within_receivedClock h hm
  have htick : ClockWithin N (B + 51) (tick s.port (s.receivedClock m)) := hvc.tick.mono (by omega)
  have hsaved : AllWithin N (B + 51) (saveWorkerInfo s.workerInfo src.port m.tid m.msgID m.nodeId src
      u.index).2 := allWithin_saveWorkerInfo hm.tid hm.nodeId
  rw [handleWorkerMsg, allWithin_append]
  refine ⟨(allWithin_receive h hm).mono (by omega), ?_⟩
  split
  · simp only [handleBegin, allWithin_append, allWithin_cons]
    exact ⟨⟨hsaved, htick, trivial, allWithin_nil⟩, allWithin_reply hm htick⟩
  · simp only [handleJoin, allWithin_append, allWithin_cons]
    refine ⟨⟨hsaved, htick, trivial, allWithin_nil⟩, ?_⟩
    split
    · exact allWithin_reply hm htick
    · exact allWithin_cons.mpr ⟨⟨hm.tid, hm.nodeId⟩, allWithin_reply hm htick⟩
  · rw [handleCommit, allWithin_cons]
    exact ⟨⟨hm.tid, hm.nodeId⟩, (allWithin_sendToAllWorkers h hm.tid hm.nodeId hvc).mono (by omega)⟩
  · exact allWithin_handleVote h hm
  · exact allWithin_handleVote h hm
  · rw [handleVoteAbort, allWithin_append]
    exact ⟨allWithin_crashFlag, allWithin_announce (h.exec allWithin_crashFlag) hm⟩
  · exact allWithin_nil

/-- A timeout announces one decision. -/
theorem allWithin_voteTimeout (h : s.Within N B) : AllWithin N (B + 50) s.voteTimeout := by
  have hN : 0 < N := Nat.zero_lt_of_lt h.port
  unfold voteTimeout
  split
  · rename_i t hwaiting
    obtain ⟨i, -, rfl⟩ := Option.map_eq_some_iff.mp hwaiting
    simp only [allWithin_append, allWithin_cons]
    exact ⟨⟨⟨h.tid i, ⟨h.tid i, h.recNodeId⟩, allWithin_nil⟩,
      allWithin_sendToAllWorkers h (h.tid i) hN h.clock⟩, allWithin_cleanWorkerInfo hN⟩
  · exact allWithin_nil

/-- A restart broadcasts to the participants of every undecided slot. -/
theorem allWithin_restart (h : s.Within N B) : AllWithin N (B + 251) s.restart := by
  have hN : 0 < N := Nat.zero_lt_of_lt h.port
  simp only [restart, allWithin_append, allWithin_cons]
  refine ⟨⟨⟨h.saved.mono (by omega), h.saved.tick.mono (by omega), trivial, trivial, allWithin_nil⟩, ?_⟩,
    trivial, allWithin_nil⟩
  -- recovery goes through the table once for each of its 5 slots of 10 entries
  have hlen := length_recoveryTargets_le s.workerInfo s.log
  have hloop : AllWithin N (B + 1 + (recoveryTargets s.workerInfo s.log).length)
      (sendLoop s.port .decideAbort 0 (tick s.port s.vectorClock)
        (recoveryTargets s.workerInfo s.log)) :=
    allWithin_sendLoop hN (fun _ hx => within_recoveryTargets h hx) h.saved.tick
  exact hloop.mono (by omega)

/-- The numbers of an input are within the bounds. -/
def Input.Within (N B : ℕ) : Input → Prop
  | .message _ m _ => m.Within N B
  | _ => True

/-- **One input advances the clock by at most 256 ticks.** -/
theorem allWithin_handle {input : Input} (h : s.Within N B) (hin : input.Within N B) :
    AllWithin N (B + 256) (s.handle input) := by
  cases input with
  | message src m u => exact (allWithin_handleWorkerMsg h hin).mono (by omega)
  | timeout => exact (allWithin_voteTimeout h).mono (by omega)
  | restart => exact (allWithin_restart h).mono (by omega)

end Manager

/-! ## The workers -/

/-- The numbers of a worker that it sends are within the bounds. -/
structure Worker.Within (N B : ℕ) (w : Worker) : Prop where
  nodeId : w.nodeId < N
  clock : ClockWithin N B w.mem.myVectorClock
  saved : ClockWithin N B w.crashInfo.vectorClock
  log : ∀ r ∈ w.log, r.tid < N
  curTid : w.mem.curTid < N

/-- The numbers that an effect of a worker writes or sends are within the bounds. -/
def WorkerEffect.Within (N B : ℕ) : WorkerEffect → Prop
  | .log r => r.tid < N
  | .clock vc => ClockWithin N B vc
  | .send _ m => m.Within N B
  | .joined t => t < N
  | .curTid t => t < N
  | _ => True

/-- All effects are within the bounds. -/
def WorkerEffect.AllWithin (N B : ℕ) (es : List WorkerEffect) : Prop := ∀ e ∈ es, e.Within N B

namespace WorkerEffect

variable {e : WorkerEffect} {es es' : List WorkerEffect}

@[simp] theorem allWithin_nil : AllWithin N B [] := by simp [AllWithin]

@[simp] theorem allWithin_cons : AllWithin N B (e :: es) ↔ e.Within N B ∧ AllWithin N B es :=
  List.forall_mem_cons

@[simp] theorem allWithin_append :
    AllWithin N B (es ++ es') ↔ AllWithin N B es ∧ AllWithin N B es' := List.forall_mem_append

theorem AllWithin.mono (h : AllWithin N B es) (hB : B ≤ B') : AllWithin N B' es := by
  intro e he
  have hwithin := h e he
  cases e with
  | clock vc => exact ClockWithin.mono hwithin hB
  | send dst m => exact TxMessage.Within.mono hwithin hB
  | _ => exact hwithin

end WorkerEffect

namespace Worker

open WorkerEffect

variable {w : Worker} {e : WorkerEffect} {es : List WorkerEffect} {t : Tid} {k : MsgId}
  {src dst : SockAddr} {c : MsgType} {calls : CmdCalls} {now : Timeval}

/-- Effects within the bounds keep a worker within them. -/
theorem Within.apply (h : w.Within N B) (he : e.Within N B) : (w.apply e).Within N B := by
  have hN : 0 < N := Nat.zero_lt_of_lt h.nodeId
  cases e with
  | log r =>
      refine { h with log := ?_ }
      exact List.forall_mem_append.mpr ⟨h.log, List.forall_mem_singleton.mpr he⟩
  | clock vc => exact { h with clock := he }
  | saveVectorTime => exact { h with saved := h.clock }
  | joined t => exact { h with curTid := he }
  | curTid t => exact { h with curTid := he }
  | exit => exact { h with clock := clockWithin_emptyClock hN, curTid := hN }
  | objClock i =>
      simp only [Worker.apply]
      split
      · exact { h with }
      · exact h
  | _ => exact { h with }

theorem Within.exec (h : w.Within N B) (hes : AllWithin N B es) : (process.exec w es).Within N B :=
  Process.exec_invariant h fun _ e he hwithin => hwithin.apply (hes e he)

/-! ### The effects of each function -/

theorem within_receivedClock (h : w.Within N B) (hm : m.Within N B) :
    ClockWithin N (B + 1) (w.receivedClock m) := (h.clock.merge hm).tick

theorem allWithin_receive (h : w.Within N B) (hm : m.Within N B) :
    AllWithin N (B + 1) (w.receive src m) := by
  simp only [receive, allWithin_cons]
  exact ⟨(h.clock.merge hm).mono (by omega), within_receivedClock h hm, trivial, trivial, allWithin_nil⟩

theorem allWithin_sendMsg (hvc : ClockWithin N B vc) (hm : m.Within N B) :
    AllWithin N (B + 1) (w.sendMsg vc dst m) := by
  have hsend := hm.mono (Nat.le_succ B)
  have htick : ClockWithin N (B + 1) (tick m.nodeId vc) := hvc.tick
  unfold sendMsg
  dsimp only
  split_ifs <;> simp only [allWithin_cons]
  · exact ⟨htick, trivial, trivial, trivial, allWithin_nil⟩
  · exact ⟨hsend, htick, trivial, trivial, trivial, allWithin_nil⟩
  · exact ⟨hsend, allWithin_nil⟩

theorem allWithin_rollback : AllWithin N B (w.rollback t) := by
  intro e he
  -- what is restored carries no id and no time
  have hrestore := mem_rollback he
  cases e <;> trivial

/-- An update is one tick. -/
theorem allWithin_updateObject {undo : Record} {write : WorkerEffect} {stampClock : Bool}
    (h : w.Within N B) (hundo : undo.tid < N) (hwrite : write.Within N (B + 1)) :
    AllWithin N (B + 1) (w.updateObject undo write stampClock now) := by
  have htick : ClockWithin N (B + 1) (updateMyVectorClock w.nodeId w.mem.myVectorClock).2 := h.clock.tick
  simp only [updateObject, allWithin_append, allWithin_cons]
  refine ⟨⟨?_, hwrite, htick, trivial, trivial, trivial, allWithin_nil⟩, ?_⟩
  · split
    · exact allWithin_cons.mpr ⟨hundo, allWithin_nil⟩
    · exact allWithin_nil
  · split
    · exact allWithin_cons.mpr ⟨trivial, allWithin_nil⟩
    · exact allWithin_nil

/-- What is sent costs a tick, and a crash after it one more. -/
theorem allWithin_handleBeginJoin (h : w.Within N B) (hc : c.tid < N) (toIP : Option ℕ) :
    AllWithin N (B + 2) (w.handleBeginJoin c toIP) := by
  cases toIP with
  | none => exact allWithin_cons.mpr ⟨trivial, allWithin_nil⟩
  | some addr =>
      simp only [handleBeginJoin, allWithin_append, allWithin_cons]
      exact ⟨⟨trivial, h.clock.tick.mono (by omega), trivial, trivial, allWithin_nil⟩,
        allWithin_sendMsg h.clock.tick ⟨hc, h.nodeId, h.clock.tick⟩⟩

theorem allWithin_handleCommit (h : w.Within N B) : AllWithin N (B + 2) (w.handleCommit c) := by
  simp only [handleCommit, allWithin_append, allWithin_cons]
  exact ⟨⟨trivial, h.curTid, h.clock.tick.mono (by omega), trivial, trivial, allWithin_nil⟩,
    allWithin_sendMsg h.clock.tick ⟨h.curTid, h.nodeId, h.clock.tick⟩⟩

theorem allWithin_handleAbort (h : w.Within N B) : AllWithin N (B + 1) (w.handleAbort c) := by
  simp only [handleAbort, allWithin_append, allWithin_cons]
  exact ⟨⟨⟨trivial, allWithin_nil⟩, allWithin_rollback⟩, h.clock.tick, trivial, trivial, h.curTid,
    allWithin_nil⟩

theorem allWithin_handleCmdMsg (h : w.Within N B) (hc : c.tid < N) :
    AllWithin N (B + 2) (w.handleCmdMsg c calls) := by
  unfold handleCmdMsg
  split
  · exact allWithin_handleBeginJoin h hc _
  · exact allWithin_handleBeginJoin h hc _
  · exact AllWithin.mono (allWithin_updateObject h h.curTid trivial) (Nat.le_succ _)
  · exact AllWithin.mono (allWithin_updateObject h h.curTid trivial) (Nat.le_succ _)
  · exact AllWithin.mono (allWithin_updateObject h h.curTid trivial) (Nat.le_succ _)
  · exact allWithin_cons.mpr ⟨trivial, allWithin_nil⟩
  · simp only [handleCrash, allWithin_cons]
    exact ⟨h.clock.tick.mono (by omega), trivial, trivial, trivial, allWithin_nil⟩
  · exact allWithin_handleCommit h
  · exact allWithin_handleCommit h
  · exact (allWithin_handleAbort h).mono (by omega)
  · exact (allWithin_handleAbort h).mono (by omega)
  · exact allWithin_cons.mpr ⟨trivial, allWithin_nil⟩
  · exact allWithin_nil

theorem allWithin_handleDecideCommit (hm : m.Within N B) : AllWithin N B' (handleDecideCommit m) := by
  simp only [handleDecideCommit, allWithin_cons]
  exact ⟨hm.tid, trivial, allWithin_nil⟩

theorem allWithin_handleDecideAbort (hm : m.Within N B) : AllWithin N B' (w.handleDecideAbort m) := by
  simp only [handleDecideAbort, allWithin_append, allWithin_cons]
  exact ⟨allWithin_rollback, hm.tid, trivial, allWithin_nil⟩

/-- The receipt, the vote and a crash are three ticks. -/
theorem allWithin_handlePrepareCommit (h : w.Within N B) (hm : m.Within N B) :
    AllWithin N (B + 3) (w.handlePrepareCommit src m) := by
  have htick : ClockWithin N (B + 2) (tick w.nodeId (w.receivedClock m)) := (within_receivedClock h hm).tick
  simp only [handlePrepareCommit, allWithin_append, allWithin_cons]
  refine ⟨⟨⟨⟨⟨hm.tid, htick.mono (by omega), trivial, allWithin_nil⟩, ?_⟩, trivial, allWithin_nil⟩,
    allWithin_sendMsg htick ⟨hm.tid, hm.nodeId, htick⟩⟩, ?_⟩
  · split
    · exact allWithin_cons.mpr ⟨trivial, allWithin_nil⟩
    · exact allWithin_nil
  · split
    · exact allWithin_nil
    · simp only [allWithin_cons]
      exact ⟨hm.tid, trivial, trivial, allWithin_nil⟩

theorem allWithin_handleManagerMsg (h : w.Within N B) (hm : m.Within N B) :
    AllWithin N (B + 3) (w.handleManagerMsg src m) := by
  rw [handleManagerMsg, allWithin_append]
  refine ⟨(allWithin_receive h hm).mono (by omega), ?_⟩
  split
  · exact allWithin_cons.mpr ⟨hm.tid, allWithin_nil⟩
  · simp only [allWithin_cons]
    exact ⟨hm.tid, trivial, hm.tid, allWithin_nil⟩
  · exact allWithin_handleDecideCommit hm
  · exact allWithin_handlePrepareCommit h hm
  · exact allWithin_handleDecideAbort hm
  · exact allWithin_nil

theorem allWithin_waitingForCoordResponse (h : w.Within N B) (hm : m.Within N B) :
    AllWithin N (B + 1) (w.waitingForCoordResponse src m) := by
  simp only [waitingForCoordResponse, allWithin_append, allWithin_cons]
  refine ⟨⟨allWithin_receive h hm, ?_⟩, trivial, allWithin_nil⟩
  split
  · exact allWithin_handleDecideCommit hm
  · exact allWithin_handleDecideAbort hm
  · exact allWithin_nil

theorem allWithin_pollDecision (h : w.Within N B) : AllWithin N (B + 2) (w.pollDecision dst) := by
  simp only [pollDecision, allWithin_append, allWithin_cons]
  exact ⟨⟨trivial, h.clock.tick.mono (by omega), trivial, trivial, allWithin_nil⟩,
    allWithin_sendMsg h.clock.tick ⟨h.curTid, h.nodeId, h.clock.tick⟩⟩

theorem allWithin_restart (h : w.Within N B) : AllWithin N (B + 2) w.restart := by
  have htid : w.recoveredTid < N := by
    unfold recoveredTid findStateFromRecord
    split
    · rename_i r hr
      rcases mem_mapped (List.mem_of_getLast? hr) with ⟨r', hr', -, htid⟩ | rfl
      · exact htid ▸ h.log r' hr'
      · exact (Nat.zero_le _).trans_lt h.curTid
    · exact h.curTid
  simp only [restart, allWithin_append, allWithin_cons]
  refine ⟨⟨h.saved.mono (by omega), h.saved.tick.mono (by omega), trivial, trivial, htid,
    allWithin_nil⟩, ?_⟩
  split
  · exact allWithin_cons.mpr ⟨trivial, allWithin_nil⟩
  · simp only [allWithin_append, allWithin_cons]
    exact ⟨allWithin_rollback, h.saved.tick.tick, trivial, trivial, htid, trivial, trivial,
      allWithin_nil⟩

/-- The numbers of an input are within the bounds. -/
def Input.Within (N B : ℕ) : Input → Prop
  | .cmd c _ => c.tid < N
  | .manager _ m => m.Within N B
  | _ => True

/-- **One input advances the clock by at most 3 ticks.** -/
theorem allWithin_handle {input : Input} (h : w.Within N B) (hin : input.Within N B) :
    AllWithin N (B + 3) (w.handle input) := by
  cases input with
  | cmd c calls => exact (allWithin_handleCmdMsg h hin).mono (by omega)
  | manager src m =>
      simp only [handle]
      split
      · exact (allWithin_waitingForCoordResponse h hin).mono (by omega)
      · exact allWithin_handleManagerMsg h hin
  | pollTimeout =>
      simp only [handle]
      split
      · exact (allWithin_pollDecision h).mono (by omega)
      · exact allWithin_nil
  | restart => exact (allWithin_restart h).mono (by omega)

end Worker

/-! ## The system -/

theorem Manager.Within.mono {s : Manager} (h : s.Within N B) (hB : B ≤ B') : s.Within N B' :=
  { h with
    clock := h.clock.mono hB
    saved := h.saved.mono hB }

theorem Worker.Within.mono {w : Worker} (h : w.Within N B) (hB : B ≤ B') : w.Within N B' :=
  { h with
    clock := h.clock.mono hB
    saved := h.saved.mono hB }

namespace System

/-- The numbers of all nodes below `N` and of all datagrams are within the bounds. -/
structure Within (N B : ℕ) (s : System) : Prop where
  manager : s.manager.Within N B
  workers : ∀ n < N, (s.workers n).Within N B
  requests : ∀ src m, .toManager src m ∈ s.net → m.Within N B
  replies : ∀ dst m, .toWorker dst m ∈ s.net → m.Within N B

/-- The ids that come in with a step are below `N`. -/
def ActWithin (N : ℕ) : SystemAct → Prop
  | .manager _ => True
  | .worker n a => n < N ∧ ∀ c calls, a.input = .cmd c calls → c.tid < N

variable {cfg : Config} {s : System}

theorem Within.mono (h : s.Within N B) (hB : B ≤ B') : s.Within N B' where
  manager := h.manager.mono hB
  workers n hn := (h.workers n hn).mono hB
  requests src m hm := (h.requests src m hm).mono hB
  replies dst m hm := (h.replies dst m hm).mono hB

/-- The system starts with all times at most 1. -/
theorem within_start (hport : cfg.managerAddr.port < N) : (start cfg).Within N 1 where
  manager :=
    { port := hport
      clock := clockWithin_startClock hport
      saved := clockWithin_emptyClock (Nat.zero_lt_of_lt hport)
      tid := fun _ => Nat.zero_lt_of_lt hport
      nodeId := fun _ _ => Nat.zero_lt_of_lt hport
      log := by simp [start, Manager.start]
      abortTid := Nat.zero_lt_of_lt hport
      recNodeId := Nat.zero_lt_of_lt hport }
  workers n hn :=
    { nodeId := hn
      clock := clockWithin_startClock hn
      saved := clockWithin_startClock hn
      log := by simp [start, Worker.start]
      curTid := Nat.zero_lt_of_lt hn }
  requests _ _ h := absurd h List.not_mem_nil
  replies _ _ h := absurd h List.not_mem_nil

/-- A step of the manager adds 256 at most; its datagrams carry what it has sent. -/
theorem Within.managerStep (h : s.Within N B) {st : ManagerStimulus} {input : Manager.Input}
    {cut : Option ℕ} (hin : managerInput s.net st = some input) :
    (s.managerStep ⟨input, cut⟩).Within N (B + 256) := by
  have hinput : input.Within N B := by
    cases input with
    | message src m u => exact h.requests src m (mem_net_of_managerInput hin)
    | _ => trivial
  have hB : B ≤ B + 256 := Nat.le_add_right B 256
  have hperformed : ManagerEffect.AllWithin N (B + 256)
      (Manager.process.performed s.manager ⟨input, cut⟩) := by
    intro e he
    rcases Process.mem_performed he with he | rfl
    · exact Manager.allWithin_handle h.manager hinput e he
    · trivial
  refine
    { manager := (h.manager.mono hB).exec hperformed
      workers := fun n hn => (h.workers n hn).mono hB
      requests := fun src m hm => ?_
      replies := fun dst m hm => ?_ }
  · exact (h.requests src m
      ((List.mem_append.mp hm).resolve_right toManager_notMem_managerPacket)).mono hB
  · rcases List.mem_append.mp hm with hm | hm
    · exact (h.replies dst m hm).mono hB
    · exact hperformed _ (toWorker_mem_managerPacket hm)

/-- The same for a step of a worker, which adds less. -/
theorem Within.workerStep (h : s.Within N B) {n : NodeId} {st : WorkerStimulus} {input : Worker.Input}
    {cut : Option ℕ} (ha : ActWithin N (.worker n ⟨st, cut⟩))
    (hin : workerInput cfg n s.net st = some input) :
    (workerStep cfg s n ⟨input, cut⟩).Within N (B + 256) := by
  have hinput : input.Within N B := by
    cases input with
    | cmd c calls =>
        cases st with
        | cmd c' calls' =>
            cases hin
            exact ha.2 c calls rfl
        | deliver k =>
            simp only [workerInput] at hin
            split at hin
            · split at hin <;> simp at hin
            · simp at hin
        | pollTimeout => simp [workerInput] at hin
        | restart => simp [workerInput] at hin
    | manager src m => exact h.replies _ m (mem_net_of_workerInput hin)
    | _ => trivial
  have hB : B ≤ B + 256 := Nat.le_add_right B 256
  have hperformed : WorkerEffect.AllWithin N (B + 256)
      (Worker.process.performed (s.workers n) ⟨input, cut⟩) := by
    intro e he
    rcases Process.mem_performed he with he | rfl
    · exact (Worker.allWithin_handle (h.workers n ha.1) hinput).mono (by omega) e he
    · trivial
  refine
    { manager := h.manager.mono hB
      workers := ?_
      requests := fun src m hm => ?_
      replies := fun dst m hm => ?_ }
  · refine (Function.forall_update_iff s.workers fun n' (w : Worker) => n' < N → w.Within N (B + 256)).mpr
      ⟨fun hn => ?_, fun n' _ hn' => ?_⟩
    · exact ((h.workers n hn).mono hB).exec hperformed
    · exact (h.workers n' hn').mono hB
  · rcases List.mem_append.mp hm with hm | hm
    · exact (h.requests src m hm).mono hB
    · obtain ⟨-, dst, hsend⟩ := toManager_mem_workerPacket hm
      exact hperformed _ hsend
  · exact (h.replies dst m ((List.mem_append.mp hm).resolve_right toWorker_notMem_workerPacket)).mono hB

/-- **One step adds at most 256 to the times**, wherever it is cut off. -/
theorem Within.next {a : SystemAct} (h : s.Within N B) (ha : ActWithin N a) :
    (next cfg s a).Within N (B + 256) := by
  cases a with
  | manager a =>
      unfold System.next
      dsimp only
      split
      · exact h.managerStep ‹_›
      · exact h.mono (Nat.le_add_right B 256)
  | worker n a =>
      unfold System.next
      dsimp only
      split
      · exact h.workerStep ha ‹_›
      · exact h.mono (Nat.le_add_right B 256)

end System

end DistributedSystem.Transaction
