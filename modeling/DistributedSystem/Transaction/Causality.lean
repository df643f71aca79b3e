import DistributedSystem.Transaction.Addressing
import DistributedSystem.Transaction.Agreement
import DistributedSystem.Transaction.ClockDiscipline

/-!
# Vector clocks and causality in the transaction system

One manager that stays up and workers that crash at their `_exit` points or between two
inputs. No clock and no datagram knows more about a node than the node has saved, so the
logged clocks decide which of two events happened before the other, until a process has
written `2 ^ 32` lines and its time wraps.
-/

namespace DistributedSystem.Transaction

open DistributedSystem.Library

/-! ## Clocks after a handler -/

/-- The clock in memory and the one on disk after the observations. -/
def clocksAfter : VClock × VClock → List Obs → VClock × VClock
  | x, [] => x
  | x, .clock vc :: os => clocksAfter (vc, x.2) os
  | x, .save :: os => clocksAfter (x.1, x.1) os
  | x, .exit :: os => clocksAfter (emptyClock, x.2) os
  | x, _ :: os => clocksAfter x os

variable {p n : NodeId} {ph : Phase} {live saved vc : VClock} {os : List Obs} {S : Finset NodeId}
  {t t' : Trace} {m : TxMessage} {cause : ℕ} {P : VClock → Prop}

theorem Disciplined.clocksAfter_snd (h : Disciplined p ph live saved os) :
    (clocksAfter (live, saved) os).2 = lastClock live os := by
  induction os generalizing ph live saved with
  | nil => exact h.2
  | cons o os ih =>
      cases o with
      | clock vc => exact ih h.2.2
      | save => exact ih h
      | event e => exact ih h.2.2
      | send m => exact ih h.2.2
      | exit =>
          obtain ⟨-, rfl, rfl⟩ := h
          rfl
      | other => exact ih h

theorem Disciplined.clocksAfter_fst (h : Disciplined p ph live saved os) (hexit : .exit ∉ os) :
    (clocksAfter (live, saved) os).1 = lastClock live os := by
  induction os generalizing ph live saved with
  | nil => rfl
  | cons o os ih =>
      have hrest : .exit ∉ os := fun hmem => hexit (List.mem_cons_of_mem _ hmem)
      cases o with
      | clock vc => exact ih h.2.2 hrest
      | save => exact ih h hrest
      | event e => exact ih h.2.2 hrest
      | send m => exact ih h.2.2 hrest
      | exit => exact absurd (by simp) hexit
      | other => exact ih h hrest

/-- The clocks saved on the way satisfy `P`, the last clock is saved before the process waits,
    and nothing follows an exit. -/
def Settles (P : VClock → Prop) : VClock → VClock → List Obs → Prop
  | live, saved, [] => saved = live
  | _, saved, .clock vc :: os => Settles P vc saved os
  | live, _, .save :: os => P live ∧ Settles P live live os
  | _, _, .exit :: os => os = []
  | live, saved, _ :: os => Settles P live saved os

/-- A disciplined list only ticks, so it keeps what ticks keep. -/
theorem Disciplined.settles (hP : ∀ vc, P vc → P (tick p vc)) (hlive : P live)
    (h : Disciplined p ph live saved os) : Settles P live saved os := by
  induction os generalizing ph live saved with
  | nil => exact h.2
  | cons o os ih =>
      cases o with
      | clock vc =>
          obtain ⟨-, rfl, h⟩ := h
          exact ih (hP live hlive) h
      | save => exact ⟨hlive, ih hlive h⟩
      | event e => exact ih hlive h.2.2
      | send m => exact ih hlive h.2.2
      | exit => exact h.2.2
      | other => exact ih hlive h

/-- Nothing follows an exit. -/
theorem Settles.exit_last (h : Settles P live saved os) (hexit : .exit ∈ os) :
    ∃ os', os = os' ++ [.exit] := by
  induction os generalizing live saved with
  | nil => exact absurd hexit (by simp)
  | cons o os ih =>
      have hrest : ∀ {live saved}, o ≠ .exit → Settles P live saved os →
          ∃ os', o :: os = os' ++ [.exit] := by
        intro live saved hne h
        obtain ⟨os', rfl⟩ := ih h ((List.mem_cons.mp hexit).resolve_left (Ne.symm hne))
        exact ⟨o :: os', rfl⟩
      cases o with
      | clock vc => exact hrest (by simp) h
      | save => exact hrest (by simp) h.2
      | event e => exact hrest (by simp) h
      | send m => exact hrest (by simp) h
      | exit =>
          obtain rfl : os = [] := h
          exact ⟨[], rfl⟩
      | other => exact hrest (by simp) h

theorem Disciplined.exit_last (h : Disciplined p ph live saved os) (hexit : .exit ∈ os) :
    ∃ os', os = os' ++ [.exit] :=
  (h.settles (P := fun _ => True) (fun _ _ => trivial) trivial).exit_last hexit

namespace Worker

variable {w : Worker} {es : List WorkerEffect}

theorem clocks_exec (w : Worker) (es : List WorkerEffect) :
    ((process.exec w es).mem.myVectorClock, (process.exec w es).crashInfo.vectorClock) =
      clocksAfter (w.mem.myVectorClock, w.crashInfo.vectorClock) (es.map WorkerEffect.obs) := by
  induction es generalizing w with
  | nil => rfl
  | cons e es ih =>
      rw [Process.exec_cons, ih]
      cases e with
      | objClock i =>
          simp only [process_apply, apply]
          split <;> rfl
      | _ => rfl

/-- The lines of the ShiViz log are those of the history. -/
theorem shiviz_exec (w : Worker) (es : List WorkerEffect) :
    (process.exec w es).shiviz =
      w.shiviz ++ logged w.mem.myVectorClock (es.map WorkerEffect.obs) := by
  induction es generalizing w with
  | nil => simp [logged]
  | cons e es ih =>
      rw [Process.exec_cons, ih]
      cases e with
      | objClock i =>
          simp only [process_apply, apply]
          split <;> rfl
      | shiviz e => simp [apply, logged, WorkerEffect.obs]
      | _ => rfl

theorem length_shiviz_le (w : Worker) (es : List WorkerEffect) :
    w.shiviz.length ≤ (process.exec w es).shiviz.length := by
  rw [shiviz_exec, List.length_append]
  exact Nat.le_add_right _ _

/-- A worker whose effects end in an exit is down. -/
theorem down_of_exit_last {os : List Obs} (h : es.map WorkerEffect.obs = os ++ [.exit]) :
    (process.exec w es).mem.control = .down := by
  obtain ⟨es₁, es₂, rfl, -, hlast⟩ := List.map_eq_append_iff.mp h
  obtain ⟨e, rfl, he⟩ := List.map_eq_singleton_iff.mp hlast
  rw [Process.exec_append]
  cases e <;> first | rfl | cases he

end Worker

namespace Manager

variable {s : Manager} {es : List ManagerEffect}

theorem clocks_exec (s : Manager) (es : List ManagerEffect) :
    ((process.exec s es).mem.myVectorClock, (process.exec s es).vectorClock) =
      clocksAfter (s.mem.myVectorClock, s.vectorClock) (es.map ManagerEffect.obs) := by
  induction es generalizing s with
  | nil => rfl
  | cons e es ih =>
      rw [Process.exec_cons, ih]
      cases e <;> rfl

theorem shiviz_exec (s : Manager) (es : List ManagerEffect) :
    (process.exec s es).shiviz =
      s.shiviz ++ logged s.mem.myVectorClock (es.map ManagerEffect.obs) := by
  induction es generalizing s with
  | nil => simp [logged]
  | cons e es ih =>
      rw [Process.exec_cons, ih]
      cases e with
      | shiviz e => simp [apply, logged, ManagerEffect.obs]
      | _ => rfl

theorem length_shiviz_le (s : Manager) (es : List ManagerEffect) :
    s.shiviz.length ≤ (process.exec s es).shiviz.length := by
  rw [shiviz_exec, List.length_append]
  exact Nat.le_add_right _ _

theorem down_of_exit_last {os : List Obs} (h : es.map ManagerEffect.obs = os ++ [.exit]) :
    (process.exec s es).mem.up = false := by
  obtain ⟨es₁, es₂, rfl, -, hlast⟩ := List.map_eq_append_iff.mp h
  obtain ⟨e, rfl, he⟩ := List.map_eq_singleton_iff.mp hlast
  rw [Process.exec_append]
  cases e <;> first | rfl | cases he

end Manager

/-! ## The clock of a datagram that is received -/

theorem Fits.merge (hroom : S.card ≤ maxNodes) (h : Fits S vc) (hm : Fits S m.vectorClock) :
    Fits S (mergeVectorClock vc m) ∧ ids vc ⊆ ids (mergeVectorClock vc m) ∧
      ∀ q, timeOf (mergeVectorClock vc m) q = max (timeOf vc q) (timeOf m.vectorClock q) := by
  have hunion := Finset.union_subset h.subset hm.subset
  obtain ⟨hpacked, hids, htime⟩ := mergeVectorClock_spec h.packed hm.packed
    ((Finset.card_le_card hunion).trans hroom)
  refine ⟨⟨hpacked, hids ▸ hunion⟩, ?_, htime⟩
  rw [hids]
  exact Finset.subset_union_left

/-- What a datagram that is handled says about the history. -/
structure Arrives (S : Finset NodeId) (t : Trace) (m : TxMessage) (cause : ℕ) : Prop where
  carries : Carries t m cause
  fits : Fits S m.vectorClock

/-- No datagram knows more about a node than the node itself. -/
theorem Arrives.le_known (hsound : t.Sound S) (hm : Arrives S t m cause) (p : NodeId) :
    timeOf m.vectorClock p ≤ known stampTime t.events p p := by
  obtain ⟨sender, hsender, hclock⟩ := hm.carries
  rw [← hclock]
  exact hsound.stamped.le_known hsender p

/-- A worker merges and then ticks. -/
theorem Worker.received_spec {w : Worker} (hroom : S.card ≤ maxNodes) (hsound : t.Sound S)
    (h : Current S w.nodeId w.mem.myVectorClock t) (hm : Arrives S t m cause)
    (hfew : (t.log w.nodeId).length + 1 < 2 ^ 32) :
    Fits S (w.receivedClock m) ∧ w.nodeId ∈ ids (w.receivedClock m) ∧
      ∀ q, timeOf (w.receivedClock m) q =
        max (known stampTime t.events w.nodeId q) (timeOf m.vectorClock q) +
          if q = w.nodeId then 1 else 0 := by
  obtain ⟨hfits, hsub, htime⟩ := h.fits.merge hroom hm.fits
  have hown := hsub h.own
  have hword : timeOf (mergeVectorClock w.mem.myVectorClock m) w.nodeId + 1 < 2 ^ 32 := by
    have hbound := hm.le_known hsound w.nodeId
    rw [htime, h.time, ite_self, add_zero, max_eq_left hbound, hsound.known_own]
    exact hfew
  unfold receivedClock
  refine ⟨hfits.tick hown, ?_, fun q => ?_⟩
  · rw [ids_tick hfits.packed hown]
    exact hown
  · rw [timeOf_tick hfits.packed hown hword, htime, h.time]
    simp

/-- The manager ticks and then merges, which comes to the same: no datagram knows more about
    the manager than the manager itself. -/
theorem Manager.received_spec {s : Manager} (hroom : S.card ≤ maxNodes) (hsound : t.Sound S)
    (h : Current S s.port s.mem.myVectorClock t) (hm : Arrives S t m cause)
    (hfew : (t.log s.port).length + 1 < 2 ^ 32) :
    Fits S (s.receivedClock m) ∧ s.port ∈ ids (s.receivedClock m) ∧
      ∀ q, timeOf (s.receivedClock m) q =
        max (known stampTime t.events s.port q) (timeOf m.vectorClock q) +
          if q = s.port then 1 else 0 := by
  have htick := h.tick hsound hfew
  obtain ⟨hfits, hsub, htime⟩ := htick.fits.merge hroom hm.fits
  refine ⟨hfits, hsub htick.own, fun q => ?_⟩
  unfold receivedClock
  rw [htime, htick.time]
  by_cases hq : q = s.port
  · subst hq
    have hbound := hm.le_known hsound s.port
    simp only [if_true]
    omega
  · simp [hq]

/-! ## One step of a node -/

/-- A worker whose effects are disciplined from some point on ends with its clock on disk,
    and in memory unless it is down. -/
theorem Worker.settled {w : Worker} {es : List WorkerEffect} (pre : List Obs)
    (hd : Disciplined p ph live saved os) (hobs : es.map WorkerEffect.obs = pre ++ os)
    (hpre : clocksAfter (w.mem.myVectorClock, w.crashInfo.vectorClock) (pre ++ os) =
      clocksAfter (live, saved) os) :
    (process.exec w es).crashInfo.vectorClock = lastClock live os ∧
      ((process.exec w es).mem.control ≠ .down →
        (process.exec w es).mem.myVectorClock = lastClock live os) := by
  have hclocks := clocks_exec w es
  rw [hobs, hpre] at hclocks
  refine ⟨(congrArg Prod.snd hclocks).trans hd.clocksAfter_snd, fun hup => ?_⟩
  refine (congrArg Prod.fst hclocks).trans (hd.clocksAfter_fst fun hexit => hup ?_)
  obtain ⟨os', rfl⟩ := hd.exit_last hexit
  exact down_of_exit_last (hobs.trans (List.append_assoc pre os' [.exit]).symm)

/-- A worker handles an input to its end. -/
theorem Worker.recorded {w : Worker} {input : Worker.Input} {cause : Option ℕ}
    (hroom : S.card ≤ maxNodes) (hsound : t.Sound S)
    (hsaved : Current S w.nodeId w.crashInfo.vectorClock t)
    (hlive : w.mem.control ≠ .down → w.mem.myVectorClock = w.crashInfo.vectorClock)
    (haccepts : w.accepts input)
    (hmessage : ∀ src m, input = .manager src m →
      (m.msgID = .prepareCommit → m.nodeId = w.nodeId) ∧ ∃ k, cause = some k ∧ Arrives S t m k)
    (hfew : ((t.record w.nodeId cause w.mem.myVectorClock
      ((w.handle input).map WorkerEffect.obs)).log w.nodeId).length < 2 ^ 32) :
    Recorded S w.nodeId (process.exec w (w.handle input)).crashInfo.vectorClock
        (sent ((w.handle input).map WorkerEffect.obs)) t
        (t.record w.nodeId cause w.mem.myVectorClock ((w.handle input).map WorkerEffect.obs)) ∧
      ((process.exec w (w.handle input)).mem.control ≠ .down →
        (process.exec w (w.handle input)).mem.myVectorClock =
          (process.exec w (w.handle input)).crashInfo.vectorClock) := by
  -- an input that is not a datagram, handled on the clock in memory
  have hidle : w.mem.control ≠ .down →
      Disciplined w.nodeId .idle w.mem.myVectorClock w.mem.myVectorClock
        ((w.handle input).map WorkerEffect.obs) →
      Recorded S w.nodeId (process.exec w (w.handle input)).crashInfo.vectorClock
          (sent ((w.handle input).map WorkerEffect.obs)) t
          (t.record w.nodeId cause w.mem.myVectorClock ((w.handle input).map WorkerEffect.obs)) ∧
        ((process.exec w (w.handle input)).mem.control ≠ .down →
          (process.exec w (w.handle input)).mem.myVectorClock =
            (process.exec w (w.handle input)).crashInfo.vectorClock) := by
    intro hup hd
    rw [hlive hup] at hd hfew ⊢
    obtain ⟨hdisk, hmem⟩ := settled (w := w) [] hd rfl (by rw [hlive hup, List.nil_append])
    rw [hdisk]
    exact ⟨Trace.record_spec hd hsound hsaved hfew, hmem⟩
  cases input with
  | cmd m calls =>
      refine hidle ?_ (disciplined_cmd w m calls)
      rw [haccepts]
      simp
  | pollTimeout =>
      refine hidle haccepts.1 ?_
      simp only [handle]
      split
      · exact disciplined_poll w _
      · exact ⟨by simp, rfl⟩
  | restart =>
      obtain ⟨os, hobs, hd⟩ := disciplined_restart w
      obtain ⟨hdisk, hmem⟩ := settled [.clock w.crashInfo.vectorClock] hd hobs rfl
      show Recorded _ _ (process.exec w w.restart).crashInfo.vectorClock
        (sent (w.restart.map WorkerEffect.obs)) _ (t.record _ _ _ (w.restart.map WorkerEffect.obs)) ∧ _
      change ((t.record _ _ _ (w.restart.map WorkerEffect.obs)).log _).length < _ at hfew
      rw [hobs] at hfew ⊢
      refine ⟨?_, fun hup => (hmem hup).trans hdisk.symm⟩
      rw [hdisk]
      exact Trace.record_spec hd hsound hsaved hfew
  | manager src m =>
      obtain ⟨hid, k, rfl, harrives⟩ := hmessage src m rfl
      obtain ⟨os, hobs, hd⟩ := disciplined_manager w src hid
      have hcurrent : Current S w.nodeId w.mem.myVectorClock t := by
        rw [hlive haccepts]
        exact hsaved
      rw [hobs] at hfew
      obtain ⟨hfits, hown, htime⟩ :=
        received_spec hroom hsound hcurrent harrives (Trace.log_received hfew)
      obtain ⟨sender, hsender, hclock⟩ := harrives.carries
      rw [← hclock] at htime
      obtain ⟨hdisk, hmem⟩ := settled _ hd hobs rfl
      rw [hobs, hdisk]
      exact ⟨Trace.record_receive rfl hsound hsender hfits hown htime hd hfew, hmem⟩

/-- The same for a manager that stays up. -/
theorem Manager.settled {s : Manager} {es : List ManagerEffect} (pre : List Obs)
    (hd : Disciplined p ph live saved os) (hobs : es.map ManagerEffect.obs = pre ++ os)
    (hpre : (clocksAfter (s.mem.myVectorClock, s.vectorClock) (pre ++ os)).1 =
      (clocksAfter (live, saved) os).1)
    (hup : (process.exec s es).mem.up = true) :
    (process.exec s es).mem.myVectorClock = lastClock live os := by
  have hclock := congrArg Prod.fst (clocks_exec s es)
  rw [hobs, hpre] at hclock
  refine hclock.trans (hd.clocksAfter_fst fun hexit => ?_)
  obtain ⟨os', rfl⟩ := hd.exit_last hexit
  have hdown := down_of_exit_last (s := s) (hobs.trans (List.append_assoc pre os' [.exit]).symm)
  rw [hup] at hdown
  exact absurd hdown (by simp)

/-- The clock in memory does not depend on the one on disk. -/
theorem clocksAfter_fst_congr {saved' : VClock} (os : List Obs) :
    (clocksAfter (live, saved) os).1 = (clocksAfter (live, saved') os).1 := by
  induction os generalizing live saved saved' with
  | nil => rfl
  | cons o os ih =>
      cases o <;> exact ih

/-- The manager handles a message or a timeout and stays up. -/
theorem Manager.recorded {s : Manager} {input : Manager.Input} {cause : Option ℕ}
    (hroom : S.card ≤ maxNodes) (hsound : t.Sound S)
    (hlive : Current S s.port s.mem.myVectorClock t) (hrestart : input ≠ .restart)
    (hup : (process.exec s (s.handle input)).mem.up = true)
    (hmessage : ∀ src m u, input = .message src m u → ∃ k, cause = some k ∧ Arrives S t m k)
    (hfew : ((t.record s.port cause s.mem.myVectorClock
      ((s.handle input).map ManagerEffect.obs)).log s.port).length < 2 ^ 32) :
    Recorded S s.port (process.exec s (s.handle input)).mem.myVectorClock
      (sent ((s.handle input).map ManagerEffect.obs)) t
      (t.record s.port cause s.mem.myVectorClock ((s.handle input).map ManagerEffect.obs)) := by
  cases input with
  | restart => exact absurd rfl hrestart
  | timeout =>
      have hd : Disciplined s.port .idle s.mem.myVectorClock s.mem.myVectorClock
          ((s.handle .timeout).map ManagerEffect.obs) := disciplined_voteTimeout s
      rw [settled [] hd rfl (clocksAfter_fst_congr _) hup]
      exact Trace.record_spec hd hsound hlive hfew
  | message src m u =>
      obtain ⟨k, rfl, harrives⟩ := hmessage src m u rfl
      obtain ⟨os, hobs, hd⟩ := disciplined_message s src m u
      change (s.handle (.message src m u)).map ManagerEffect.obs = _ at hobs
      rw [hobs] at hfew
      obtain ⟨hfits, hown, htime⟩ :=
        received_spec hroom hsound hlive harrives (Trace.log_received hfew)
      obtain ⟨sender, hsender, hclock⟩ := harrives.carries
      rw [← hclock] at htime
      rw [settled _ hd hobs rfl hup, hobs]
      exact Trace.record_receive rfl hsound hsender hfits hown htime hd hfew

/-! ## The start -/

section Start

variable {ps : List NodeId} {q : NodeId}

theorem nodeId_startClock (p : NodeId) (i : Fin maxNodes) :
    (startClock p i).nodeId = if i = 0 then p else 0 := by
  unfold startClock
  split <;> rfl

theorem packed_startClock (p : NodeId) : Packed (startClock p) where
  distinct i j hi hij := by
    simp only [nodeId_startClock] at hi hij
    by_cases hi0 : i = 0
    · by_cases hj0 : j = 0
      · rw [hi0, hj0]
      · rw [if_pos hi0, if_neg hj0] at hij
        rw [if_pos hi0] at hi
        exact absurd hij hi
    · exact absurd (if_neg hi0) hi
  initial i j hij hi := by
    rw [nodeId_startClock] at hi ⊢
    by_cases hj0 : j = 0
    · subst hj0
      rw [Fin.le_zero_iff.mp hij] at hi
      exact hi
    · exact if_neg hj0

theorem mem_ids_startClock (hp : p ≠ 0) : q ∈ ids (startClock p) ↔ q = p := by
  rw [mem_ids]
  constructor
  · rintro ⟨hq, i, hi⟩
    rw [nodeId_startClock] at hi
    split at hi
    · exact hi.symm
    · exact absurd hi.symm hq
  · rintro rfl
    exact ⟨hp, 0, rfl⟩

theorem timeOf_startClock (hp : p ≠ 0) : timeOf (startClock p) q = if q = p then 1 else 0 := by
  by_cases hq : q = p
  · subst hq
    have hfirst : (startClock q 0).nodeId = q := rfl
    rw [if_pos rfl, (packed_startClock q).timeOf_eq hfirst hp]
    rfl
  · rw [if_neg hq, timeOf_of_notMem fun hmem => hq ((mem_ids_startClock hp).mp hmem)]

/-- The start lines obey the rule of vector clocks. -/
theorem stamped_start (hps : ps.Nodup) (h0 : 0 ∉ ps) : Stamped stampTime (Trace.start ps).events ∧
    ∀ p ∈ ps, ∀ q, known stampTime (Trace.start ps).events p q = if q = p then 1 else 0 := by
  have hne : ∀ p ∈ ps, p ≠ 0 := by
    rintro p hp rfl
    exact h0 hp
  exact stamped_of_starts hps fun p hp q => timeOf_startClock (hne p hp)

theorem sound_start (hps : ps.Nodup) (h0 : 0 ∉ ps) : (Trace.start ps).Sound ps.toFinset ∧
    ∀ p ∈ ps, Current ps.toFinset p (startClock p) (Trace.start ps) := by
  have hne : ∀ p ∈ ps, p ≠ 0 := fun p hp hp0 => h0 (hp0 ▸ hp)
  have hfits : ∀ p ∈ ps, Fits ps.toFinset (startClock p) := by
    intro p hp
    refine ⟨packed_startClock p, fun q hq => ?_⟩
    rw [(mem_ids_startClock (hne p hp)).mp hq]
    exact List.mem_toFinset.mpr hp
  obtain ⟨hstamped, hknown⟩ := stamped_start hps h0
  refine ⟨⟨hstamped, fun e he => ?_⟩, fun p hp => ⟨hfits p hp, ?_, fun q => ?_⟩⟩
  · obtain ⟨p, hp, rfl⟩ := List.mem_map.mp he
    exact hfits p hp
  · exact (mem_ids_startClock (hne p hp)).mpr rfl
  · rw [hknown p hp, timeOf_startClock (hne p hp)]
    simp

theorem log_start (hps : ps.Nodup) (hp : p ∈ ps) :
    (Trace.start ps).log p = [(.start, startClock p)] := by
  have hfilter : ps.filter (fun q => q = p) = [p] := by
    rw [List.filter_eq, List.count_eq_one_of_mem hps hp]
    rfl
  rw [Trace.log, Trace.start, List.filter_map, List.map_map]
  simp [Function.comp_def, hfilter]

end Start

/-! ## The system -/

namespace System

/-- The message of a datagram. -/
def message : Packet → TxMessage
  | .toManager _ m | .toWorker _ m => m

/-- The processes: the manager and the workers `ws`. -/
def nodes (cfg : Config) (ws : List NodeId) : List NodeId := cfg.managerAddr.port :: ws

/-- Only the workers `ws` take part, and they crash between two inputs or at an `_exit`. -/
def AmongWorkers (ws : List NodeId) (_ : System) : SystemAct → Prop
  | .manager _ => True
  | .worker n a => n ∈ ws ∧ (a.cut = none ∨ a.cut = some 0)

instance (ws : List NodeId) (s : System) : ∀ a, Decidable (AmongWorkers ws s a)
  | .manager _ => isTrue trivial
  | .worker _ _ => inferInstanceAs (Decidable (_ ∧ _))

/-- Neither the manager nor a worker of `ws` has written `2 ^ 32` lines. -/
def FewLines (ws : List NodeId) (s : System) : Prop :=
  s.manager.shiviz.length < 2 ^ 32 ∧ ∀ n ∈ ws, (s.workers n).shiviz.length < 2 ^ 32

instance (ws : List NodeId) (s : System) : Decidable (FewLines ws s) :=
  inferInstanceAs (Decidable (_ ∧ _))

/-- The history agrees with the clocks of all nodes and of all datagrams. -/
structure CausalInv (cfg : Config) (ws : List NodeId) (x : System × Trace) : Prop where
  addressed : Addressed cfg x.1
  sound : x.2.Sound (nodes cfg ws).toFinset
  carried : List.Forall₂ (Carries x.2) (x.1.net.map message) x.2.origins
  port : x.1.manager.port = cfg.managerAddr.port
  up : x.1.manager.mem.up = true
  manager : Current (nodes cfg ws).toFinset x.1.manager.port x.1.manager.mem.myVectorClock x.2
  saved : ∀ n ∈ ws,
    Current (nodes cfg ws).toFinset n (x.1.workers n).crashInfo.vectorClock x.2
  live : ∀ n ∈ ws, (x.1.workers n).mem.control ≠ .down →
    (x.1.workers n).mem.myVectorClock = (x.1.workers n).crashInfo.vectorClock
  managerLog : x.2.log x.1.manager.port = x.1.manager.shiviz
  workerLogs : ∀ n ∈ ws, x.2.log n = (x.1.workers n).shiviz

variable {cfg : Config} {ws : List NodeId} {s : System} {k : ℕ}

theorem causalInv_start (cfg : Config) (hnodup : (nodes cfg ws).Nodup) (h0 : 0 ∉ nodes cfg ws) :
    CausalInv cfg ws (start cfg, Trace.start (nodes cfg ws)) := by
  obtain ⟨hsound, hcurrent⟩ := sound_start hnodup h0
  have hworker : ∀ n ∈ ws, n ∈ nodes cfg ws := fun n hn => List.mem_cons_of_mem _ hn
  exact
    { addressed := addressed_start cfg
      sound := hsound
      carried := .nil
      port := rfl
      up := rfl
      manager := hcurrent _ List.mem_cons_self
      saved := fun n hn => hcurrent n (hworker n hn)
      live := fun _ _ _ => rfl
      managerLog := log_start hnodup List.mem_cons_self
      workerLogs := fun n hn => log_start hnodup (hworker n hn) }

theorem sent_managerPacket (es : List ManagerEffect) :
    (es.filterMap managerPacket).map message = sent (es.map ManagerEffect.obs) := by
  induction es with
  | nil => rfl
  | cons e es ih =>
      cases e with
      | send dst m =>
          show m :: (es.filterMap managerPacket).map message = m :: sent (es.map ManagerEffect.obs)
          rw [ih]
      | _ => exact ih

theorem sent_workerPacket (n : NodeId) (es : List WorkerEffect) :
    (es.filterMap (workerPacket cfg n)).map message = sent (es.map WorkerEffect.obs) := by
  induction es with
  | nil => rfl
  | cons e es ih =>
      cases e with
      | send dst m =>
          show m :: (es.filterMap (workerPacket cfg n)).map message =
            m :: sent (es.map WorkerEffect.obs)
          rw [ih]
      | _ => exact ih

/-- A datagram on the net has an origin whose clock it carries. -/
theorem arrives_of_net (hsound : t.Sound S) {net : List Packet} {packet : Packet}
    (hcarried : List.Forall₂ (Carries t) (net.map message) t.origins)
    (hk : net[k]? = some packet) :
    ∃ o, t.origins[k]? = some o ∧ Arrives S t (message packet) o := by
  obtain ⟨hlen, hget⟩ := List.forall₂_iff_get.mp hcarried
  obtain ⟨hlt, hpacket⟩ := List.getElem?_eq_some_iff.mp hk
  rw [List.length_map] at hlen
  have hcarries := hget k (by simpa using hlt) (hlen ▸ hlt)
  simp only [List.get_eq_getElem, List.getElem_map, hpacket] at hcarries
  refine ⟨_, List.getElem?_eq_getElem (hlen ▸ hlt), hcarries, ?_⟩
  obtain ⟨e, he, hclock⟩ := hcarries
  rw [← hclock]
  exact hsound.fits e (List.mem_of_getElem? he)

/-- A worker handles an input to its end. -/
theorem CausalInv.workerStep {n : NodeId} {st : WorkerStimulus} {input : Worker.Input}
    (hnodup : (nodes cfg ws).Nodup) (hroom : (nodes cfg ws).length ≤ maxNodes)
    (h : CausalInv cfg ws (s, t)) (hn : n ∈ ws) (hn0 : n ≠ 0)
    (hin : workerInput cfg n s.net st = some input) (hacc : (s.workers n).accepts input)
    (hfew : FewLines ws (System.workerStep cfg s n ⟨input, none⟩)) :
    CausalInv cfg ws (System.workerStep cfg s n ⟨input, none⟩,
      t.record n (workerCause t st) (s.workers n).mem.myVectorClock
        (((s.workers n).handle input).map WorkerEffect.obs)) := by
  have hid := h.addressed.nodeIds n
  have hcard : (nodes cfg ws).toFinset.card ≤ maxNodes := (List.toFinset_card_le _).trans hroom
  have hmessage : ∀ src m, input = .manager src m →
      (m.msgID = .prepareCommit → m.nodeId = (s.workers n).nodeId) ∧
        ∃ k, workerCause t st = some k ∧ Arrives (nodes cfg ws).toFinset t m k := by
    rintro src m rfl
    obtain ⟨k, rfl, hk⟩ := deliver_of_workerInput hin
    refine ⟨fun hprepare => ?_, arrives_of_net h.sound h.carried hk⟩
    have haddr := (h.addressed.prepares _ m (List.mem_of_getElem? hk) hprepare).2
    exact (cfg.workerAddr_injective haddr).symm.trans hid.symm
  have hself : (System.workerStep cfg s n ⟨input, none⟩).workers n =
      Worker.process.exec (s.workers n) ((s.workers n).handle input) := Function.update_self _ _ _
  -- the history of the worker stays its log
  have hlog : (t.record n (workerCause t st) (s.workers n).mem.myVectorClock
      (((s.workers n).handle input).map WorkerEffect.obs)).log n =
      ((System.workerStep cfg s n ⟨input, none⟩).workers n).shiviz := by
    rw [Trace.log_record, if_pos rfl, hself, Worker.shiviz_exec, h.workerLogs n hn]
  obtain ⟨hrecorded, hlive⟩ := Worker.recorded hcard h.sound (hid.symm ▸ h.saved n hn) (h.live n hn)
    hacc hmessage (by rw [hid, hlog]; exact hfew.2 n hn)
  rw [hid] at hrecorded
  have hmgr : s.manager.port ≠ n := by
    intro hport
    exact (List.nodup_cons.mp hnodup).1 (h.port.symm.trans hport ▸ hn)
  have hother : ∀ n', n' ≠ n → (System.workerStep cfg s n ⟨input, none⟩).workers n' = s.workers n' :=
    fun n' hne => Function.update_of_ne hne _ _
  refine
    { addressed := h.addressed.workerStep hn0 hin
      sound := hrecorded.sound
      carried := ?_
      port := h.port
      up := h.up
      manager := hrecorded.current_of_ne hmgr h.manager
      saved := fun n' hn' => ?_
      live := fun n' hn' => ?_
      managerLog := ?_
      workerLogs := fun n' hn' => ?_ }
  · show List.Forall₂ _ ((s.net ++ _).map message) _
    rw [List.map_append, sent_workerPacket]
    exact hrecorded.carried h.carried
  · by_cases hne : n' = n
    · subst hne
      rw [hself]
      exact hrecorded.current
    · rw [hother n' hne]
      exact hrecorded.current_of_ne hne (h.saved n' hn')
  · by_cases hne : n' = n
    · subst hne
      rw [hself]
      exact hlive
    · rw [hother n' hne]
      exact h.live n' hn'
  · show Trace.log _ s.manager.port = s.manager.shiviz
    rw [Trace.log_record, if_neg hmgr, List.append_nil]
    exact h.managerLog
  · by_cases hne : n' = n
    · subst hne
      exact hlog
    · rw [Trace.log_record, hother n' hne, if_neg hne, List.append_nil]
      exact h.workerLogs n' hn'

/-- A worker crashes before it handles an input. -/
theorem CausalInv.workerCrash {n : NodeId} {st : WorkerStimulus} {input : Worker.Input}
    (h : CausalInv cfg ws (s, t)) (hn0 : n ≠ 0) (hin : workerInput cfg n s.net st = some input) :
    CausalInv cfg ws (System.workerStep cfg s n ⟨input, some 0⟩, t) := by
  have hnet : (System.workerStep cfg s n ⟨input, some 0⟩).net = s.net := List.append_nil _
  have hdisk : ∀ n', ((System.workerStep cfg s n ⟨input, some 0⟩).workers n').crashInfo =
      (s.workers n').crashInfo ∧
      ((System.workerStep cfg s n ⟨input, some 0⟩).workers n').shiviz = (s.workers n').shiviz := by
    intro n'
    by_cases hne : n' = n
    · subst hne
      have hself : (System.workerStep cfg s n' ⟨input, some 0⟩).workers n' =
          (s.workers n').apply .exit := Function.update_self _ _ _
      rw [hself]
      exact ⟨rfl, rfl⟩
    · have hother : (System.workerStep cfg s n ⟨input, some 0⟩).workers n' = s.workers n' :=
        Function.update_of_ne hne _ _
      rw [hother]
      exact ⟨rfl, rfl⟩
  refine
    { addressed := h.addressed.workerStep hn0 hin
      sound := h.sound
      carried := hnet.symm ▸ h.carried
      port := h.port
      up := h.up
      manager := h.manager
      saved := fun n' hn' => (hdisk n').1.symm ▸ h.saved n' hn'
      live := fun n' hn' hup => ?_
      managerLog := h.managerLog
      workerLogs := fun n' hn' => (h.workerLogs n' hn').trans (hdisk n').2.symm }
  by_cases hne : n' = n
  · -- it is down
    subst hne
    simp only [System.workerStep, Function.update_self] at hup
    exact absurd rfl hup
  · simp only [System.workerStep, Function.update_of_ne hne] at hup ⊢
    exact h.live n' hn' hup

/-- A step of the manager that it survives. -/
theorem CausalInv.managerStep {st : ManagerStimulus} {input : Manager.Input}
    (hnodup : (nodes cfg ws).Nodup) (hroom : (nodes cfg ws).length ≤ maxNodes)
    (h : CausalInv cfg ws (s, t))
    (hin : managerInput s.net st = some input) (hacc : s.manager.accepts input)
    (hup : (s.managerStep ⟨input, none⟩).manager.mem.up = true)
    (hfew : FewLines ws (s.managerStep ⟨input, none⟩)) :
    CausalInv cfg ws (s.managerStep ⟨input, none⟩,
      t.record s.manager.port (managerCause t st) s.manager.mem.myVectorClock
        ((s.manager.handle input).map ManagerEffect.obs)) := by
  have hcard : (nodes cfg ws).toFinset.card ≤ maxNodes := (List.toFinset_card_le _).trans hroom
  -- the port of the manager is the id of no worker
  have hmgr : ∀ n ∈ ws, n ≠ s.manager.port := by
    intro n hn hport
    exact (List.nodup_cons.mp hnodup).1 (hport.trans h.port ▸ hn)
  -- a manager that is up is not started again
  have hrestart : input ≠ .restart := by
    rintro rfl
    have hdown : s.manager.mem.up = false := hacc
    rw [h.up] at hdown
    exact absurd hdown (by simp)
  -- a datagram has an origin, which becomes the cause
  have hmessage : ∀ src m u, input = .message src m u →
      ∃ k, managerCause t st = some k ∧ Arrives (nodes cfg ws).toFinset t m k := by
    rintro src m u rfl
    obtain ⟨k, rfl, hk⟩ := deliver_of_managerInput hin
    exact arrives_of_net h.sound h.carried hk
  -- the history of the manager stays its log
  have hlog : (t.record s.manager.port (managerCause t st) s.manager.mem.myVectorClock
      ((s.manager.handle input).map ManagerEffect.obs)).log s.manager.port =
      (s.managerStep ⟨input, none⟩).manager.shiviz := by
    rw [Trace.log_record, if_pos rfl, h.managerLog]
    exact (Manager.shiviz_exec s.manager _).symm
  have hrecorded := Manager.recorded hcard h.sound h.manager hrestart hup hmessage
    (by rw [hlog]; exact hfew.1)
  have hport : (s.managerStep ⟨input, none⟩).manager.port = s.manager.port :=
    Manager.port_exec s.manager _
  refine
    { addressed := h.addressed.managerStep hin
      sound := hrecorded.sound
      carried := ?_
      port := hport.trans h.port
      up := hup
      manager := hport.symm ▸ hrecorded.current
      saved := fun n hn => hrecorded.current_of_ne (hmgr n hn) (h.saved n hn)
      live := h.live
      managerLog := ?_
      workerLogs := fun n hn => ?_ }
  · show List.Forall₂ _ ((s.net ++ _).map message) _
    rw [List.map_append, sent_managerPacket]
    exact hrecorded.carried h.carried
  · show Trace.log _ (s.managerStep ⟨input, none⟩).manager.port = _
    rw [hport]
    exact hlog
  · rw [Trace.log_record, if_neg (hmgr n hn), List.append_nil]
    exact h.workerLogs n hn

/-- No line is ever taken away. -/
theorem FewLines.of_next {a : SystemAct} (hrun : enabled cfg s a) (h : FewLines ws (next cfg s a)) :
    FewLines ws s := by
  cases a with
  | manager a =>
      obtain ⟨input, hin, -⟩ := hrun
      rw [next_manager hin] at h
      exact ⟨(Manager.length_shiviz_le _ _).trans_lt h.1, h.2⟩
  | worker n a =>
      obtain ⟨-, input, hin, -⟩ := hrun
      rw [next_worker hin] at h
      refine ⟨h.1, fun n' hn' => ?_⟩
      have hend := h.2 n' hn'
      by_cases hne : n' = n
      · subst hne
        simp only [System.workerStep, Function.update_self] at hend
        exact (Worker.length_shiviz_le _ _).trans_lt hend
      · simpa only [System.workerStep, Function.update_of_ne hne] using hend

theorem causalInv_step {a : SystemAct} (hnodup : (nodes cfg ws).Nodup)
    (hroom : (nodes cfg ws).length ≤ maxNodes) {x : System × Trace} (h : CausalInv cfg ws x)
    (hrun : enabled cfg x.1 a) (hup : StaysUp cfg x.1 a) (hws : AmongWorkers ws x.1 a)
    (hfew : FewLines ws (next cfg x.1 a)) :
    CausalInv cfg ws ((observed cfg).next x a) := by
  obtain ⟨s, t⟩ := x
  cases a with
  | manager a =>
      obtain ⟨input, hin, hacc⟩ := hrun
      rw [StaysUp, next_manager hin] at hup
      rw [next_manager hin] at hfew
      -- a crash would leave the manager down
      have hcut : a.cut = none := cut_eq_none hup
      have hobserve : (observed cfg).next (s, t) (.manager a) = (s.managerStep ⟨input, none⟩,
          t.record s.manager.port (managerCause t a.input) s.manager.mem.myVectorClock
            ((s.manager.handle input).map ManagerEffect.obs)) := by
        show (next cfg s (.manager a), observe cfg s (.manager a) t) = _
        rw [next_manager hin, observe]
        simp only [Option.mem_def.mp hin, hcut]
        rfl
      rw [hobserve]
      rw [hcut] at hup hfew
      exact h.managerStep hnodup hroom hin hacc hup hfew
  | worker n a =>
      obtain ⟨hn0, input, hin, hacc⟩ := hrun
      obtain ⟨hn, hcut⟩ := hws
      have hnext : (observed cfg).next (s, t) (.worker n a) =
          (System.workerStep cfg s n ⟨input, a.cut⟩,
            t.record n (workerCause t a.input) (s.workers n).mem.myVectorClock
              ((Worker.process.performed (s.workers n) ⟨input, a.cut⟩).map WorkerEffect.obs)) := by
        show (next cfg s (.worker n a), observe cfg s (.worker n a) t) = _
        simp only [next, observe, Option.mem_def.mp hin]
      rw [hnext]
      rcases hcut with hcut | hcut
      · rw [next_worker hin, hcut] at hfew
        rw [hcut]
        exact h.workerStep hnodup hroom hn hn0 hin hacc hfew
      · rw [hcut]
        exact h.workerCrash hn0 hin

/-- **Run lemma**: the history agrees with the clocks until a process has written too much. -/
theorem causalInv_after {as : List SystemAct} (hnodup : (nodes cfg ws).Nodup)
    (h0 : 0 ∉ nodes cfg ws) (hroom : (nodes cfg ws).length ≤ maxNodes)
    (hrun : (machine cfg).Along (enabled cfg) (start cfg) as)
    (hup : (machine cfg).Along (StaysUp cfg) (start cfg) as)
    (hws : (machine cfg).Along (AmongWorkers ws) (start cfg) as)
    (hfew : FewLines ws ((machine cfg).after (start cfg) as)) :
    CausalInv cfg ws ((observed cfg).after (start cfg, Trace.start (nodes cfg ws)) as) := by
  have hall := Machine.along_and.mpr ⟨hrun, Machine.along_and.mpr ⟨hup, hws⟩⟩
  refine Machine.Along.invariant (I := fun y => FewLines ws y.1 → CausalInv cfg ws y)
    (Machine.along_watch.mpr hall) (fun _ => causalInv_start cfg hnodup h0)
    (fun y a hy hC hfew => ?_) ?_
  · exact causalInv_step hnodup hroom (hy (hfew.of_next hC.1)) hC.1 hC.2.1 hC.2.2 hfew
  · rw [show ((observed cfg).after (start cfg, Trace.start (nodes cfg ws)) as).1 = _ from
      Machine.watch_after_fst as]
    exact hfew

/-- The history consists of the ShiViz logs of the manager and of the workers `ws`. -/
def Logs (cfg : Config) (ws : List NodeId) (s : System) (t : Trace) : Prop :=
  t.log cfg.managerAddr.port = s.manager.shiviz ∧ ∀ n ∈ ws, t.log n = (s.workers n).shiviz

/-- An event happened before another one exactly when its clock is at most the other clock
    for every id, and different from it. -/
def ClocksDecide (t : Trace) : Prop :=
  ∀ i j e f, t.events[i]? = some e → t.events[j]? = some f →
    (HappenedBefore t.events i j ↔
      (∀ id, timeOf e.stamp.2 id ≤ timeOf f.stamp.2 id) ∧
        ∃ id, timeOf e.stamp.2 id ≠ timeOf f.stamp.2 id)

/-- **Vector clocks characterise causality** in every run of a manager that stays up and at
    most `MAX_NODES - 1` workers, all with distinct ids, as long as no process has written
    `2 ^ 32` lines, so that no time has wrapped. -/
theorem clocks_characterise_causality (cfg : Config) (ws : List NodeId) (as : List SystemAct)
    (hnodup : (nodes cfg ws).Nodup) (h0 : 0 ∉ nodes cfg ws)
    (hroom : (nodes cfg ws).length ≤ maxNodes)
    (hrun : (machine cfg).Along (enabled cfg) (start cfg) as)
    (hup : (machine cfg).Along (StaysUp cfg) (start cfg) as)
    (hws : (machine cfg).Along (AmongWorkers ws) (start cfg) as)
    (hfew : FewLines ws ((machine cfg).after (start cfg) as)) :
    let x := (observed cfg).after (start cfg, Trace.start (nodes cfg ws)) as
    x.1 = (machine cfg).after (start cfg) as ∧ Logs cfg ws x.1 x.2 ∧ ClocksDecide x.2 := by
  intro x
  have hinv : CausalInv cfg ws x := causalInv_after hnodup h0 hroom hrun hup hws hfew
  refine ⟨Machine.watch_after_fst as, ⟨?_, hinv.workerLogs⟩, fun i j e f he hf => ?_⟩
  · rw [← hinv.port]
    exact hinv.managerLog
  · rw [hinv.sound.stamped.happenedBefore_iff he hf]
    exact and_congr_right fun _ => Function.ne_iff

/-- Worker 40 begins and joins transaction 1, crashes, restarts and polls; worker 41 gets the
    reply to its own `BEGIN` twice. -/
def crashingRun : List SystemAct :=
  [command 40 .begintx, command 41 .begintx, toManager 1, toManager 0, toWorker 41 2, toWorker 41 2,
    command 40 .jointx, toManager 4, toWorker 40 5, command 40 .newA, command 40 .crash,
    .worker 40 ⟨.restart, none⟩, command 40 .commit, .worker 41 ⟨.deliver 2, some 0⟩,
    .worker 41 ⟨.restart, none⟩, toManager 6]

theorem clocks_characterise_causality_crashing :
    let x := (observed smallConfig).after (start smallConfig, Trace.start [7, 40, 41]) crashingRun
    x.1 = (machine smallConfig).after (start smallConfig) crashingRun ∧
      Logs smallConfig [40, 41] x.1 x.2 ∧ ClocksDecide x.2 :=
  clocks_characterise_causality smallConfig [40, 41] crashingRun (by decide) (by decide) (by decide)
    (by decide +kernel) (by decide +kernel) (by decide +kernel) (by decide +kernel)

end System

end DistributedSystem.Transaction
