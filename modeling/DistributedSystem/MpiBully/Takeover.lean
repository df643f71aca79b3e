import DistributedSystem.MpiBully.Convergence
import DistributedSystem.MpiBully.Suspicion

/-!
# What follows an unanswered AYA

A rank that has asked its coordinator, and hears nothing any more, goes on asking up to the next
multiple of `timeoutValue`. There it calls an election, and another `timeoutValue` ticks later it
declares itself, once.
-/

namespace DistributedSystem.MpiBully

open DistributedSystem.Library

namespace Node

/-- What a rank sends at each of its ticks. -/
def outboxes (c : Config) (rank : ℕ) : Node → List (ℕ × Status) → List (List Packet)
  | _, [] => []
  | n, (rn, tested) :: ts =>
      (handle c rank n (.clock rn tested)).outbox ::
        outboxes c rank (handle c rank n (.clock rn tested)) ts

variable {c : Config} {rank rn : ℕ} {tested : Status} {n : Node} {i : Input} {ts : List (ℕ × Status)}

/-! ## After the COORD -/

/-- The rank has declared itself; rank 1 has nobody to declare itself to. -/
structure Declared (rank : ℕ) (n : Node) : Prop where
  running : n.Running
  unled : n.coordNode = 0
  done : n.lastSent = some .coord ∨ n.lastSent = some .election ∧ lower rank = []

theorem declared_declare (tested : Status) (hrun : n.Running) (hs : n.lastSent = some .election) :
    Declared rank (declare rank tested n) := by
  refine ⟨⟨?_, ?_⟩, rfl, ?_⟩
  · simpa [declare] using hrun.1
  · simpa [declare] using hrun.2
  · by_cases hlower : lower rank = []
    · right
      simp [declare, hlower, hs, sendLoop]
    · left
      simp [declare, hlower]

theorem quiet_of_unled (h : n.coordNode = 0) : n.Quiet := fun hno => absurd h hno

/-- A rank that has declared itself sends nothing more by itself. -/
theorem declared_tick (rn : ℕ) (tested : Status) (hne : c.timeoutValue ≠ 0) (h : Declared rank n) :
    Declared rank (handle c rank n (.clock rn tested)) ∧
      (handle c rank n (.clock rn tested)).outbox = [] := by
  have hreceive : receive c rank n (.clock rn tested) = n.ticked := by
    rw [receive_clock h.running.2, onClock_of_quiet (quiet_of_unled h.unled)]
  have hticked : Declared rank n.ticked := ⟨h.running, h.unled, h.done⟩
  unfold handle
  rw [hreceive]
  by_cases hdue : n.ticked.TimedOut c
  · rw [checkTimeout_of_timedOut hne hticked.running hdue]
    rcases hticked.done with hs | ⟨hs, hlower⟩
    · simp only [onTimeout, hs]
      exact ⟨hticked, rfl⟩
    · simp only [onTimeout, hs]
      refine ⟨declared_declare _ hticked.running hs, ?_⟩
      rw [declare_outbox, hlower]
      rfl
  · rw [checkTimeout_of_not_timedOut hne hdue]
    exact ⟨hticked, rfl⟩

theorem outboxes_of_declared (hne : c.timeoutValue ≠ 0) (h : Declared rank n) :
    outboxes c rank n ts = List.replicate ts.length [] := by
  induction ts generalizing n with
  | nil => rfl
  | cons t ts ih =>
      obtain ⟨hdeclared, hout⟩ := declared_tick t.1 t.2 hne h
      rw [outboxes, hout, ih hdeclared, List.length_cons, List.replicate_succ]

/-! ## Between ELECTION and COORD -/

/-- The rank has called an election, and no COORD has come. -/
structure Calling (n : Node) : Prop where
  running : n.Running
  unled : n.coordNode = 0
  lastSent : n.lastSent = some .election

/-- Nothing is sent up to the timeout, and COORD there. -/
theorem outboxes_of_calling {k : ℕ} (hne : c.timeoutValue ≠ 0) (h : Calling n)
    (hk : n.tick + (k + 1) = c.timeoutValue.natAbs) (hlong : k < ts.length) :
    ∃ d, outboxes c rank n ts = List.replicate k [] ++
      packets rank .coord d (lower rank) :: List.replicate (ts.length - (k + 1)) [] := by
  induction k generalizing n ts with
  | zero =>
      cases ts with
      | nil => exact absurd hlong (by simp)
      | cons t ts =>
          have hrun : n.ticked.Running := h.running
          have hs : n.ticked.lastSent = some .election := h.lastSent
          have hhandle : handle c rank n (.clock t.1 t.2) = declare rank t.2 n.ticked := by
            rw [handle_due hne h.running (quiet_of_unled h.unled) hk]
            simp only [onTimeout, hs]
          refine ⟨n.ticked.dlcTime, ?_⟩
          rw [outboxes, hhandle, declare_outbox, outboxes_of_declared hne (declared_declare _ hrun hs)]
          rfl
  | succ k ih =>
      cases ts with
      | nil => exact absurd hlong (by simp)
      | cons t ts =>
          have hhandle : handle c rank n (.clock t.1 t.2) = n.ticked :=
            handle_quiet hne h.running (quiet_of_unled h.unled) (by omega)
          have hticked : Calling n.ticked := ⟨h.running, h.unled, h.lastSent⟩
          have htick : n.ticked.tick = n.tick + 1 := rfl
          obtain ⟨d, hd⟩ := ih hticked (by omega) (show k < ts.length by simpa using hlong)
          refine ⟨d, ?_⟩
          rw [outboxes, hhandle, hd, List.replicate_succ, List.cons_append, List.length_cons,
            Nat.add_sub_add_right]
          rfl

theorem calling_callElection (tested : Status) (hrun : n.Running) (hhigher : higher c rank ≠ []) :
    Calling (callElection c rank tested n) := by
  refine ⟨⟨?_, ?_⟩, rfl, ?_⟩
  · simpa [callElection] using hrun.1
  · simpa [callElection] using hrun.2
  · simp [callElection, hhigher]

/-! ## Up to the ELECTION -/

/-- The packets ask one rank whether it is alive. -/
def AsksOnly (dst : ℕ) (ms : List Packet) : Prop := ∀ m ∈ ms, m.tag = .aya ∧ m.dst = dst

/-- A tick of a rank that has asked, up to the timeout check. -/
theorem asking_receive (rank rn : ℕ) (tested : Status) (h : Asking c n) :
    Asking c (receive c rank n (.clock rn tested)) ∧
      (receive c rank n (.clock rn tested)).tick = n.tick + 1 ∧
      (receive c rank n (.clock rn tested)).coordNode = n.coordNode ∧
      AsksOnly n.coordNode (receive c rank n (.clock rn tested)).outbox := by
  rcases receive_tick c rank rn tested h.running.2 with ⟨-, heq⟩ | ⟨-, hzero, -⟩ | ⟨-, -, heq⟩
  · rw [heq]
    exact ⟨⟨h.running, h.lastSent, h.divides⟩, rfl, rfl, fun m hm => absurd hm List.not_mem_nil⟩
  · exact absurd hzero h.divides
  · rw [heq]
    refine ⟨⟨h.running, rfl, h.divides⟩, rfl, rfl, fun m hm => ?_⟩
    obtain rfl := List.mem_singleton.mp hm
    exact ⟨rfl, rfl⟩

/-- What is sent after a silent coordinator: AYAs, then ELECTION, nothing for
    `timeoutValue - 1` ticks, COORD, and nothing more. -/
def takeover (c : Config) (rank : ℕ) (asks : List (List Packet)) (last : List Packet) (d d' rest : ℕ) :
    List (List Packet) :=
  asks ++ (last ++ packets rank .election d (higher c rank)) ::
    (List.replicate (c.timeoutValue.natAbs - 1) [] ++
      packets rank .coord d' (lower rank) :: List.replicate rest [])

/-- The rank sends this in its next ticks, and calls its election in tick number `k`, counted from 0. -/
def TakesOver (c : Config) (rank : ℕ) (n : Node) (k : ℕ) (sent : List (List Packet)) : Prop :=
  ∃ asks last d d', asks.length = k ∧ (∀ ms ∈ asks, AsksOnly n.coordNode ms) ∧
    AsksOnly n.coordNode last ∧
    sent = takeover c rank asks last d d' (sent.length - (k + 1 + c.timeoutValue.natAbs))

@[simp] theorem length_outboxes : (outboxes c rank n ts).length = ts.length := by
  induction ts generalizing n with
  | nil => rfl
  | cons t ts ih => simp [outboxes, ih]

theorem takesOver_of_asking {k : ℕ} (hne : c.timeoutValue ≠ 0) (hhigher : higher c rank ≠ [])
    (h : Asking c n) (hk : n.tick % c.timeoutValue.natAbs + (k + 1) = c.timeoutValue.natAbs)
    (hlong : k + 1 + c.timeoutValue.natAbs ≤ ts.length) :
    TakesOver c rank n k (outboxes c rank n ts) := by
  have hpos := Int.natAbs_pos.mpr hne
  unfold TakesOver
  rw [length_outboxes]
  induction k generalizing n ts with
  | zero =>
      cases ts with
      | nil => exact absurd hlong (by simp)
      | cons t ts =>
          obtain ⟨hasking, htick, -, hasks⟩ := asking_receive rank t.1 t.2 h
          have hdue : (receive c rank n (.clock t.1 t.2)).TimedOut c := by
            rw [timedOut_iff (by omega), htick]
            exact Nat.dvd_of_mod_eq_zero (by rw [← Nat.mod_add_mod, hk, Nat.mod_self])
          have hhandle : handle c rank n (.clock t.1 t.2) =
              callElection c rank t.2 (receive c rank n (.clock t.1 t.2)) := by
            have hsent := hasking.lastSent
            unfold handle
            rw [Input.tested, checkTimeout_of_timedOut hne hasking.running hdue]
            simp only [onTimeout, hsent]
          have hcalling := calling_callElection t.2 hasking.running hhigher
          have hrestart : 0 + (c.timeoutValue.natAbs - 1 + 1) = c.timeoutValue.natAbs := by omega
          obtain ⟨d', hd'⟩ := outboxes_of_calling hne hcalling hrestart
            (show _ < ts.length by simp only [List.length_cons] at hlong; omega)
          refine ⟨[], (receive c rank n (.clock t.1 t.2)).outbox,
            (receive c rank n (.clock t.1 t.2)).dlcTime, d', rfl, by simp, hasks, ?_⟩
          have hrest : ts.length - (c.timeoutValue.natAbs - 1 + 1) =
              (t :: ts).length - (0 + 1 + c.timeoutValue.natAbs) := by
            rw [List.length_cons]
            omega
          rw [outboxes, hhandle, callElection_outbox, hd', hrest]
          rfl
  | succ k ih =>
      cases ts with
      | nil => exact absurd hlong (by simp)
      | cons t ts =>
          obtain ⟨hasking, htick, hcoord, hasks⟩ := asking_receive rank t.1 t.2 h
          have hmod : (n.tick + 1) % c.timeoutValue.natAbs = n.tick % c.timeoutValue.natAbs + 1 := by
            rw [← Nat.mod_add_mod]
            exact Nat.mod_eq_of_lt (by omega)
          have hhandle : handle c rank n (.clock t.1 t.2) = receive c rank n (.clock t.1 t.2) := by
            refine checkTimeout_of_not_timedOut hne fun hdue => ?_
            have hzero := hdue.1
            rw [htick, hmod] at hzero
            exact absurd hzero (Nat.succ_ne_zero _)
          obtain ⟨asks, last, d, d', hlength, hall, hlast, heq⟩ := ih hasking
            (by rw [htick, hmod]; omega)
            (show k + 1 + c.timeoutValue.natAbs ≤ ts.length by simp only [List.length_cons] at hlong; omega)
          rw [hcoord] at hall hlast
          refine ⟨(receive c rank n (.clock t.1 t.2)).outbox :: asks, last, d, d', by simp [hlength],
            List.forall_mem_cons.mpr ⟨hasks, hall⟩, hlast, ?_⟩
          have hrest : ts.length - (k + 1 + c.timeoutValue.natAbs) =
              (t :: ts).length - (k + 1 + 1 + c.timeoutValue.natAbs) := by
            rw [List.length_cons]
            omega
          rw [outboxes, hhandle, heq, hrest]
          rfl

/-! ## Ranks that ask -/

/-- A rank that has asked has not divided by zero so far. -/
def AsksSoundly (c : Config) (n : Node) : Prop :=
  n.Running → n.lastSent = some .aya → c.timeoutValue ≠ 0 ∧ twiceAYATime c ≠ 0

theorem timeoutValue_ne_zero (h : (checkTimeout c rank tested n).Running) : c.timeoutValue ≠ 0 := by
  intro hzero
  unfold checkTimeout at h
  split at h
  · rename_i hgone
    rcases hgone with hhalted | hdead
    · exact absurd (h.1.symm.trans hhalted) (by simp)
    · exact absurd (h.2.symm.trans hdead) (by simp)
  · exact absurd h.1 (by simp)

theorem asksSoundly_handle (h : AsksSoundly c n) (hconsistent : Consistent c rank n)
    (hrun : n.halted = false) : AsksSoundly c (handle c rank n i) := by
  intro hrunning haya
  refine ⟨timeoutValue_ne_zero hrunning, ?_⟩
  have hreceive : (receive c rank n i).lastSent = some .aya := by
    by_contra hno
    exact lastSent_checkTimeout hno haya
  cases hdead : n.coordDead with
  | true =>
      -- a dead coordinator has sent IAA
      have hsent := hconsistent.dead hdead
      cases i with
      | clock rn tested =>
          rw [receive_clock_dead hdead] at hreceive
          exact absurd (hsent.symm.trans hreceive) (by simp)
      | message m rn tested =>
          rw [receive_message_dead hdead] at hreceive
          exact absurd (hsent.symm.trans hreceive) (by simp)
      | revive tested => exact absurd hreceive (by simp [receive])
  | false =>
      cases i with
      | clock rn tested =>
          rcases receive_tick c rank rn tested hdead with ⟨-, heq⟩ | ⟨-, -, heq⟩ | ⟨-, htwice, -⟩
          · rw [heq] at hreceive
            exact (h ⟨hrun, hdead⟩ hreceive).2
          · rw [heq] at hreceive
            exact (h ⟨hrun, hdead⟩ hreceive).2
          · exact htwice
      | message m rn tested =>
          rw [receive_message hdead] at hreceive
          have hsent := lastSent_onMessage hreceive
          exact (h ⟨hrun, hdead⟩ hsent).2
      | revive tested => exact absurd hreceive (by simp [receive])

end Node

namespace System

variable {c : Config} {s : System} {rank : ℕ} {as bs : List SystemAct} {a : SystemAct}

/-- What a rank sends in each of its steps of a run. -/
def outboxes (c : Config) (rank : ℕ) : System → List SystemAct → List (List Packet)
  | _, [] => []
  | s, a :: as =>
      match input s.net a.rank a.stimulus with
      | some i =>
          if a.rank = rank then ((s.nodes rank).handle c rank i).outbox :: outboxes c rank (next c s a) as
          else outboxes c rank (next c s a) as
      | none => outboxes c rank (next c s a) as

theorem ticks_cons_of_clock (as : List SystemAct) (rn : ℕ) (tested : Status) :
    ticks rank (⟨rank, .clock rn tested⟩ :: as) = (rn, tested) :: ticks rank as := by
  simp [ticks]

theorem ticks_cons_of_ne (as : List SystemAct) (h : a.rank ≠ rank) :
    ticks rank (a :: as) = ticks rank as := by
  unfold ticks
  rw [List.filterMap_cons]
  cases a.stimulus with
  | clock rn tested => simp [h]
  | deliver k rn tested => rfl
  | revive tested => rfl

/-- What a rank sends that is given nothing but ticks does not depend on the others. -/
theorem outboxes_eq (h : OnlyTicks rank bs) :
    outboxes c rank s bs = (s.nodes rank).outboxes c rank (ticks rank bs) := by
  induction bs generalizing s with
  | nil => rfl
  | cons a as ih =>
      have htail : OnlyTicks rank as := fun a' ha' => h a' (List.mem_cons_of_mem _ ha')
      by_cases hrank : a.rank = rank
      · obtain ⟨rn, tested, hclock⟩ := h a List.mem_cons_self hrank
        obtain ⟨rank', st⟩ := a
        subst hrank hclock
        have hnode : (next c s ⟨rank', .clock rn tested⟩).nodes rank' =
            (s.nodes rank').handle c rank' (.clock rn tested) := by
          rw [next_of_input rfl]
          simp only [nodeStep, Function.update_self]
        rw [ticks_cons_of_clock, Node.outboxes, ← hnode, ← ih htail]
        simp only [outboxes, input, if_true, hnode]
      · rw [ticks_cons_of_ne as hrank, ← nodes_next_of_ne (c := c) (s := s) hrank, ← ih htail, outboxes]
        split
        · rw [if_neg hrank]
        · rfl

/-- What is kept of the ranks that ask. -/
structure AsksSoundly (c : Config) (s : System) : Prop where
  consistent : ∀ rank, (s.nodes rank).Consistent c rank
  soundly : ∀ rank, (s.nodes rank).AsksSoundly c

theorem asksSoundly_next (h : AsksSoundly c s) (ha : enabled c s a) : AsksSoundly c (next c s a) := by
  obtain ⟨-, -, i, hin, haccepts⟩ := ha
  rw [next_of_input hin]
  refine ⟨fun rank => ?_, fun rank => ?_⟩
  · by_cases hrank : rank = a.rank
    · subst hrank
      simp only [nodeStep, Function.update_self]
      exact Node.consistent_handle (h.consistent a.rank) i
    · simp only [nodeStep, Function.update_of_ne hrank]
      exact h.consistent rank
  · by_cases hrank : rank = a.rank
    · subst hrank
      simp only [nodeStep, Function.update_self]
      exact Node.asksSoundly_handle (h.soundly a.rank) (h.consistent a.rank)
        (Node.not_halted_of_accepts haccepts)
    · simp only [nodeStep, Function.update_of_ne hrank]
      exact h.soundly rank

theorem asksSoundly_start (c : Config) : AsksSoundly c (start c) := by
  refine ⟨Node.consistent_start c, fun rank _ haya => ?_⟩
  exact absurd ((start_unasked c rank).1) ((steady_start c rank).asking haya)

/-- A rank that has asked, in a state that a run reaches. -/
theorem asking_after (hrun : (machine c).Along (enabled c) (start c) as)
    (hrunning : (((machine c).after (start c) as).nodes rank).Running)
    (haya : (((machine c).after (start c) as).nodes rank).lastSent = some .aya) :
    c.timeoutValue ≠ 0 ∧ higher c rank ≠ [] ∧
      (((machine c).after (start c) as).nodes rank).Asking c := by
  have hsound : AsksSoundly c ((machine c).after (start c) as) :=
    hrun.invariant (asksSoundly_start c) fun s a h ha => asksSoundly_next h ha
  have hkept : Kept c ((remembered c).after (beginning c) as) :=
    (Machine.along_watch.mpr hrun).invariant (kept_beginning c) fun x a h ha => kept_next h ha
  have hstate : ((remembered c).after (beginning c) as).1 = (machine c).after (start c) as :=
    Machine.watch_after_fst as
  obtain ⟨hne, htwice⟩ := hsound.soundly rank hrunning haya
  refine ⟨hne, ?_, hrunning, haya, htwice⟩
  -- it asks its coordinator, which is above
  have hcoord := hkept.ranked.coords rank
  have hasking := (hkept.steady rank).asking
  rw [hstate] at hcoord hasking
  exact Node.higher_ne_nil_of_hasCoord hcoord (hasking haya)

/-- **A silent coordinator is replaced**: after any run, a rank that has asked its coordinator and
    is given nothing but ticks, whatever the others do, calls an election at the next multiple of
    `timeoutValue`, declares itself to all ranks below exactly `timeoutValue` ticks later, and
    sends nothing else but AYAs before the election. -/
theorem silent_coordinator_replaced (c : Config) (as : List SystemAct)
    (hrun : (machine c).Along (enabled c) (start c) as) (rank : ℕ)
    (hrunning : (((machine c).after (start c) as).nodes rank).Running)
    (haya : (((machine c).after (start c) as).nodes rank).lastSent = some .aya)
    (bs : List SystemAct) (honly : OnlyTicks rank bs)
    (hlong : 2 * c.timeoutValue.natAbs ≤ (ticks rank bs).length) :
    (((machine c).after (start c) as).nodes rank).TakesOver c rank
      (c.timeoutValue.natAbs - 1 -
        (((machine c).after (start c) as).nodes rank).tick % c.timeoutValue.natAbs)
      (outboxes c rank ((machine c).after (start c) as) bs) := by
  obtain ⟨hne, hhigher, hasking⟩ := asking_after hrun hrunning haya
  have hmod := Nat.mod_lt (((machine c).after (start c) as).nodes rank).tick (Int.natAbs_pos.mpr hne)
  rw [outboxes_eq honly]
  exact Node.takesOver_of_asking hne hhigher hasking (by omega) (by omega)

/-- Rank 1 of 3 has asked, and takes over within 10 ticks. -/
theorem silent_coordinator_replaced_ranks :
    (((machine (ranks 3)).after (start (ranks 3)) (firstElection.take 3)).nodes 1).TakesOver (ranks 3) 1 3
      (outboxes (ranks 3) 1 ((machine (ranks 3)).after (start (ranks 3)) (firstElection.take 3))
        (List.replicate 10 ⟨1, .clock 0 ⟨0, .clock⟩⟩)) :=
  silent_coordinator_replaced (ranks 3) (firstElection.take 3) (by decide +kernel) 1
    ⟨by decide +kernel, by decide +kernel⟩ (by decide +kernel) _
    (fun a ha _ => ⟨0, ⟨0, .clock⟩, by rw [List.eq_of_mem_replicate ha]⟩) (by decide +kernel)

end System

end DistributedSystem.MpiBully
