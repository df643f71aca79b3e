import DistributedSystem.MpiBully.Runs
import Mathlib.Data.Nat.GCD.Basic

/-!
# How long a rank waits after an ANSWER

A rank whose election has been answered should wait `size - 1` timeouts for the COORD before
it calls another one. The product of the source is a test whether `tick` is a multiple of
`size - 1`, in a timeout, so it waits until the least common multiple. An AYA that falls due
in between ends the wait at the next timeout.
-/

namespace DistributedSystem.MpiBully

open DistributedSystem.Library

namespace Node

/-! ## The wait -/

/-- The election of the rank has been answered, and no COORD has come. -/
structure Awaits (n : Node) : Prop where
  running : n.halted = false
  lastSent : n.lastSent = none
  lastReceived : n.lastReceived = some .answer

/-- The ticks that a rank is to wait. -/
def patience (c : Config) : ℕ := (c.size - 1) * c.timeoutValue.natAbs

/-- An AYA is due at the `k`-th tick from here. -/
def AsksAt (n : Node) (k : ℕ) : Prop :=
  n.coordNode ≠ 0 ∧ (n.AYARate = 0 ∨ (n.AYATick + k) % n.AYARate = 0)

/-- No timeout before the last one is a multiple of `size - 1`, no AYA is due before the last
    timeout but one, and none that would divide by zero before the last. -/
structure Patient (c : Config) (n : Node) : Prop where
  coprime : Nat.Coprime (c.size - 1) c.timeoutValue.natAbs
  silent : ∀ k, 0 < k → n.tick + k ≤ (c.size - 2) * c.timeoutValue.natAbs → ¬ n.AsksAt k
  unharmed : twiceAYATime c = 0 → ∀ k, 0 < k → n.tick + k ≤ patience c → ¬ n.AsksAt k

/-- The input makes the rank call an election. -/
def CallsElection (c : Config) (rank : ℕ) (n : Node) (i : Input) : Prop :=
  ∃ m ∈ (handle c rank n i).outbox, m.tag = .election

instance (n : Node) : Decidable (Awaits n) :=
  decidable_of_iff (n.halted = false ∧ n.lastSent = none ∧ n.lastReceived = some .answer)
    ⟨fun h => ⟨h.1, h.2.1, h.2.2⟩, fun h => ⟨h.running, h.lastSent, h.lastReceived⟩⟩

instance (c : Config) (rank : ℕ) (n : Node) (i : Input) : Decidable (CallsElection c rank n i) := by
  unfold CallsElection; infer_instance

/-- The tick at which a rank that is given these ticks first calls an election. -/
def callTick (c : Config) (rank : ℕ) : Node → List (ℕ × Status) → Option ℕ
  | _, [] => none
  | n, (rn, tested) :: ts =>
      if CallsElection c rank n (.clock rn tested) then
        some (receive c rank n (.clock rn tested)).tick
      else callTick c rank (handle c rank n (.clock rn tested)) ts

variable {c : Config} {rank rn : ℕ} {n : Node} {tested : Status} {i : Input} {m : Packet}

/-! ## One tick -/

theorem quiet_iff : n.Quiet ↔ ¬ n.AsksAt 1 := by
  unfold Quiet AsksAt
  tauto

/-- The three outcomes of a tick, up to the timeout check. -/
theorem receive_tick (c : Config) (rank rn : ℕ) (tested : Status) (hdead : n.coordDead = false) :
    (¬ n.AsksAt 1 ∧ receive c rank n (.clock rn tested) = n.ticked) ∨
      (n.AsksAt 1 ∧ twiceAYATime c = 0 ∧
        receive c rank n (.clock rn tested) = { n.ticked with halted := true }) ∨
      (n.AsksAt 1 ∧ twiceAYATime c ≠ 0 ∧
        receive c rank n (.clock rn tested) = n.asked c rank rn tested) := by
  rw [receive_clock hdead]
  by_cases hasks : n.AsksAt 1
  · obtain ⟨hcoord, hdue⟩ := hasks
    have hif : ((n.await ⟨0, .clock⟩).AYARate = 0 ∨
        ((n.await ⟨0, .clock⟩).AYATick + 1) % (n.await ⟨0, .clock⟩).AYARate = 0) ∧
          (n.await ⟨0, .clock⟩).coordNode ≠ 0 := ⟨hdue, hcoord⟩
    by_cases htwice : twiceAYATime c = 0
    · refine Or.inr (Or.inl ⟨⟨hcoord, hdue⟩, htwice, ?_⟩)
      unfold onClock
      rw [if_pos hif, if_pos htwice]
      rfl
    · refine Or.inr (Or.inr ⟨⟨hcoord, hdue⟩, htwice, ?_⟩)
      unfold onClock
      rw [if_pos hif, if_neg htwice]
      rfl
  · exact Or.inl ⟨hasks, onClock_of_quiet (quiet_iff.mpr hasks)⟩

/-- A timeout is due at the multiples of `timeoutValue`. -/
theorem timedOut_iff (hn : n.tick ≠ 0) : n.TimedOut c ↔ c.timeoutValue.natAbs ∣ n.tick := by
  unfold TimedOut
  rw [Nat.dvd_iff_mod_eq_zero]
  simp [hn]

/-- The precedence of the source: the election is abandoned at the multiples of `size - 1`. -/
theorem abandons_iff (hne : c.timeoutValue ≠ 0) (hn : n.lastReceived = some .answer) :
    n.Abandons c ↔ c.size - 1 ∣ n.tick := by
  have hproduct : ((n.tick % (c.size - 1) : ℕ) : ℤ) * c.timeoutValue = 0 ↔
      n.tick % (c.size - 1) = 0 := by
    rw [Int.mul_eq_zero, or_iff_left hne, Int.natCast_eq_zero]
  unfold Abandons
  rw [hproduct, hn, Nat.dvd_iff_mod_eq_zero]
  simp

theorem timeoutIdle_of_abandons (h : n.Abandons c) (hanswer : n.lastReceived = some .answer) :
    timeoutIdle c rank tested n = { callElection c rank tested n with
      lastReceived := if higher c rank = [] then n.lastReceived else none } := by
  unfold timeoutIdle
  rw [if_pos h]
  refine if_neg ?_
  simp [hanswer]

theorem timeoutIdle_of_not_abandons (h : ¬ n.Abandons c) (hanswer : n.lastReceived = some .answer) :
    timeoutIdle c rank tested n = n := by
  unfold timeoutIdle
  rw [if_neg h]
  refine if_neg ?_
  simp [hanswer]

theorem calls_callElection (n : Node) (tested : Status) (hhigher : higher c rank ≠ [])
    (r : Option Tag) :
    ∃ m ∈ ({ callElection c rank tested n with lastReceived := r } : Node).outbox,
      m.tag = .election := by
  obtain ⟨i, hi⟩ := List.exists_mem_of_ne_nil _ hhigher
  obtain ⟨d, hd⟩ := exists_mem_packets rank .election n.dlcTime hi
  refine ⟨⟨rank, i, .election, d⟩, ?_, rfl⟩
  show _ ∈ (callElection c rank tested n).outbox
  rw [callElection_outbox]
  exact List.mem_append_right _ hd

/-- A waiting rank calls an election where a timeout meets a multiple of `size - 1`. -/
theorem awaits_tick (rn : ℕ) (tested : Status) (hne : c.timeoutValue ≠ 0) (hdead : n.coordDead = false)
    (hhigher : higher c rank ≠ []) (hn : n.Awaits) (hasks : ¬ n.AsksAt 1) :
    (CallsElection c rank n (.clock rn tested) ↔
        c.timeoutValue.natAbs ∣ n.tick + 1 ∧ c.size - 1 ∣ n.tick + 1) ∧
      (¬ CallsElection c rank n (.clock rn tested) →
        handle c rank n (.clock rn tested) = n.ticked) := by
  have hreceive : receive c rank n (.clock rn tested) = n.ticked := by
    rw [receive_clock hdead]
    exact onClock_of_quiet (quiet_iff.mpr hasks)
  have hhandle : handle c rank n (.clock rn tested) = checkTimeout c rank tested n.ticked :=
    congrArg (checkTimeout c rank tested) hreceive
  have hrun : n.ticked.Running := ⟨hn.running, hdead⟩
  have hno : ¬ ∃ m ∈ n.ticked.outbox, m.tag = .election := by
    rintro ⟨m, hm, -⟩
    exact absurd hm (by simp [Node.ticked])
  have hdue : n.ticked.TimedOut c ↔ c.timeoutValue.natAbs ∣ n.tick + 1 :=
    timedOut_iff (Nat.succ_ne_zero _)
  have habandons : n.ticked.Abandons c ↔ c.size - 1 ∣ n.tick + 1 := abandons_iff hne hn.lastReceived
  unfold CallsElection
  rw [hhandle]
  by_cases htimeout : c.timeoutValue.natAbs ∣ n.tick + 1
  · rw [checkTimeout_of_timedOut hne hrun (hdue.mpr htimeout)]
    have hsent : n.ticked.lastSent = none := hn.lastSent
    simp only [onTimeout, hsent]
    by_cases hmultiple : c.size - 1 ∣ n.tick + 1
    · -- the election is abandoned
      rw [timeoutIdle_of_abandons (habandons.mpr hmultiple) hn.lastReceived]
      have hcalls := calls_callElection n.ticked tested hhigher
        (if higher c rank = [] then n.ticked.lastReceived else none)
      exact ⟨iff_of_true hcalls ⟨htimeout, hmultiple⟩, fun hno => absurd hcalls hno⟩
    · -- a timeout that is no multiple of size - 1
      rw [timeoutIdle_of_not_abandons (mt habandons.mp hmultiple) hn.lastReceived]
      exact ⟨iff_of_false hno fun h => hmultiple h.2, fun _ => rfl⟩
  · -- no timeout
    rw [checkTimeout_of_not_timedOut hne (mt hdue.mp htimeout)]
    exact ⟨iff_of_false hno fun h => htimeout h.1, fun _ => rfl⟩

/-- A rank that has sent an AYA. -/
structure Asking (c : Config) (n : Node) : Prop where
  running : n.Running
  lastSent : n.lastSent = some .aya
  divides : twiceAYATime c ≠ 0

/-- An AYA that is due, or sent before, ends in an election at the next timeout. -/
theorem asking_tick (rn : ℕ) (tested : Status) (hne : c.timeoutValue ≠ 0) (hrun : n.Running)
    (htwice : twiceAYATime c ≠ 0)
    (hhigher : higher c rank ≠ []) (hn : n.AsksAt 1 ∨ n.lastSent = some .aya) :
    (CallsElection c rank n (.clock rn tested) ↔ c.timeoutValue.natAbs ∣ n.tick + 1) ∧
      (¬ CallsElection c rank n (.clock rn tested) →
        Asking c (handle c rank n (.clock rn tested)) ∧
          (handle c rank n (.clock rn tested)).tick = n.tick + 1) := by
  -- before the timeout check
  obtain ⟨n', hreceive, hn', htick, hout⟩ : ∃ n', receive c rank n (.clock rn tested) = n' ∧
      Asking c n' ∧ n'.tick = n.tick + 1 ∧ ¬ ∃ m ∈ n'.outbox, m.tag = .election := by
    refine ⟨_, rfl, ?_⟩
    rcases receive_tick c rank rn tested hrun.2 with ⟨hquiet, heq⟩ | ⟨-, hzero, -⟩ | ⟨-, -, heq⟩
    · rw [heq]
      refine ⟨⟨hrun, hn.resolve_left hquiet, htwice⟩, rfl, ?_⟩
      simp [Node.ticked]
    · exact absurd hzero htwice
    · rw [heq]
      refine ⟨⟨hrun, rfl, htwice⟩, rfl, ?_⟩
      simp [asked]
  have hdue : n'.TimedOut c ↔ c.timeoutValue.natAbs ∣ n.tick + 1 := by
    rw [timedOut_iff (by omega), htick]
  have hhandle : handle c rank n (.clock rn tested) = checkTimeout c rank tested n' :=
    congrArg (checkTimeout c rank tested) hreceive
  unfold CallsElection
  rw [hhandle]
  by_cases htimeout : c.timeoutValue.natAbs ∣ n.tick + 1
  · -- the coordinator is taken for dead
    rw [checkTimeout_of_timedOut hne hn'.running (hdue.mpr htimeout)]
    have hsent := hn'.lastSent
    simp only [onTimeout, hsent]
    have hcalls := calls_callElection n' tested hhigher
      (callElection c rank tested n').lastReceived
    exact ⟨iff_of_true hcalls htimeout, fun hno => absurd hcalls hno⟩
  · rw [checkTimeout_of_not_timedOut hne (mt hdue.mp htimeout)]
    exact ⟨iff_of_false hout htimeout, fun _ => ⟨hn', htick⟩⟩

/-- A rank that has divided by zero does nothing more. -/
theorem halted_tick (rank rn : ℕ) (tested : Status)
    (h : n.halted = true ∨ (n.coordDead = false ∧ n.AsksAt 1 ∧ twiceAYATime c = 0)) :
    ¬ CallsElection c rank n (.clock rn tested) ∧ (handle c rank n (.clock rn tested)).halted = true := by
  obtain ⟨n', hreceive, hn', hout⟩ : ∃ n', receive c rank n (.clock rn tested) = n' ∧
      n'.halted = true ∧ ¬ ∃ m ∈ n'.outbox, m.tag = .election := by
    refine ⟨_, rfl, ?_⟩
    cases hdead : n.coordDead with
    | true =>
        -- a dead coordinator waits
        have hn : n.halted = true := h.resolve_right fun h => absurd (hdead.symm.trans h.1) (by simp)
        rw [receive_clock_dead hdead]
        exact ⟨hn, by simp⟩
    | false =>
        rcases receive_tick c rank rn tested hdead with ⟨hquiet, heq⟩ | ⟨-, -, heq⟩ | ⟨-, htwice, heq⟩
        · rw [heq]
          exact ⟨h.resolve_right fun h => hquiet h.2.1, by simp [Node.ticked]⟩
        · rw [heq]
          exact ⟨rfl, by simp [Node.ticked]⟩
        · rw [heq]
          exact ⟨h.resolve_right fun h => htwice h.2.2, by simp [asked]⟩
  have hhandle : handle c rank n (.clock rn tested) = n' := by
    unfold handle
    rw [hreceive]
    exact if_pos (Or.inl hn')
  unfold CallsElection
  rw [hhandle]
  exact ⟨hout, hn'⟩

/-! ## A wait that ends in time -/

/-- The last timeout of the wait has not come, and the election is called there. -/
structure OnTime (c : Config) (n : Node) : Prop where
  early : n.tick < patience c
  alive : n.coordDead = false
  waits : (n.Awaits ∧ Patient c n) ∨
    (Asking c n ∧ (c.size - 2) * c.timeoutValue.natAbs ≤ n.tick)

/-- Of the ticks after the last timeout but one, the last one alone is a timeout. -/
theorem dvd_iff_of_late {t : ℕ} (hlow : (c.size - 2) * c.timeoutValue.natAbs < t)
    (hle : t ≤ patience c) : c.timeoutValue.natAbs ∣ t ↔ t = patience c := by
  constructor
  · rintro ⟨k, rfl⟩
    rw [Nat.mul_comm] at hlow
    have hk : c.size - 2 < k := Nat.lt_of_mul_lt_mul_left hlow
    refine Nat.le_antisymm hle ?_
    rw [patience, Nat.mul_comm]
    exact Nat.mul_le_mul_left _ (by omega)
  · rintro rfl
    exact Dvd.intro_left _ rfl

theorem asksAt_ticked (n : Node) (k : ℕ) : n.ticked.AsksAt k ↔ n.AsksAt (k + 1) := by
  unfold AsksAt
  show n.coordNode ≠ 0 ∧ (n.AYARate = 0 ∨ (n.AYATick + 1 + k) % n.AYARate = 0) ↔ _
  rw [Nat.add_assoc, Nat.add_comm 1 k]

theorem Awaits.ticked (h : n.Awaits) : n.ticked.Awaits := ⟨h.running, h.lastSent, h.lastReceived⟩

theorem Patient.ticked (h : Patient c n) : Patient c n.ticked := by
  refine ⟨h.coprime, fun k hk hle => ?_, fun hzero k hk hle => ?_⟩
  · rw [asksAt_ticked]
    refine h.silent (k + 1) (Nat.succ_pos k) ?_
    have htick : n.ticked.tick = n.tick + 1 := rfl
    omega
  · rw [asksAt_ticked]
    refine h.unharmed hzero (k + 1) (Nat.succ_pos k) ?_
    have htick : n.ticked.tick = n.tick + 1 := rfl
    omega

/-- **Step lemma**: the election is called at the last timeout of the wait. -/
theorem onTime_tick (rn : ℕ) (tested : Status) (hne : c.timeoutValue ≠ 0) (hhigher : higher c rank ≠ [])
    (h : OnTime c n) :
    (CallsElection c rank n (.clock rn tested) ↔ n.tick + 1 = patience c) ∧
      (¬ CallsElection c rank n (.clock rn tested) →
        OnTime c (handle c rank n (.clock rn tested)) ∧
          (handle c rank n (.clock rn tested)).tick = n.tick + 1) := by
  have hearly := h.early
  rcases h.waits with ⟨hn, hpatient⟩ | ⟨hn, hlate⟩
  · by_cases hasks : n.AsksAt 1
    · -- an AYA is due, and the last timeout is the next one
      have hlow : (c.size - 2) * c.timeoutValue.natAbs < n.tick + 1 := by
        by_contra hle
        exact hpatient.silent 1 Nat.one_pos (by omega) hasks
      have htwice : twiceAYATime c ≠ 0 := fun hzero =>
        hpatient.unharmed hzero 1 Nat.one_pos hearly hasks
      obtain ⟨hcalls, hnext⟩ := asking_tick rn tested hne
        ⟨hn.running, h.alive⟩ htwice hhigher (Or.inl hasks)
      rw [dvd_iff_of_late hlow hearly] at hcalls
      refine ⟨hcalls, fun hno => ?_⟩
      obtain ⟨hasking, htick⟩ := hnext hno
      refine ⟨⟨?_, hasking.running.2, Or.inr ⟨hasking, by omega⟩⟩, htick⟩
      have hnot := mt hcalls.mpr hno
      omega
    · -- no AYA: the least common multiple is the product
      obtain ⟨hcalls, hnext⟩ := awaits_tick rn tested hne h.alive hhigher hn hasks
      have hlast : c.timeoutValue.natAbs ∣ n.tick + 1 ∧ c.size - 1 ∣ n.tick + 1 ↔
          n.tick + 1 = patience c := by
        constructor
        · rintro ⟨htimeout, hmultiple⟩
          exact Nat.le_antisymm hearly
            (Nat.le_of_dvd (Nat.succ_pos _) (hpatient.coprime.mul_dvd_of_dvd_of_dvd hmultiple htimeout))
        · intro heq
          rw [heq]
          exact ⟨Dvd.intro_left _ rfl, Dvd.intro _ rfl⟩
      rw [hlast] at hcalls
      refine ⟨hcalls, fun hno => ?_⟩
      rw [hnext hno]
      refine ⟨⟨?_, h.alive, Or.inl ⟨hn.ticked, hpatient.ticked⟩⟩, rfl⟩
      have hnot := mt hcalls.mpr hno
      show n.tick + 1 < patience c
      omega
  · -- an AYA was sent after the last timeout but one
    obtain ⟨hcalls, hnext⟩ := asking_tick rn tested hne hn.running hn.divides
      hhigher (Or.inr hn.lastSent)
    rw [dvd_iff_of_late (Nat.lt_succ_of_le hlate) hearly] at hcalls
    refine ⟨hcalls, fun hno => ?_⟩
    obtain ⟨hasking, htick⟩ := hnext hno
    refine ⟨⟨?_, hasking.running.2, Or.inr ⟨hasking, by omega⟩⟩, htick⟩
    have hnot := mt hcalls.mpr hno
    omega

theorem receive_tick_count (hdead : n.coordDead = false) :
    (receive c rank n (.clock rn tested)).tick = n.tick + 1 := by
  rcases receive_tick c rank rn tested hdead with ⟨-, heq⟩ | ⟨-, -, heq⟩ | ⟨-, -, heq⟩
  · rw [heq]
    rfl
  · rw [heq]
    rfl
  · rw [heq]
    rfl

/-- **Run lemma** -/
theorem callTick_of_onTime (hne : c.timeoutValue ≠ 0) (hhigher : higher c rank ≠ [])
    (h : OnTime c n) (ts : List (ℕ × Status))
    (hlong : patience c ≤ n.tick + ts.length) : callTick c rank n ts = some (patience c) := by
  induction ts generalizing n with
  | nil =>
      have hearly := h.early
      simp only [List.length_nil] at hlong
      omega
  | cons t ts ih =>
      obtain ⟨rn, tested⟩ := t
      obtain ⟨hcalls, hnext⟩ := onTime_tick rn tested hne hhigher h
      by_cases hnow : CallsElection c rank n (.clock rn tested)
      · rw [callTick, if_pos hnow, receive_tick_count h.alive, hcalls.mp hnow]
      · obtain ⟨hon, htick⟩ := hnext hnow
        rw [callTick, if_neg hnow]
        refine ih hon ?_
        simp only [List.length_cons] at hlong
        omega

/-! ## A wait that does not -/

/-- The rank calls an election before the last timeout of the wait, if at all: it has divided
    by zero, it has sent an AYA, an earlier timeout `t` is a multiple of `size - 1` or comes
    after an AYA, or an AYA will divide by zero. -/
inductive Hasty (c : Config) (n : Node) : Prop
  | halted (h : n.halted = true)
  | asking {t : ℕ} (hn : Asking c n) (ht : c.timeoutValue.natAbs ∣ t) (hearly : n.tick < t)
      (hbefore : t < patience c)
  | awaits {t : ℕ} (hn : n.Awaits) (halive : n.coordDead = false) (ht : c.timeoutValue.natAbs ∣ t)
      (hearly : n.tick < t) (hbefore : t < patience c)
      (hends : c.size - 1 ∣ t ∨ ∃ k, 0 < k ∧ n.tick + k ≤ t ∧ n.AsksAt k)
  | divides {k : ℕ} (hn : n.Awaits) (halive : n.coordDead = false) (hzero : twiceAYATime c = 0)
      (hk : 0 < k) (hbefore : n.tick + k ≤ patience c) (hasks : n.AsksAt k)

/-- A tick without an AYA brings a later AYA nearer. -/
theorem asksAt_ticked_of_later {k : ℕ} (hasks : ¬ n.AsksAt 1) (hk : 0 < k) (h : n.AsksAt k) :
    ∃ k', 0 < k' ∧ k = k' + 1 ∧ n.ticked.AsksAt k' := by
  have hne : k ≠ 1 := by
    rintro rfl
    exact hasks h
  refine ⟨k - 1, by omega, by omega, ?_⟩
  rw [asksAt_ticked, Nat.sub_add_cancel hk]
  exact h

/-- **Step lemma** -/
theorem hasty_tick (rn : ℕ) (tested : Status) (hne : c.timeoutValue ≠ 0)
    (hhigher : higher c rank ≠ []) (h : Hasty c n) :
    (CallsElection c rank n (.clock rn tested) → n.coordDead = false ∧ n.tick + 1 < patience c) ∧
      (¬ CallsElection c rank n (.clock rn tested) →
        Hasty c (handle c rank n (.clock rn tested))) := by
  cases h with
  | halted h =>
      obtain ⟨hno, hhalted⟩ := halted_tick (c := c) rank rn tested (Or.inl h)
      exact ⟨fun hcalls => absurd hcalls hno, fun _ => .halted hhalted⟩
  | asking hn ht hearly hbefore =>
      obtain ⟨hcalls, hnext⟩ := asking_tick rn tested hne hn.running hn.divides
        hhigher (Or.inr hn.lastSent)
      refine ⟨fun _ => ⟨hn.running.2, by omega⟩, fun hno => ?_⟩
      obtain ⟨hasking, htick⟩ := hnext hno
      refine .asking hasking ht ?_ hbefore
      refine Nat.lt_of_le_of_ne (by omega) fun heq => ?_
      exact hno (hcalls.mpr (by rwa [← htick, heq]))
  | awaits hn halive ht hearly hbefore hends =>
      rename_i t
      by_cases hasks : n.AsksAt 1
      · by_cases hzero : twiceAYATime c = 0
        · -- the AYA divides by zero
          obtain ⟨hno, hhalted⟩ := halted_tick (c := c) rank rn tested
            (Or.inr ⟨halive, hasks, hzero⟩)
          exact ⟨fun hcalls => absurd hcalls hno, fun _ => .halted hhalted⟩
        · -- the AYA is sent, and the next timeout is at `t` or before
          obtain ⟨hcalls, hnext⟩ := asking_tick rn tested hne
            ⟨hn.running, halive⟩ hzero hhigher (Or.inl hasks)
          refine ⟨fun _ => ⟨halive, by omega⟩, fun hno => ?_⟩
          obtain ⟨hasking, htick⟩ := hnext hno
          refine .asking hasking ht ?_ hbefore
          refine Nat.lt_of_le_of_ne (by omega) fun heq => ?_
          exact hno (hcalls.mpr (by rwa [← htick, heq]))
      · obtain ⟨hcalls, hnext⟩ := awaits_tick rn tested hne halive hhigher hn hasks
        refine ⟨fun _ => ⟨halive, by omega⟩, fun hno => ?_⟩
        rw [hnext hno]
        have htick : n.ticked.tick = n.tick + 1 := rfl
        rcases hends with hmultiple | ⟨k, hk, hle, hlater⟩
        · -- the wait would have ended at `t`
          have hlt : n.tick + 1 < t := by
            refine Nat.lt_of_le_of_ne hearly fun heq => ?_
            exact hno (hcalls.mpr (by rw [heq]; exact ⟨ht, hmultiple⟩))
          exact .awaits hn.ticked halive ht hlt hbefore (Or.inl hmultiple)
        · -- the AYA is one tick nearer
          obtain ⟨k', hk', rfl, hlater'⟩ := asksAt_ticked_of_later hasks hk hlater
          exact .awaits hn.ticked halive ht (by omega) hbefore
            (Or.inr ⟨k', hk', by omega, hlater'⟩)
  | divides hn halive hzero hk hbefore hlater =>
      by_cases hasks : n.AsksAt 1
      · obtain ⟨hno, hhalted⟩ := halted_tick (c := c) rank rn tested
          (Or.inr ⟨halive, hasks, hzero⟩)
        exact ⟨fun hcalls => absurd hcalls hno, fun _ => .halted hhalted⟩
      · obtain ⟨-, hnext⟩ := awaits_tick rn tested hne halive hhigher hn hasks
        obtain ⟨k', hk', rfl, hlater'⟩ := asksAt_ticked_of_later hasks hk hlater
        refine ⟨fun _ => ⟨halive, by omega⟩, fun hno => ?_⟩
        rw [hnext hno]
        have htick : n.ticked.tick = n.tick + 1 := rfl
        exact .divides hn.ticked halive hzero hk' (by omega) hlater'

/-- **Run lemma** -/
theorem callTick_of_hasty (hne : c.timeoutValue ≠ 0) (hhigher : higher c rank ≠ []) (h : Hasty c n)
    (ts : List (ℕ × Status)) : callTick c rank n ts ≠ some (patience c) := by
  induction ts generalizing n with
  | nil => simp [callTick]
  | cons t ts ih =>
      obtain ⟨rn, tested⟩ := t
      obtain ⟨hcalls, hnext⟩ := hasty_tick rn tested hne hhigher h
      by_cases hnow : CallsElection c rank n (.clock rn tested)
      · obtain ⟨halive, hlt⟩ := hcalls hnow
        rw [callTick, if_pos hnow, receive_tick_count halive, ne_eq, Option.some.injEq]
        omega
      · rw [callTick, if_neg hnow]
        exact ih (hnext hnow)

/-- The tick at which an answered election is abandoned, if no AYA is due. -/
def abandonTick (c : Config) : ℕ := Nat.lcm (c.size - 1) c.timeoutValue.natAbs

theorem abandonTick_lt (hsize : 3 ≤ c.size) (hne : c.timeoutValue ≠ 0)
    (h : ¬ Nat.Coprime (c.size - 1) c.timeoutValue.natAbs) : abandonTick c < patience c := by
  have hproduct : Nat.gcd (c.size - 1) c.timeoutValue.natAbs * abandonTick c = patience c :=
    Nat.gcd_mul_lcm _ _
  have hpos : 0 < abandonTick c := Nat.lcm_pos (by omega) (Int.natAbs_pos.mpr hne)
  have hgcd : Nat.gcd (c.size - 1) c.timeoutValue.natAbs ≠ 0 := by
    refine Nat.ne_of_gt (Nat.gcd_pos_of_pos_left _ (by omega))
  have htwo : 2 ≤ Nat.gcd (c.size - 1) c.timeoutValue.natAbs := by
    have hone : Nat.gcd (c.size - 1) c.timeoutValue.natAbs ≠ 1 := h
    omega
  have hdouble := Nat.mul_le_mul_right (abandonTick c) htwo
  omega

/-- A waiting rank is hasty unless it is patient. -/
theorem hasty_of_not_patient (hsize : 3 ≤ c.size) (hne : c.timeoutValue ≠ 0) (hn : n.Awaits)
    (halive : n.coordDead = false) (hearly : n.tick < abandonTick c) (h : ¬ Patient c n) :
    Hasty c n := by
  have hpos := Int.natAbs_pos.mpr hne
  by_cases hcoprime : Nat.Coprime (c.size - 1) c.timeoutValue.natAbs
  · by_cases hsilent : ∀ k, 0 < k → n.tick + k ≤ (c.size - 2) * c.timeoutValue.natAbs → ¬ n.AsksAt k
    · have hharm : ¬ (twiceAYATime c = 0 → ∀ k, 0 < k → n.tick + k ≤ patience c → ¬ n.AsksAt k) :=
        fun hunharmed => h ⟨hcoprime, hsilent, hunharmed⟩
      push Not at hharm
      obtain ⟨hzero, k, hk, hle, hasks⟩ := hharm
      exact .divides hn halive hzero hk hle hasks
    · -- the last timeout but one comes after the AYA
      push Not at hsilent
      obtain ⟨k, hk, hle, hasks⟩ := hsilent
      have hbefore : (c.size - 2) * c.timeoutValue.natAbs < patience c :=
        Nat.mul_lt_mul_of_pos_right (by omega) hpos
      exact .awaits hn halive (Dvd.intro_left _ rfl) (by omega) hbefore (Or.inr ⟨k, hk, hle, hasks⟩)
  · exact .awaits hn halive (Nat.dvd_lcm_right _ _) hearly (abandonTick_lt hsize hne hcoprime)
      (Or.inl (Nat.dvd_lcm_left _ _))

/-- **The wait of a rank**, from a state that its tick can have. -/
theorem callTick_iff (hsize : 3 ≤ c.size) (hne : c.timeoutValue ≠ 0) (hhigher : higher c rank ≠ [])
    (hn : n.Awaits) (halive : n.coordDead = false) (hearly : n.tick < abandonTick c)
    (ts : List (ℕ × Status)) (hlong : patience c ≤ n.tick + ts.length) :
    callTick c rank n ts = some (patience c) ↔ Patient c n := by
  constructor
  · intro hcall
    by_contra hno
    exact callTick_of_hasty hne hhigher (hasty_of_not_patient hsize hne hn halive hearly hno) ts hcall
  · intro hpatient
    have hle : abandonTick c ≤ patience c :=
      Nat.le_of_dvd (Nat.mul_pos (by omega) (Int.natAbs_pos.mpr hne))
        (Nat.lcm_dvd_mul _ _)
    exact callTick_of_onTime hne hhigher ⟨by omega, halive, Or.inl ⟨hn, hpatient⟩⟩ ts hlong

/-! ## The states a rank can wait in -/

/-- A rank whose call is out or answered has ranks above, and a dead coordinator does not wait. -/
structure Consistent (c : Config) (rank : ℕ) (n : Node) : Prop where
  election : n.lastSent = some .election → higher c rank ≠ []
  answer : n.lastReceived = some .answer → higher c rank ≠ []
  dead : n.coordDead = true → n.lastSent = some .iaa

theorem consistent_of_eq {n' : Node} (h : Consistent c rank n) (hsent : n'.lastSent = n.lastSent)
    (hreceived : n'.lastReceived = n.lastReceived) (hdead : n'.coordDead = n.coordDead) :
    Consistent c rank n' := by
  refine ⟨?_, ?_, ?_⟩
  · rw [hsent]
    exact h.election
  · rw [hreceived]
    exact h.answer
  · rw [hdead, hsent]
    exact h.dead

theorem Awaits.not_dead (hn : n.Awaits) (h : Consistent c rank n) : n.coordDead = false := by
  cases hdead : n.coordDead with
  | true => exact absurd (hn.lastSent.symm.trans (h.dead hdead)) (by simp)
  | false => rfl

theorem consistent_onElection (h : Consistent c rank n) (hdead : n.coordDead = false) :
    Consistent c rank (onElection c rank tested n) := by
  unfold onElection
  simp only
  split
  · -- only the answer is sent
    exact ⟨h.election, by simp, h.dead⟩
  · -- the loop over the ranks above sets lastSent, if there are any
    split
    · refine ⟨fun helection => ?_, by simp [isend, count], by simp [isend, count, hdead]⟩
      simp only [sendLoop_lastSent] at helection
      split at helection
      · split at helection
        · exact absurd helection (by simp)
        · assumption
      · exact absurd helection (by simp)
    · refine ⟨fun helection => ?_, by simp [isend, count], by simp [isend, count, hdead]⟩
      simp only [sendLoop_lastSent] at helection
      split at helection
      · exact absurd helection (by simp)
      · assumption

theorem consistent_onMessage (h : Consistent c rank n) (hdead : n.coordDead = false) :
    Consistent c rank (onMessage c rank rn tested n) := by
  unfold onMessage
  split
  · exact consistent_onElection h hdead
  · -- an ANSWER counts while an election is under way
    unfold onAnswer
    split
    · exact ⟨by simp, h.answer, by simp [hdead]⟩
    · split
      · rename_i helection
        exact ⟨by simp, fun _ => h.election helection, by simp [hdead]⟩
      · exact h
  · exact ⟨h.election, by simp [onCoord], h.dead⟩
  · -- an AYA is answered, or kills
    unfold onAYA
    simp only
    split
    · exact ⟨by simp [isend, count], by simp [isend, count], by simp [isend, count]⟩
    · exact ⟨by simp [count], by simp [count], by simp [count]⟩
  · exact ⟨h.election, by simp, h.dead⟩
  · exact h

theorem consistent_receive (h : Consistent c rank n) (i : Input) :
    Consistent c rank (receive c rank n i) := by
  cases hdead : n.coordDead with
  | true =>
      cases i with
      | clock rn tested =>
          rw [receive_clock_dead hdead]
          exact consistent_of_eq h rfl rfl rfl
      | message m rn tested =>
          rw [receive_message_dead hdead]
          exact consistent_of_eq h rfl rfl rfl
      | revive tested => exact ⟨by simp [receive], by simp [receive], by simp [receive]⟩
  | false =>
      cases i with
      | clock rn tested =>
          rcases receive_tick c rank rn tested hdead with ⟨-, heq⟩ | ⟨-, -, heq⟩ | ⟨-, -, heq⟩
          · rw [heq]
            exact consistent_of_eq h rfl rfl rfl
          · rw [heq]
            exact consistent_of_eq h rfl rfl rfl
          · rw [heq]
            refine ⟨by simp [asked], h.answer, fun hno => ?_⟩
            exact absurd (hdead.symm.trans hno) (by simp)
      | message m rn tested =>
          rw [receive_message hdead]
          exact consistent_onMessage (consistent_of_eq h rfl rfl rfl) hdead
      | revive tested => exact ⟨by simp [receive], by simp [receive], by simp [receive]⟩

/-- What the timeout leaves: the state, or one whose wait begins anew. -/
theorem onTimeout_shape (tested : Status) (h : Consistent c rank n) (hdead : n.coordDead = false) :
    onTimeout c rank tested n = n ∨
      (onTimeout c rank tested n).tick = 0 ∧ Consistent c rank (onTimeout c rank tested n) := by
  have hcall : ∀ r, (r = some Tag.answer → higher c rank ≠ []) →
      ({ callElection c rank tested n with lastReceived := r } : Node).tick = 0 ∧
        Consistent c rank { callElection c rank tested n with lastReceived := r } := by
    intro r hr
    refine ⟨rfl, fun helection => ?_, hr, by simp [callElection, hdead]⟩
    simp only [callElection, sendLoop_lastSent] at helection
    split at helection
    · exact h.election helection
    · assumption
  have hdeclare : (declare rank tested n).tick = 0 ∧ Consistent c rank (declare rank tested n) := by
    refine ⟨rfl, fun helection => ?_, by simpa [declare] using h.answer, by simp [declare, hdead]⟩
    simp only [declare, sendLoop_lastSent] at helection
    split at helection
    · exact h.election helection
    · exact absurd helection (by simp)
  rcases onTimeout_cases c rank tested n with ⟨heq, -⟩ | ⟨heq, -⟩ | ⟨heq, -⟩ | heq
  · rw [heq]
    rcases timeoutIdle_cases c rank tested n with ⟨heq, -⟩ | ⟨heq, -⟩ | heq
    · rw [heq]
      refine Or.inr (hcall _ fun hanswer => ?_)
      split at hanswer
      · exact h.answer hanswer
      · assumption
    · rw [heq]
      exact Or.inr hdeclare
    · exact Or.inl heq
  · rw [heq]
    exact Or.inr hdeclare
  · rw [heq]
    exact Or.inr (hcall (callElection c rank tested n).lastReceived (by simpa [callElection] using h.answer))
  · exact Or.inl heq

theorem consistent_handle (h : Consistent c rank n) (i : Input) :
    Consistent c rank (handle c rank n i) := by
  have hreceive := consistent_receive h i
  unfold handle
  rcases checkTimeout_cases c rank i.tested (receive c rank n i) with
    heq | ⟨heq, -⟩ | ⟨heq, -, hdead, -, -⟩
  · rw [heq]
    exact hreceive
  · rw [heq]
    exact consistent_of_eq hreceive rfl rfl rfl
  · rw [heq]
    rcases onTimeout_shape i.tested hreceive hdead with heq | ⟨-, hconsistent⟩
    · rw [heq]
      exact hreceive
    · exact hconsistent

/-- The wait of a rank is over at `abandonTick` at the latest. -/
def Early (c : Config) (n : Node) : Prop := n.Awaits → n.tick < abandonTick c

theorem abandonTick_pos (hsize : 3 ≤ c.size) (hne : c.timeoutValue ≠ 0) : 0 < abandonTick c :=
  Nat.lcm_pos (by omega) (Int.natAbs_pos.mpr hne)

/-- A tick goes one further, and a message begins the wait. -/
theorem early_receive (h : Early c n) (hn : (receive c rank n i).Awaits) :
    (receive c rank n i).tick ≤ abandonTick c := by
  cases hdead : n.coordDead with
  | true =>
      cases i with
      | clock rn tested =>
          rw [receive_clock_dead hdead] at hn ⊢
          exact Nat.le_of_lt (h ⟨hn.running, hn.lastSent, hn.lastReceived⟩)
      | message m rn tested =>
          rw [receive_message_dead hdead] at hn ⊢
          exact Nat.le_of_lt (h ⟨hn.running, hn.lastSent, hn.lastReceived⟩)
      | revive tested => exact absurd hn.lastReceived (by simp [receive])
  | false =>
      cases i with
      | clock rn tested =>
          rcases receive_tick c rank rn tested hdead with ⟨-, heq⟩ | ⟨-, -, heq⟩ | ⟨-, -, heq⟩
          · rw [heq] at hn ⊢
            exact h ⟨hn.running, hn.lastSent, hn.lastReceived⟩
          · rw [heq] at hn
            exact absurd hn.running (by simp)
          · rw [heq] at hn
            exact absurd hn.lastSent (by simp [asked])
      | message m rn tested =>
          rw [receive_message hdead, tick_onMessage]
          exact Nat.zero_le _
      | revive tested => exact absurd hn.lastReceived (by simp [receive])

theorem checkTimeout_at_abandonTick (rank : ℕ) (tested : Status) (hpos : 0 < abandonTick c)
    (hne : c.timeoutValue ≠ 0) (hn : n.Awaits) (halive : n.coordDead = false) (htick : n.tick = abandonTick c) :
    (checkTimeout c rank tested n).tick = 0 := by
  have hdue : n.TimedOut c := by
    rw [timedOut_iff (by omega), htick]
    exact Nat.dvd_lcm_right _ _
  have habandons : n.Abandons c := by
    rw [abandons_iff hne hn.lastReceived, htick]
    exact Nat.dvd_lcm_left _ _
  have hsent := hn.lastSent
  rw [checkTimeout_of_timedOut hne ⟨hn.running, halive⟩ hdue]
  simp only [onTimeout, hsent]
  rw [timeoutIdle_of_abandons habandons hn.lastReceived]
  rfl

theorem early_handle (hsize : 3 ≤ c.size) (hne : c.timeoutValue ≠ 0) (h : Consistent c rank n)
    (hearly : Early c n) (i : Input) : Early c (handle c rank n i) := by
  have hpos := abandonTick_pos hsize hne
  have hreceive := consistent_receive h i
  -- a state that the timeout check leaves alone
  have hsame : handle c rank n i = receive c rank n i → Early c (handle c rank n i) := by
    intro heq hn
    rw [heq] at hn ⊢
    refine Nat.lt_of_le_of_ne (early_receive hearly hn) fun htick => ?_
    have hzero := checkTimeout_at_abandonTick rank i.tested hpos hne hn
      (hn.not_dead hreceive) htick
    change (handle c rank n i).tick = 0 at hzero
    rw [heq, htick] at hzero
    omega
  rcases checkTimeout_cases c rank i.tested (receive c rank n i) with
    heq | ⟨-, hzero⟩ | ⟨heq, -, hdead, -, -⟩
  · exact hsame heq
  · exact absurd hzero hne
  · rcases onTimeout_shape i.tested hreceive hdead with hold | ⟨htick, -⟩
    · exact hsame (heq.trans hold)
    · intro _
      have hhandle : handle c rank n i = onTimeout c rank i.tested (receive c rank n i) := heq
      rw [hhandle, htick]
      exact hpos

theorem consistent_start (c : Config) (rank : ℕ) : Consistent c rank (start c rank) := by
  unfold start
  split
  · refine ⟨fun helection => ?_, by simp, by simp⟩
    rw [sendLoop_lastSent] at helection
    split at helection
    · exact absurd helection (by simp)
    · assumption
  · exact ⟨by simp, by simp, by simp⟩

theorem early_start (c : Config) (rank : ℕ) : Early c (start c rank) := by
  intro hn
  have hreceived := hn.lastReceived
  unfold start at hreceived
  split at hreceived
  · simp at hreceived
  · simp at hreceived

end Node

namespace System

/-! ## Runs of the system -/

/-- The tick at which a rank first calls an election. -/
def callTick (c : Config) (rank : ℕ) : System → List SystemAct → Option ℕ
  | _, [] => none
  | s, a :: as =>
      match input s.net a.rank a.stimulus with
      | some i =>
          if a.rank = rank ∧ (s.nodes rank).CallsElection c rank i then
            some ((s.nodes rank).receive c rank i).tick
          else callTick c rank (next c s a) as
      | none => callTick c rank (next c s a) as

/-- The clock ticks that a rank is given. -/
def ticks (rank : ℕ) (as : List SystemAct) : List (ℕ × Status) :=
  as.filterMap fun a =>
    match a.stimulus with
    | .clock rn tested => if a.rank = rank then some (rn, tested) else none
    | _ => none

/-- The rank is given nothing but clock ticks. -/
def OnlyTicks (rank : ℕ) (as : List SystemAct) : Prop :=
  ∀ a ∈ as, a.rank = rank → ∃ rn tested, a.stimulus = .clock rn tested

variable {c : Config} {s : System} {rank : ℕ} {as bs : List SystemAct} {a : SystemAct}

theorem nodes_next_of_ne (h : a.rank ≠ rank) : (next c s a).nodes rank = s.nodes rank := by
  unfold next
  split
  · simp only [nodeStep, Function.update_of_ne (Ne.symm h)]
  · rfl

/-- What the other ranks do does not concern a rank that is given nothing but ticks. -/
theorem callTick_eq (h : OnlyTicks rank bs) :
    callTick c rank s bs = (s.nodes rank).callTick c rank (ticks rank bs) := by
  induction bs generalizing s with
  | nil => rfl
  | cons a as ih =>
      have htail : OnlyTicks rank as := fun a' ha' => h a' (List.mem_cons_of_mem _ ha')
      by_cases hrank : a.rank = rank
      · -- a tick of the rank
        obtain ⟨rn, tested, hclock⟩ := h a List.mem_cons_self hrank
        have hinput : input s.net a.rank a.stimulus = some (.clock rn tested) := by
          rw [hclock]
          rfl
        have hticks : ticks rank (a :: as) = (rn, tested) :: ticks rank as := by
          simp [ticks, hclock, hrank]
        have hnode : (next c s a).nodes rank = (s.nodes rank).handle c rank (.clock rn tested) := by
          rw [next_of_input hinput, hrank]
          simp only [nodeStep, Function.update_self]
        rw [hticks, Node.callTick, ← hnode, ← ih htail, callTick, hinput]
        simp only [hrank, true_and]
      · -- a step of another rank
        have hticks : ticks rank (a :: as) = ticks rank as := by
          unfold ticks
          rw [List.filterMap_cons]
          split
          · rfl
          · rename_i t ht
            split at ht
            · simp [hrank] at ht
            · simp at ht
        rw [hticks, ← nodes_next_of_ne (c := c) (s := s) hrank, ← ih htail, callTick]
        simp only [hrank, false_and, if_false]
        split
        · rfl
        · rfl

/-- What every rank keeps. -/
def Patiently (c : Config) (s : System) : Prop :=
  ∀ rank, (s.nodes rank).Consistent c rank ∧ (s.nodes rank).Early c

/-- **Step lemma** -/
theorem patiently_next (hsize : 3 ≤ c.size) (hne : c.timeoutValue ≠ 0) (h : Patiently c s)
    (a : SystemAct) : Patiently c (next c s a) := by
  intro rank
  by_cases hrank : a.rank = rank
  · subst hrank
    cases hinput : input s.net a.rank a.stimulus with
    | none =>
        simp only [next, hinput]
        exact h a.rank
    | some i =>
        rw [next_of_input hinput]
        simp only [nodeStep, Function.update_self]
        obtain ⟨hconsistent, hearly⟩ := h a.rank
        exact ⟨Node.consistent_handle hconsistent i,
          Node.early_handle hsize hne hconsistent hearly i⟩
  · rw [nodes_next_of_ne hrank]
    exact h rank

theorem patiently_after (hsize : 3 ≤ c.size) (hne : c.timeoutValue ≠ 0) (as : List SystemAct) :
    Patiently c ((machine c).after (start c) as) := by
  have hall : (machine c).Along (fun _ _ => True) (start c) as :=
    Machine.along_iff_forall_prefix.mpr fun _ _ _ => trivial
  exact hall.invariant (fun rank => ⟨Node.consistent_start c rank, Node.early_start c rank⟩)
    fun s a hs _ => patiently_next hsize hne hs a

end System

end DistributedSystem.MpiBully
