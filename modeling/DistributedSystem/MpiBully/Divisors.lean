import DistributedSystem.Library.CString
import DistributedSystem.MpiBully.Runs

/-!
# Divisors of the MPI bully program

The remainders that an iteration of `handleNode` computes, in the order of the source and as
far as its conditions are evaluated, and the command lines of `bully`. An iteration ends the
rank exactly where one of the divisors is zero.
-/

namespace DistributedSystem.MpiBully

open DistributedSystem.Library
open Library.Numeral

/-! ## The command line -/

/-- An `unsigned long` that is assigned to an `int`. -/
def toInt (value : ℕ) : ℤ := (value : ℤ).bmod (2 ^ 32)

/-- `bully`, up to the start of the nodes. What only prints or measures time is left out. -/
def bully (size : ℕ) : List CString → Option Config
  | [_, isDebug, timeoutValue, AYATime, sendFailure, returnToLife] =>
      let (_, err) := convert isDebug 0
      let (timeoutValue, err) := convert timeoutValue err
      let (AYATime, err) := convert AYATime err
      let (sendFailure, err) := convert sendFailure err
      let (_, err) := convert returnToLife err
      if err ≠ 0 then none
      else some ⟨size, toInt timeoutValue, toInt AYATime, toInt sendFailure⟩
  -- the usage text
  | _ => none

/-- The five arguments have to start with a number. -/
theorem bully_isSome_iff (size : ℕ) (argv : List CString) : (bully size argv).isSome = true ↔
    argv.length = 6 ∧ ∀ arg ∈ argv.tail, ∃ n, StartsWith arg.bytes n := by
  match argv with
  | [_, isDebug, timeoutValue, AYATime, sendFailure, returnToLife] =>
    -- an error of any argument stays in the count
    have herr : (convert returnToLife (convert sendFailure (convert AYATime (convert timeoutValue
        (convert isDebug 0).2).2).2).2).2 = 0 ↔
        ∀ arg ∈ [isDebug, timeoutValue, AYATime, sendFailure, returnToLife],
          ∃ n, StartsWith arg.bytes n := by
      simp only [convert_eq_zero_iff, List.forall_mem_cons]
      simp [and_assoc]
    rw [bully, List.tail_cons, ← herr]
    simp only [List.length_cons, List.length_nil, true_and]
    split
    · next hne => simpa using hne
    · next heq => simpa using heq
  | [] | [_] | [_, _] | [_, _, _] | [_, _, _, _] | [_, _, _, _, _] => simp [bully]
  | _ :: _ :: _ :: _ :: _ :: _ :: _ :: _ => simp [bully]

theorem toInt_mem (value : ℕ) : -2 ^ 31 ≤ toInt value ∧ toInt value < 2 ^ 31 := by
  have hlow : -(2 ^ 31 : ℤ) ≤ toInt value := Int.le_bmod (by decide)
  have hhigh : toInt value < 2 ^ 31 := Int.bmod_lt (by decide)
  exact ⟨hlow, hhigh⟩

/-- The AYA time is an `int`. -/
theorem of_bully {size : ℕ} {argv : List CString} {c : Config} (h : bully size argv = some c) :
    c.size = size ∧ -2 ^ 31 ≤ c.AYATime ∧ c.AYATime < 2 ^ 31 := by
  unfold bully at h
  split at h
  · simp only [Option.ite_none_left_eq_some, Option.some.injEq] at h
    obtain ⟨-, rfl⟩ := h
    refine ⟨rfl, ?_⟩
    dsimp only
    exact toInt_mem _
  · exact absurd h.symm (Option.some_ne_none c)

/-! ## The divisors -/

namespace Node

/-- A tick: the interval is tested first, and a new one is drawn if an AYA is due. -/
def clockDivisors (c : Config) (n : Node) : List ℤ :=
  (if n.AYARate = 0 then [] else [(n.AYARate : ℤ)]) ++
    if (n.AYARate = 0 ∨ (n.AYATick + 1) % n.AYARate = 0) ∧ n.coordNode ≠ 0 then [twiceAYATime c]
    else []

/-- The end of an iteration. -/
def timeoutDivisors (c : Config) (n : Node) : List ℤ :=
  if n.halted ∨ n.coordDead then []
  else
    c.timeoutValue ::
      if n.TimedOut c ∧ n.lastSent = none ∧ n.lastReceived = some .answer then [(c.size : ℤ) - 1]
      else []

/-- The divisors of an iteration, apart from the constant 100. -/
def divisors (c : Config) (rank : ℕ) (n : Node) (i : Input) : List ℤ :=
  (match i with
    | .clock _ _ => if n.coordDead then [] else n.clockDivisors c
    | .message _ _ _ | .revive _ => []) ++
    (receive c rank n i).timeoutDivisors c

variable {c : Config} {rank rn : ℕ} {n : Node} {i : Input} {m : Packet} {tested : Status}

/-! ### Where a rank ends -/

theorem zero_mem_ite {p : Prop} [Decidable p] {d : ℤ} :
    0 ∈ (if p then [d] else []) ↔ p ∧ d = 0 := by
  split
  · next hp => simp [hp, eq_comm]
  · next hp => simp [hp]

/-- The test of the interval is guarded. -/
theorem zero_mem_clockDivisors : 0 ∈ n.clockDivisors c ↔
    ((n.AYARate = 0 ∨ (n.AYATick + 1) % n.AYARate = 0) ∧ n.coordNode ≠ 0) ∧ twiceAYATime c = 0 := by
  have hguarded : (0 : ℤ) ∉ (if n.AYARate = 0 then [] else [(n.AYARate : ℤ)]) := by
    split
    · simp
    · next hrate =>
      rw [List.mem_singleton]
      omega
  rw [clockDivisors, List.mem_append, or_iff_right hguarded, zero_mem_ite]

theorem zero_mem_timeoutDivisors (hsize : 2 ≤ c.size) : 0 ∈ n.timeoutDivisors c ↔
    (n.halted = false ∧ n.coordDead = false) ∧ c.timeoutValue = 0 := by
  have hsizeDivisor : (c.size : ℤ) - 1 ≠ 0 := by omega
  unfold timeoutDivisors
  split
  · next hgone =>
    rcases hgone with hhalted | hdead
    · simp [hhalted]
    · simp [hdead]
  · next hrun =>
    simp only [not_or, Bool.not_eq_true] at hrun
    rw [List.mem_cons, zero_mem_ite]
    simp [hrun, hsizeDivisor, eq_comm]

theorem halted_onClock :
    (onClock c rank rn tested n).halted = true ↔ n.halted = true ∨ 0 ∈ n.clockDivisors c := by
  rw [zero_mem_clockDivisors]
  unfold onClock
  by_cases hdue : (n.AYARate = 0 ∨ (n.AYATick + 1) % n.AYARate = 0) ∧ n.coordNode ≠ 0
  · by_cases htwice : twiceAYATime c = 0
    · simp [hdue, htwice]
    · simp [hdue, htwice, isend, count]
  · simp [hdue]

@[simp] theorem halted_onMessage : (onMessage c rank rn tested n).halted = n.halted := by
  unfold onMessage
  split
  · unfold onElection
    simp only
    split
    · rfl
    · split
      · simp [isend, count]
      · simp [isend, count]
  · unfold onAnswer
    split
    · rfl
    · split
      · rfl
      · rfl
  · rfl
  · unfold onAYA
    simp only
    split
    · rfl
    · rfl
  · rfl
  · rfl

@[simp] theorem halted_onTimeout : (onTimeout c rank tested n).halted = n.halted := by
  rcases onTimeout_cases c rank tested n with ⟨heq, -⟩ | ⟨heq, -⟩ | ⟨heq, -⟩ | heq
  · rw [heq]
    rcases timeoutIdle_cases c rank tested n with ⟨hidle, -⟩ | ⟨hidle, -⟩ | hidle
    · simp [hidle, callElection]
    · simp [hidle, declare]
    · rw [hidle]
  · simp [heq, declare]
  · simp [heq, callElection]
  · rw [heq]

theorem halted_checkTimeout (hsize : 2 ≤ c.size) :
    (checkTimeout c rank tested n).halted = true ↔
      n.halted = true ∨ 0 ∈ n.timeoutDivisors c := by
  rw [zero_mem_timeoutDivisors hsize]
  unfold checkTimeout
  by_cases hgone : n.halted ∨ n.coordDead
  · rcases hgone with hhalted | hdead
    · simp [hhalted]
    · simp [hdead]
  rw [if_neg hgone]
  simp only [not_or, Bool.not_eq_true] at hgone
  by_cases hzero : c.timeoutValue = 0
  · simp [hzero, hgone]
  · rw [if_neg hzero]
    split
    · simp [hzero]
    · simp [hzero]

theorem halted_receive : (receive c rank n i).halted = true ↔
    n.halted = true ∨ 0 ∈ (match i with
      | .clock _ _ => if n.coordDead then [] else n.clockDivisors c
      | .message _ _ _ | .revive _ => []) := by
  cases i with
  | clock rn tested =>
    cases hdead : n.coordDead with
    | true => simp [receive_clock_dead hdead, await]
    | false =>
      rw [receive_clock hdead, halted_onClock]
      rfl
  | message m rn tested =>
    cases hdead : n.coordDead with
    | true => simp [receive_message_dead hdead, await]
    | false => simp [receive_message hdead, await]
  | revive tested => simp [receive]

/-- An iteration ends the rank exactly where it divides by zero. -/
theorem halted_handle_iff (hsize : 2 ≤ c.size) (hrun : n.halted = false) :
    (handle c rank n i).halted = true ↔ 0 ∈ n.divisors c rank i := by
  unfold divisors
  rw [handle, halted_checkTimeout hsize, List.mem_append, halted_receive, hrun]
  simp only [Bool.false_eq_true, false_or]

end Node

namespace System

/-- No divisor of the step is zero. -/
def NonzeroDivisors (c : Config) (s : System) (a : SystemAct) : Prop :=
  ∀ i ∈ input s.net a.rank a.stimulus, 0 ∉ (s.nodes a.rank).divisors c a.rank i

variable {c : Config} {s : System} {a : SystemAct}

/-- An `int` is twice another one modulo its width, so this is zero for half the width too. -/
theorem twiceAYATime_eq_zero_iff (c : Config) : twiceAYATime c = 0 ↔ c.AYATime % 2 ^ 31 = 0 := by
  unfold twiceAYATime
  rw [Int.bmod_eq_iff (by decide)]
  omega

/-! ### Runs without a zero -/

/-- A rank asks a rank above it, and with two ranks there is none. -/
theorem nonzeroDivisors_of_ranked (hsize : 2 ≤ c.size) (htimeout : c.timeoutValue ≠ 0)
    (htwice : c.size = 2 ∨ twiceAYATime c ≠ 0) (h : Ranked c s) (ha : enabled c s a) :
    NonzeroDivisors c s a := by
  intro i hin hzero
  rcases List.mem_append.mp hzero with hclock | htimeoutZero
  · cases i with
    | clock rn tested =>
      simp only at hclock
      split at hclock
      · exact absurd hclock List.not_mem_nil
      · obtain ⟨⟨-, hcoord⟩, hno⟩ := Node.zero_mem_clockDivisors.mp hclock
        rcases htwice with htwo | hne
        · obtain ⟨hpos, -⟩ := ha
          rcases h.coords a.rank with hnone | ⟨habove, hlt⟩
          · exact hcoord hnone
          · omega
        · exact hne hno
    | message m rn tested => exact absurd hclock List.not_mem_nil
    | revive tested => exact absurd hclock List.not_mem_nil
  · exact htimeout ((Node.zero_mem_timeoutDivisors hsize).mp htimeoutZero).2

/-! ### Runs into a zero -/

theorem start_running (c : Config) (rank : ℕ) : (Node.start c rank).Running := by
  unfold Node.start
  split
  · exact ⟨by simp, by simp⟩
  · exact ⟨rfl, rfl⟩

theorem start_unasked (c : Config) (rank : ℕ) :
    (Node.start c rank).coordNode = 0 ∧ (Node.start c rank).AYARate = 0 := by
  unfold Node.start
  split
  · exact ⟨by simp, by simp⟩
  · exact ⟨rfl, rfl⟩

/-- The first tick of the clock divides by the timeout. -/
theorem canBreak_of_timeoutValue (hsize : 2 ≤ c.size) (hzero : c.timeoutValue = 0) :
    CanBreak c (fun x a => NonzeroDivisors c x.1 a) (beginning c) := by
  refine Machine.CanBreak.here (a := ⟨1, .clock 0 ⟨0, .clock⟩⟩) ?_ fun h => ?_
  · exact ⟨Nat.one_pos, hsize, _, rfl, (start_running c 1).1, by decide⟩
  · refine h _ rfl (List.mem_append_right _ ?_)
    have hrun := start_running c 1
    have hquiet : (Node.start c 1).Quiet := fun hcoord => absurd (start_unasked c 1).1 hcoord
    have hreceive : (Node.start c 1).receive c 1 (.clock 0 ⟨0, .clock⟩) = (Node.start c 1).ticked := by
      rw [Node.receive_clock hrun.2, Node.onClock_of_quiet hquiet]
    show 0 ∈ ((Node.start c 1).receive c 1 (.clock 0 ⟨0, .clock⟩)).timeoutDivisors c
    rw [hreceive, Node.zero_mem_timeoutDivisors hsize]
    exact ⟨hrun, hzero⟩

/-- The first tick after the first COORD divides by `2 * AYATime`. -/
theorem canBreak_of_AYATime (hsize : 2 < c.size) (htimeout : c.timeoutValue ≠ 0)
    (hzero : twiceAYATime c = 0) :
    CanBreak c (fun x a => NonzeroDivisors c x.1 a) (beginning c) := by
  have hone : 1 ≠ c.size - 1 := by omega
  -- the highest rank declares itself when the election of rank 1 reaches it
  obtain ⟨d, hd⟩ := exists_election_start (c := c) (r := c.size - 1) (by omega) (by omega)
  have htopIdle : (Node.start c (c.size - 1)).lastSent ≠ some .election := by
    rw [start_idle hone.symm]
    simp
  refine canBreak_of_deliver (c.size - 1) 0 hd rfl (by omega) (by omega)
    (start_running c (c.size - 1)) (by decide) fun x₁ h₁ => ?_
  obtain ⟨-, -, hcoords⟩ := h₁.election_highest htimeout (start_running c (c.size - 1)) rfl
    (higher_highest (by omega)) htopIdle
  obtain ⟨e, he⟩ := hcoords 1 (mem_lower.mpr ⟨Nat.one_pos, by omega⟩)
  -- rank 1 learns of it
  have hnode₁ : x₁.1.nodes 1 = Node.start c 1 := h₁.others 1 hone
  have hrun₁ : (x₁.1.nodes 1).Running := hnode₁ ▸ start_running c 1
  refine canBreak_of_deliver 1 0 he rfl Nat.one_pos (by omega) hrun₁ (by decide) fun x₂ h₂ => ?_
  obtain ⟨hrestarted, -, hcoord⟩ := h₂.coord htimeout hrun₁ rfl
  have hrate : (x₂.1.nodes 1).AYARate = 0 := by
    rw [hrestarted.AYARate, hnode₁]
    exact (start_unasked c 1).2
  have hcoordNe : (x₂.1.nodes 1).coordNode ≠ 0 := by
    rw [hcoord]
    show c.size - 1 ≠ 0
    omega
  refine Machine.CanBreak.here (a := ⟨1, .clock 0 ⟨0, .clock⟩⟩) ?_ fun h => ?_
  · exact ⟨Nat.one_pos, Nat.lt_of_succ_lt hsize, _, rfl, hrestarted.running.1, by decide⟩
  · refine h _ rfl (List.mem_append_left _ ?_)
    simp only [hrestarted.running.2, Bool.false_eq_true, if_false]
    exact Node.zero_mem_clockDivisors.mpr ⟨⟨Or.inl hrate, hcoordNe⟩, hzero⟩

/-- Every run of the ranks is without a zero exactly when the timeout is not zero and, where
    there is anybody to ask, neither is the bound of the intervals. -/
theorem nonzeroDivisors_along_iff (hsize : 2 ≤ c.size) :
    (∀ as, (machine c).Along (enabled c) (start c) as →
      (machine c).Along (NonzeroDivisors c) (start c) as) ↔
      c.timeoutValue ≠ 0 ∧ (c.size = 2 ∨ c.AYATime % 2 ^ 31 ≠ 0) := by
  rw [ne_eq, ne_eq, ← twiceAYATime_eq_zero_iff]
  constructor
  · intro h
    have hno : ¬ CanBreak c (fun x a => NonzeroDivisors c x.1 a) (beginning c) := by
      rintro ⟨as, hrun, hbad⟩
      exact hbad (Machine.along_watch.mpr (h as (Machine.along_watch.mp hrun)))
    have htimeout : c.timeoutValue ≠ 0 := fun hzero => hno (canBreak_of_timeoutValue hsize hzero)
    refine ⟨htimeout, ?_⟩
    by_contra hboth
    simp only [not_or, not_not] at hboth
    exact hno (canBreak_of_AYATime (by omega) htimeout hboth.2)
  · rintro ⟨htimeout, htwice⟩ as hrun
    exact hrun.strengthen (ranked_start c) (fun s a h ha => ranked_next h ha)
      fun s a h ha => nonzeroDivisors_of_ranked hsize htimeout htwice h ha

end System

end DistributedSystem.MpiBully
