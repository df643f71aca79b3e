import DistributedSystem.Bully.Node
import Mathlib.Data.List.Basic
import Mathlib.Order.MinMax

/-!
# Clocks with one slot for each member

`mergeVectorClock` works by array position and copies node ids together with times, so it
computes a maximum only if a slot never holds the entries of two members. In a group that
reads one list a node uses the slot of its position there, and slot `i` of every clock is
empty or belongs to the `i`-th member.
-/

namespace DistributedSystem.Bully

open Node

variable {ports : List ℕ} {vc vc' : VClock} {p q : ℕ} {k : Fin maxNodes}

/-- Slot `k` is empty, or counts events of the member on the `k`-th port. -/
def Slotted (ports : List ℕ) (vc : VClock) : Prop :=
  ∀ k : Fin maxNodes, vc k = ⟨0, 0⟩ ∨ 0 < (vc k).time ∧ ports[(k : ℕ)]? = some (vc k).nodeId

/-- The time a clock gives to the member on a port: the entry of its slot. -/
def timeAt (ports : List ℕ) (vc : VClock) (q : ℕ) : ℕ :=
  if h : ports.idxOf q < maxNodes then (vc ⟨ports.idxOf q, h⟩).time else 0

/-! ## Slots and members -/

theorem exists_slot (hroom : ports.length ≤ maxNodes) (hq : q ∈ ports) :
    ∃ k : Fin maxNodes, ports[(k : ℕ)]? = some q :=
  ⟨⟨ports.idxOf q, (List.idxOf_lt_length_of_mem hq).trans_le hroom⟩, List.getElem?_idxOf hq⟩

theorem timeAt_of_slot (hnodup : ports.Nodup) (hk : ports[(k : ℕ)]? = some q) :
    timeAt ports vc q = (vc k).time := by
  obtain ⟨hlt, rfl⟩ := List.getElem?_eq_some_iff.mp hk
  have hidx : ports.idxOf ports[(k : ℕ)] = k := hnodup.idxOf_getElem _ hlt
  unfold timeAt
  simp only [hidx, k.isLt, dite_true]

/-- A clock gives no time to strangers. -/
theorem timeAt_of_not_mem (hs : Slotted ports vc) (hq : q ∉ ports) : timeAt ports vc q = 0 := by
  unfold timeAt
  split
  · rename_i h
    rcases hs ⟨ports.idxOf q, h⟩ with hempty | ⟨-, hslot⟩
    · -- an empty slot counts 0, and no slot belongs to a stranger
      rw [hempty]
    · rw [List.getElem?_eq_none (List.idxOf_of_notMem hq).ge] at hslot
      cases hslot
  · rfl

/-- The slot of a member that the clock knows has its id. -/
theorem nodeId_of_timeAt (hs : Slotted ports vc) (hnodup : ports.Nodup)
    (hk : ports[(k : ℕ)]? = some q) (hpos : 0 < timeAt ports vc q) : (vc k).nodeId = q := by
  rw [timeAt_of_slot hnodup hk] at hpos
  rcases hs k with hempty | ⟨-, hslot⟩
  · rw [hempty] at hpos
    exact absurd hpos (lt_irrefl 0)
  · exact Option.some.inj (hslot.symm.trans hk)

/-- An id other than 0 stands in its own slot only. -/
theorem slot_of_nodeId (hs : Slotted ports vc) (hp : p ≠ 0) (h : (vc k).nodeId = p) :
    ports[(k : ℕ)]? = some p := by
  rcases hs k with hempty | ⟨-, hslot⟩
  · rw [hempty] at h
    exact absurd h.symm hp
  · rwa [h] at hslot

/-! ## The operations -/

/-- The own time does not wrap. -/
theorem time_succ_mod (hs : Slotted ports vc) (hnodup : ports.Nodup) (hp : p ≠ 0)
    (hword : timeAt ports vc p + 1 < 2 ^ 32) (hid : (vc k).nodeId = p) :
    ((vc k).time + 1) % 2 ^ 32 = (vc k).time + 1 := by
  rw [timeAt_of_slot hnodup (slot_of_nodeId hs hp hid)] at hword
  exact Nat.mod_eq_of_lt hword

theorem Slotted.tick (hs : Slotted ports vc) (hnodup : ports.Nodup) (hp : p ≠ 0)
    (hword : timeAt ports vc p + 1 < 2 ^ 32) : Slotted ports (updateMyVectorClock p vc) := by
  intro k
  unfold updateMyVectorClock
  split
  · rename_i hid
    rw [time_succ_mod hs hnodup hp hword hid]
    exact Or.inr ⟨Nat.succ_pos _, by rw [hid]; exact slot_of_nodeId hs hp hid⟩
  · exact hs k

/-- A node that has its entry counts one more event of its own. -/
theorem timeAt_tick (hs : Slotted ports vc) (hnodup : ports.Nodup) (hroom : ports.length ≤ maxNodes)
    (hp : p ≠ 0) (hown : 0 < timeAt ports vc p) (hword : timeAt ports vc p + 1 < 2 ^ 32) (q : ℕ) :
    timeAt ports (updateMyVectorClock p vc) q = timeAt ports vc q + if q = p then 1 else 0 := by
  by_cases hq : q ∈ ports
  · obtain ⟨k, hk⟩ := exists_slot hroom hq
    rw [timeAt_of_slot hnodup hk, timeAt_of_slot hnodup hk, updateMyVectorClock]
    by_cases hqp : q = p
    · subst hqp
      have hid := nodeId_of_timeAt hs hnodup hk hown
      rw [if_pos hid, if_pos rfl, time_succ_mod hs hnodup hp hword hid]
    · -- the slots of the other members have other ids
      have hid : (vc k).nodeId ≠ p := by
        intro hid
        exact hqp (Option.some.inj (hk.symm.trans (slot_of_nodeId hs hp hid)))
      rw [if_neg hid, if_neg hqp, Nat.add_zero]
  · -- `p` has an entry, so it is a member
    have hqp : q ≠ p := by
      rintro rfl
      rw [timeAt_of_not_mem hs hq] at hown
      exact lt_irrefl 0 hown
    rw [timeAt_of_not_mem (hs.tick hnodup hp hword) hq, timeAt_of_not_mem hs hq, if_neg hqp]

/-- After `k` ticks. -/
theorem iterate_updateMyVectorClock (h : ∀ i, (vc i).time < 2 ^ 32) (p k : ℕ) (i : Fin maxNodes) :
    (updateMyVectorClock p)^[k] vc i =
      if (vc i).nodeId = p then { vc i with time := ((vc i).time + k) % 2 ^ 32 } else vc i := by
  induction k with
  | zero =>
      rw [Function.iterate_zero_apply, Nat.add_zero, Nat.mod_eq_of_lt (h i), ite_self]
  | succ k ih =>
      rw [Function.iterate_succ_apply', updateMyVectorClock, ih]
      by_cases hid : (vc i).nodeId = p
      · simp only [if_pos hid]
        rw [Nat.mod_add_mod, Nat.add_assoc]
      · simp only [if_neg hid]

/-- After `2 ^ 32` ticks a clock is where it was. -/
theorem iterate_updateMyVectorClock_words (h : ∀ i, (vc i).time < 2 ^ 32) (p : ℕ) :
    (updateMyVectorClock p)^[2 ^ 32] vc = vc := by
  funext i
  rw [iterate_updateMyVectorClock h, Nat.add_mod_right, Nat.mod_eq_of_lt (h i), ite_self]

theorem Slotted.merge {m : Msg} (hs : Slotted ports vc) (hm : Slotted ports m.vectorClock) :
    Slotted ports (mergeVectorClock vc m) := by
  intro k
  unfold mergeVectorClock
  split
  · exact hm k
  · exact hs k

/-- Slot by slot, the merge takes the maximum. -/
theorem timeAt_merge (m : Msg) (q : ℕ) : timeAt ports (mergeVectorClock vc m) q =
    max (timeAt ports vc q) (timeAt ports m.vectorClock q) := by
  unfold timeAt
  split
  · unfold mergeVectorClock
    split
    · exact (max_eq_right (Nat.le_of_lt ‹_›)).symm
    · exact (max_eq_left (Nat.le_of_not_gt ‹_›)).symm
  · rfl

/-! ## The first clock -/

/-- `foundInGroup` is the slot of the own port. -/
theorem foundInGroup_eq {c : Config} (hnodup : (c.groupMems.map GroupMem.portno).Nodup)
    (hk : (c.groupMems.map GroupMem.portno)[(k : ℕ)]? = some c.port) : foundInGroup c = k := by
  obtain ⟨hlt, hport⟩ := List.getElem?_eq_some_iff.mp hk
  have hidx := hnodup.idxOf_getElem _ hlt
  rw [hport, List.idxOf, List.findIdx_map] at hidx
  -- the loop compares the other way round
  rw [← hidx, foundInGroup]
  congr 1
  funext m
  rw [Bool.eq_iff_iff, decide_eq_true_iff]
  show c.port = m.portno ↔ (m.portno == c.port) = true
  rw [beq_iff_eq, eq_comm]

variable {c : Config}

theorem slotted_startClock (hports : c.groupMems.map GroupMem.portno = ports) (hnodup : ports.Nodup)
    (hroom : ports.length ≤ maxNodes) (hp : c.port ∈ ports) : Slotted ports (startClock c) := by
  subst hports
  obtain ⟨k, hk⟩ := exists_slot hroom hp
  have hfound : foundInGroup c = k := foundInGroup_eq hnodup hk
  intro l
  unfold startClock
  split
  · rename_i hl
    obtain rfl : l = k := Fin.ext (hl.trans hfound)
    exact Or.inr ⟨Nat.one_pos, hk⟩
  · exact Or.inl rfl

/-- It counts the start of its own node. -/
theorem timeAt_startClock (hports : c.groupMems.map GroupMem.portno = ports) (hnodup : ports.Nodup)
    (hroom : ports.length ≤ maxNodes) (hp : c.port ∈ ports) (q : ℕ) :
    timeAt ports (startClock c) q = if q = c.port then 1 else 0 := by
  subst hports
  obtain ⟨k, hk⟩ := exists_slot hroom hp
  have hfound : foundInGroup c = k := foundInGroup_eq hnodup hk
  by_cases hq : q ∈ c.groupMems.map GroupMem.portno
  · obtain ⟨l, hl⟩ := exists_slot hroom hq
    rw [timeAt_of_slot hnodup hl, startClock, hfound]
    by_cases hlk : (l : ℕ) = k
    · have hqp : q = c.port := by
        rw [hlk] at hl
        exact Option.some.inj (hl.symm.trans hk)
      rw [if_pos hlk, if_pos hqp]
    · have hqp : q ≠ c.port := by
        rintro rfl
        exact hlk ((foundInGroup_eq hnodup hl).symm.trans hfound)
      rw [if_neg hlk, if_neg hqp]
  · have hqp : q ≠ c.port := by
      rintro rfl
      exact hq hp
    rw [timeAt_of_not_mem (slotted_startClock rfl hnodup hroom hp) hq, if_neg hqp]

/-! ## Comparing clocks -/

/-- Componentwise, slot by slot. -/
theorem forall_timeAt_le (hs : Slotted ports vc) (hnodup : ports.Nodup) :
    (∀ q, timeAt ports vc q ≤ timeAt ports vc' q) ↔ ∀ k, (vc k).time ≤ (vc' k).time := by
  constructor
  · intro h k
    rcases hs k with hempty | ⟨-, hslot⟩
    · rw [hempty]
      exact Nat.zero_le _
    · have hle := h (vc k).nodeId
      rwa [timeAt_of_slot hnodup hslot, timeAt_of_slot hnodup hslot] at hle
  · intro h q
    unfold timeAt
    split
    · exact h _
    · exact Nat.le_refl 0

/-- Clocks that give the same times are the same. -/
theorem eq_of_timeAt_eq (hs : Slotted ports vc) (hs' : Slotted ports vc') (hnodup : ports.Nodup)
    (h : timeAt ports vc = timeAt ports vc') : vc = vc' := by
  funext k
  have htime : (vc k).time = (vc' k).time :=
    le_antisymm ((forall_timeAt_le hs hnodup).mp (fun q => (congrFun h q).le) k)
      ((forall_timeAt_le hs' hnodup).mp (fun q => (congrFun h q).ge) k)
  -- slots of equal times are both empty or both belong to the same member
  have hid : (vc k).nodeId = (vc' k).nodeId := by
    rcases hs k with hempty | ⟨hpos, hslot⟩
    · rcases hs' k with hempty' | ⟨hpos', -⟩
      · rw [hempty, hempty']
      · rw [← htime, hempty] at hpos'
        exact absurd hpos' (lt_irrefl 0)
    · rcases hs' k with hempty' | ⟨-, hslot'⟩
      · rw [htime, hempty'] at hpos
        exact absurd hpos (lt_irrefl 0)
      · exact Option.some.inj (hslot.symm.trans hslot')
  calc vc k = ⟨(vc k).nodeId, (vc k).time⟩ := rfl
    _ = ⟨(vc' k).nodeId, (vc' k).time⟩ := by rw [hid, htime]
    _ = vc' k := rfl

end DistributedSystem.Bully
