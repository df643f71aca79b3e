import DistributedSystem.Bully.Node
import Mathlib.Order.Bounds.Basic

/-!
# Clocks with slots in any order

The message format lets a clock hold its entries in any order, with unused slots anywhere.
`mergeVectorClock` compares slot by slot and ignores the ids, so that it merges two such
clocks only if the entries that meet in a slot belong together. `Aligned` says of an id
when they do.
-/

namespace DistributedSystem.Bully

namespace Node

variable {mine : VClock} {m : Msg} {id : ℕ} {i j k : Fin maxNodes}

/-- No id has two slots. -/
def DistinctIds (vc : VClock) : Prop := ∀ i j, (vc i).nodeId ≠ 0 → (vc i).nodeId = (vc j).nodeId → i = j

/-- The clock has an entry for `id`. -/
def Knows (vc : VClock) (id : ℕ) : Prop := ∃ i, (vc i).nodeId = id

/-- The times that two clocks hold for `id`. -/
def timesOf (mine received : VClock) (id : ℕ) : Set ℕ := {t | ∃ i, mine i = ⟨id, t⟩ ∨ received i = ⟨id, t⟩}

/-- After the merge `id` has one slot, with the greatest of its times. -/
def Merges (mine : VClock) (m : Msg) (id : ℕ) : Prop :=
  ∃ i, (mergeVectorClock mine m i).nodeId = id ∧
    (∀ j, (mergeVectorClock mine m j).nodeId = id → j = i) ∧
    IsGreatest (timesOf mine m.vectorClock id) (mergeVectorClock mine m i).time

/-- The merge keeps the entry of `mine` in slot `i`. -/
def Keeps (mine : VClock) (m : Msg) (i : Fin maxNodes) : Prop := (m.vectorClock i).time ≤ (mine i).time

instance (vc : VClock) : Decidable (DistinctIds vc) := by unfold DistinctIds; infer_instance

instance (vc : VClock) (id : ℕ) : Decidable (Knows vc id) := by unfold Knows; infer_instance

instance (mine : VClock) (m : Msg) (i : Fin maxNodes) : Decidable (Keeps mine m i) := by
  unfold Keeps; infer_instance

/-- Of my entry in slot `i` and the received one in slot `j` one stays, with the greater time. -/
def OneStays (mine : VClock) (m : Msg) (i j : Fin maxNodes) : Prop :=
  (Keeps mine m i ∧ Keeps mine m j ∧ (m.vectorClock j).time ≤ (mine i).time) ∨
    (¬ Keeps mine m i ∧ ¬ Keeps mine m j ∧ (mine i).time ≤ (m.vectorClock j).time)

instance (mine : VClock) (m : Msg) (i j : Fin maxNodes) : Decidable (OneStays mine m i j) := by
  unfold OneStays; infer_instance

/-- The slots of `id` fit: an id of one clock stays, and so does one of two entries in
    different slots. -/
structure Aligned (mine : VClock) (m : Msg) (id : ℕ) : Prop where
  mineOnly : ¬ Knows m.vectorClock id → ∀ i, (mine i).nodeId = id → Keeps mine m i
  receivedOnly : ¬ Knows mine id → ∀ j, (m.vectorClock j).nodeId = id → ¬ Keeps mine m j
  both : ∀ i j, (mine i).nodeId = id → (m.vectorClock j).nodeId = id → i ≠ j → OneStays mine m i j

instance (mine : VClock) (m : Msg) (id : ℕ) : Decidable (Aligned mine m id) :=
  decidable_of_iff
    ((¬ Knows m.vectorClock id → ∀ i, (mine i).nodeId = id → Keeps mine m i) ∧
      (¬ Knows mine id → ∀ j, (m.vectorClock j).nodeId = id → ¬ Keeps mine m j) ∧
      ∀ i j, (mine i).nodeId = id → (m.vectorClock j).nodeId = id → i ≠ j → OneStays mine m i j)
    ⟨fun h => ⟨h.1, h.2.1, h.2.2⟩, fun h => ⟨h.mineOnly, h.receivedOnly, h.both⟩⟩

/-! ## One slot -/

theorem mergeVectorClock_of_keeps (h : Keeps mine m i) : mergeVectorClock mine m i = mine i :=
  if_neg (Nat.not_lt.mpr h)

theorem mergeVectorClock_of_not_keeps (h : ¬ Keeps mine m i) :
    mergeVectorClock mine m i = m.vectorClock i := if_pos (Nat.not_le.mp h)

/-- Where an id stands after the merge. -/
theorem nodeId_mergeVectorClock : (mergeVectorClock mine m k).nodeId = id ↔
    (Keeps mine m k ∧ (mine k).nodeId = id) ∨ (¬ Keeps mine m k ∧ (m.vectorClock k).nodeId = id) := by
  by_cases hk : Keeps mine m k
  · rw [mergeVectorClock_of_keeps hk]
    simp [hk]
  · rw [mergeVectorClock_of_not_keeps hk]
    simp [hk]

theorem mem_timesOf_mine (hi : (mine i).nodeId = id) (received : VClock) :
    (mine i).time ∈ timesOf mine received id := ⟨i, Or.inl (by rw [← hi])⟩

theorem mem_timesOf_received {received : VClock} (hj : (received j).nodeId = id) :
    (received j).time ∈ timesOf mine received id := ⟨j, Or.inr (by rw [← hj])⟩

/-- An upper bound of the times of an id, from its slots. -/
theorem mem_upperBounds_timesOf {received : VClock} {t : ℕ}
    (hmine : ∀ i, (mine i).nodeId = id → (mine i).time ≤ t)
    (hreceived : ∀ j, (received j).nodeId = id → (received j).time ≤ t) :
    t ∈ upperBounds (timesOf mine received id) := by
  rintro s ⟨k, hk | hk⟩
  · have hle := hmine k (by rw [hk])
    rwa [hk] at hle
  · have hle := hreceived k (by rw [hk])
    rwa [hk] at hle

/-! ## One id -/

/-- The slot of `mine` stays, and no other one has the id. -/
theorem merges_of_mine (hmine : DistinctIds mine) (hid : id ≠ 0) (hi : (mine i).nodeId = id)
    (hkeeps : Keeps mine m i)
    (hreceived : ∀ j, (m.vectorClock j).nodeId = id →
      Keeps mine m j ∧ (m.vectorClock j).time ≤ (mine i).time) : Merges mine m id := by
  have huniq : ∀ k, (mine k).nodeId = id → k = i := fun k hk =>
    hmine k i (hk.trans_ne hid) (hk.trans hi.symm)
  refine ⟨i, nodeId_mergeVectorClock.mpr (Or.inl ⟨hkeeps, hi⟩), fun k hk => ?_, ?_⟩
  · rcases nodeId_mergeVectorClock.mp hk with ⟨-, hk⟩ | ⟨hno, hk⟩
    · exact huniq k hk
    · exact absurd (hreceived k hk).1 hno
  · rw [mergeVectorClock_of_keeps hkeeps]
    refine ⟨mem_timesOf_mine hi _, mem_upperBounds_timesOf (fun k hk => ?_) fun k hk => ?_⟩
    · rw [huniq k hk]
    · exact (hreceived k hk).2

/-- The received slot is taken, and no other one has the id. -/
theorem merges_of_received (hm : DistinctIds m.vectorClock) (hid : id ≠ 0)
    (hj : (m.vectorClock j).nodeId = id) (hno : ¬ Keeps mine m j)
    (hmine : ∀ i, (mine i).nodeId = id →
      ¬ Keeps mine m i ∧ (mine i).time ≤ (m.vectorClock j).time) : Merges mine m id := by
  have huniq : ∀ k, (m.vectorClock k).nodeId = id → k = j := fun k hk =>
    hm k j (hk.trans_ne hid) (hk.trans hj.symm)
  refine ⟨j, nodeId_mergeVectorClock.mpr (Or.inr ⟨hno, hj⟩), fun k hk => ?_, ?_⟩
  · rcases nodeId_mergeVectorClock.mp hk with ⟨hkeeps, hk⟩ | ⟨-, hk⟩
    · exact absurd hkeeps (hmine k hk).1
    · exact huniq k hk
  · rw [mergeVectorClock_of_not_keeps hno]
    refine ⟨mem_timesOf_received hj, mem_upperBounds_timesOf (fun k hk => ?_) fun k hk => ?_⟩
    · exact (hmine k hk).2
    · rw [huniq k hk]

theorem Aligned.merges (h : Aligned mine m id) (hmine : DistinctIds mine)
    (hm : DistinctIds m.vectorClock) (hid : id ≠ 0) (hknown : Knows mine id ∨ Knows m.vectorClock id) :
    Merges mine m id := by
  by_cases hi : Knows mine id
  · obtain ⟨i, hi⟩ := hi
    by_cases hj : Knows m.vectorClock id
    · obtain ⟨j, hj⟩ := hj
      have hi' : ∀ k, (mine k).nodeId = id → k = i := fun k hk =>
        hmine k i (hk.trans_ne hid) (hk.trans hi.symm)
      have hj' : ∀ k, (m.vectorClock k).nodeId = id → k = j := fun k hk =>
        hm k j (hk.trans_ne hid) (hk.trans hj.symm)
      by_cases hij : i = j
      · -- the entries meet in one slot
        subst hij
        by_cases hkeeps : Keeps mine m i
        · refine merges_of_mine hmine hid hi hkeeps fun k hk => ?_
          rw [hj' k hk]
          exact ⟨hkeeps, hkeeps⟩
        · refine merges_of_received hm hid hj hkeeps fun k hk => ?_
          rw [hi' k hk]
          exact ⟨hkeeps, (Nat.not_le.mp hkeeps).le⟩
      · rcases h.both i j hi hj hij with ⟨hki, hkj, hle⟩ | ⟨hki, hkj, hle⟩
        · refine merges_of_mine hmine hid hi hki fun k hk => ?_
          rw [hj' k hk]
          exact ⟨hkj, hle⟩
        · refine merges_of_received hm hid hj hkj fun k hk => ?_
          rw [hi' k hk]
          exact ⟨hki, hle⟩
    · exact merges_of_mine hmine hid hi (h.mineOnly hj i hi) fun k hk => absurd ⟨k, hk⟩ hj
  · obtain ⟨j, hj⟩ := hknown.resolve_left hi
    exact merges_of_received hm hid hj (h.receivedOnly hi j hj) fun k hk => absurd ⟨k, hk⟩ hi

/-- The slot that an id has after the merge decides for all of its slots. -/
theorem Merges.aligned (h : Merges mine m id) (hmine : DistinctIds mine)
    (hm : DistinctIds m.vectorClock) (hid : id ≠ 0) : Aligned mine m id := by
  obtain ⟨k, hk, huniq, -, hbound⟩ := h
  have hpresent := nodeId_mergeVectorClock.mp hk
  constructor
  · intro hunknown i hi
    -- only the slot of `mine` can have the id
    rcases hpresent with ⟨hkeeps, hk⟩ | ⟨-, hk⟩
    · rwa [hmine i k (hi.trans_ne hid) (hi.trans hk.symm)]
    · exact absurd ⟨k, hk⟩ hunknown
  · intro hunknown j hj
    rcases hpresent with ⟨-, hk⟩ | ⟨hno, hk⟩
    · exact absurd ⟨k, hk⟩ hunknown
    · rwa [hm j k (hj.trans_ne hid) (hj.trans hk.symm)]
  · intro i j hi hj hij
    rcases hpresent with ⟨hkeeps, hk'⟩ | ⟨hno, hk'⟩
    · -- the id stands in the slot of `mine`, so the received entry is gone
      obtain rfl : i = k := hmine i k (hi.trans_ne hid) (hi.trans hk'.symm)
      have hkj : Keeps mine m j := by
        by_contra hno
        exact hij (huniq j (nodeId_mergeVectorClock.mpr (Or.inr ⟨hno, hj⟩))).symm
      rw [mergeVectorClock_of_keeps hkeeps] at hbound
      exact Or.inl ⟨hkeeps, hkj, hbound (mem_timesOf_received hj)⟩
    · obtain rfl : j = k := hm j k (hj.trans_ne hid) (hj.trans hk'.symm)
      have hki : ¬ Keeps mine m i := by
        intro hkeeps
        exact hij (huniq i (nodeId_mergeVectorClock.mpr (Or.inl ⟨hkeeps, hi⟩)))
      rw [mergeVectorClock_of_not_keeps hno] at hbound
      exact Or.inr ⟨hki, hno, hbound (mem_timesOf_mine hi _)⟩

/-! ## Whole clocks -/

/-- Every id of either clock is merged, that of the node among them. -/
def MergesAll (mine : VClock) (m : Msg) : Prop :=
  ∀ id ≠ 0, Knows mine id ∨ Knows m.vectorClock id → Merges mine m id

/-- **Exactly the aligned clocks are merged.** -/
theorem mergesAll_iff_aligned (mine : VClock) (m : Msg) (hmine : DistinctIds mine)
    (hm : DistinctIds m.vectorClock) :
    MergesAll mine m ↔
      ∀ id ≠ 0, Knows mine id ∨ Knows m.vectorClock id → Aligned mine m id := by
  constructor
  · intro h id hid hknown
    exact (h id hid hknown).aligned hmine hm hid
  · intro h id hid hknown
    exact (h id hid hknown).merges hmine hm hid hknown

/-- The clock with these entries first. -/
def clockOf (cs : List Clock) : VClock := fun i => cs.getD i ⟨0, 0⟩

/-- A message with the clock of the node on port 1, which has slot 0. -/
def fromFirst : Msg := { msgID := .aya, electionID := 1, vectorClock := clockOf [⟨1, 3⟩] }

/-- A node on port 2 that has slot 0 as well loses its own entry. -/
theorem not_mergesAll_slots :
    DistinctIds (clockOf [⟨2, 1⟩]) ∧ DistinctIds fromFirst.vectorClock ∧
      ¬ Knows (mergeVectorClock (clockOf [⟨2, 1⟩]) fromFirst) 2 ∧
      ¬ MergesAll (clockOf [⟨2, 1⟩]) fromFirst := by
  have hlost : ¬ Knows (mergeVectorClock (clockOf [⟨2, 1⟩]) fromFirst) 2 := by decide +kernel
  refine ⟨by decide +kernel, by decide +kernel, hlost, fun h => ?_⟩
  obtain ⟨i, hi, -⟩ := h 2 (by decide) (Or.inl ⟨0, rfl⟩)
  exact hlost ⟨i, hi⟩

/-- With a hole in front of its entry the same node keeps it. -/
theorem mergesAll_iff_aligned_hole : MergesAll (clockOf [⟨0, 0⟩, ⟨2, 1⟩]) fromFirst := by
  refine (mergesAll_iff_aligned _ _ (by decide +kernel) (by decide +kernel)).mpr ?_
  have hmine : ∀ i, (clockOf [⟨0, 0⟩, ⟨2, 1⟩] i).nodeId ≠ 0 →
      Aligned (clockOf [⟨0, 0⟩, ⟨2, 1⟩]) fromFirst (clockOf [⟨0, 0⟩, ⟨2, 1⟩] i).nodeId := by
    decide +kernel
  have hreceived : ∀ i, (fromFirst.vectorClock i).nodeId ≠ 0 →
      Aligned (clockOf [⟨0, 0⟩, ⟨2, 1⟩]) fromFirst (fromFirst.vectorClock i).nodeId := by
    decide +kernel
  rintro id hid (⟨i, rfl⟩ | ⟨i, rfl⟩)
  · exact hmine i hid
  · exact hreceived i hid

end Node

end DistributedSystem.Bully
