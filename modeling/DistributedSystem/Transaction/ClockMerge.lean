import DistributedSystem.Transaction.ClockMap
import Mathlib.Algebra.Order.Monoid.Unbundled.WithTop
import Mathlib.Order.Lattice.Nat

/-!
# Merging is a join of maps

A clock array is read as a map from ids to times, with `⊥` for an id that has no entry, so
that an id with time 0 and an id without an entry differ. On packed arrays whose ids fit,
`mergeVectorClock` is the join of the maps, and its algebra is that of a semilattice. In a
full array it still loses nothing.
-/

namespace DistributedSystem.Transaction

open DistributedSystem.Library

variable {mine a b : VClock} {c : Clock} {cs : List Clock} {i : Fin maxNodes} {id : NodeId}

/-- The map a clock array stands for. -/
def clockMap (vc : VClock) (id : NodeId) : WithBot ℕ :=
  if id ∈ ids vc then (timeOf vc id : WithBot ℕ) else ⊥

instance (vc : VClock) : Decidable (Packed vc) :=
  decidable_of_iff ((∀ i j, (vc i).nodeId ≠ 0 → (vc i).nodeId = (vc j).nodeId → i = j) ∧
    ∀ i j, i ≤ j → (vc i).nodeId = 0 → (vc j).nodeId = 0)
    ⟨fun h => ⟨h.1, h.2⟩, fun h => ⟨h.distinct, h.initial⟩⟩

/-- `mergeVectorClock` on two arrays; `m` is the rest of the message. -/
def mergeArrays (m : TxMessage) (mine received : VClock) : VClock :=
  mergeVectorClock mine { m with vectorClock := received }

theorem clockMap_of_mem (h : id ∈ ids a) : clockMap a id = (timeOf a id : WithBot ℕ) := if_pos h

theorem clockMap_of_notMem (h : id ∉ ids a) : clockMap a id = ⊥ := if_neg h

/-! ## The join -/

/-- Merging packed arrays whose ids fit is the join of their maps. -/
theorem mergeArrays_spec (m : TxMessage) (ha : Packed a) (hb : Packed b)
    (hroom : (ids a ∪ ids b).card ≤ maxNodes) :
    Packed (mergeArrays m a b) ∧ ids (mergeArrays m a b) = ids a ∪ ids b ∧
      clockMap (mergeArrays m a b) = clockMap a ⊔ clockMap b := by
  obtain ⟨hpacked, hids, htime⟩ := mergeVectorClock_spec (m := { m with vectorClock := b }) ha hb hroom
  refine ⟨hpacked, hids, funext fun q => ?_⟩
  rw [Pi.sup_apply]
  unfold clockMap
  rw [show ids (mergeArrays m a b) = ids a ∪ ids b from hids,
    show timeOf (mergeArrays m a b) q = max (timeOf a q) (timeOf b q) from htime q]
  -- an id of one array only has time 0 in the other
  by_cases hqa : q ∈ ids a
  · rw [if_pos (Finset.mem_union_left _ hqa), if_pos hqa]
    by_cases hqb : q ∈ ids b
    · rw [if_pos hqb]
      rfl
    · rw [if_neg hqb, timeOf_of_notMem hqb, Nat.max_zero, sup_bot_eq]
  · rw [if_neg hqa, bot_sup_eq]
    by_cases hqb : q ∈ ids b
    · rw [if_pos (Finset.mem_union_right _ hqb), if_pos hqb, timeOf_of_notMem hqa, Nat.zero_max]
    · have hno : q ∉ ids a ∪ ids b := fun hq => (Finset.mem_union.mp hq).elim hqa hqb
      rw [if_neg hno, if_neg hqb]

theorem clockMap_mergeArrays (m : TxMessage) (ha : Packed a) (hb : Packed b)
    (hroom : (ids a ∪ ids b).card ≤ maxNodes) :
    clockMap (mergeArrays m a b) = clockMap a ⊔ clockMap b := (mergeArrays_spec m ha hb hroom).2.2

/-! ## What is never lost -/

/-- The inner loop keeps every entry in its place. -/
theorem mergeEntry_keeps (hi : (mine i).nodeId ≠ 0) :
    (mergeEntry mine c i).nodeId = (mine i).nodeId ∧ (mine i).time ≤ (mergeEntry mine c i).time := by
  unfold mergeEntry
  cases hj : firstFin (fun j => c.nodeId = (mine j).nodeId ∨ (mine j).nodeId = 0) with
  | none => exact ⟨rfl, le_rfl⟩
  | some j =>
      have hfound := (firstFin_eq_some.mp hj).1
      simp only [decide_eq_true_eq] at hfound
      by_cases hown : c.nodeId = (mine j).nodeId
      · simp only [if_pos hown]
        by_cases hlt : c.time > (mine j).time
        · rw [if_pos hlt]
          show (setTime mine j c.time i).nodeId = _ ∧ _ ≤ (setTime mine j c.time i).time
          rw [nodeId_setTime, time_setTime]
          refine ⟨rfl, ?_⟩
          split
          · rename_i hij
            subst hij
            exact hlt.le
          · exact le_rfl
        · rw [if_neg hlt]
          exact ⟨rfl, le_rfl⟩
      · -- the entry that is taken is an unused one
        have hne : i ≠ j := by
          rintro rfl
          exact hi (hfound.resolve_left hown)
        simp only [if_neg hown, Function.update_of_ne hne]
        exact ⟨trivial, le_rfl⟩

/-- The outer loop keeps every entry in its place, whatever it merges. -/
theorem mergeLoop_keeps (mine : VClock) (cs : List Clock) (hi : (mine i).nodeId ≠ 0) :
    (mergeLoop mine cs i).nodeId = (mine i).nodeId ∧ (mine i).time ≤ (mergeLoop mine cs i).time := by
  induction cs generalizing mine with
  | nil => exact ⟨rfl, le_rfl⟩
  | cons c cs ih =>
      unfold mergeLoop
      split
      · exact ⟨rfl, le_rfl⟩
      · obtain ⟨hid, htime⟩ := mergeEntry_keeps (c := c) hi
        obtain ⟨hid', htime'⟩ := ih _ (hid.trans_ne hi)
        exact ⟨hid'.trans hid, htime.trans htime'⟩

/-- The inner loop keeps the shape, with or without room for the entry. -/
theorem Packed.mergeEntry (h : Packed mine) (hc : c.nodeId ≠ 0) : Packed (mergeEntry mine c) := by
  by_cases hentry : ∃ j, c.nodeId = (mine j).nodeId ∨ (mine j).nodeId = 0
  · exact (mergedEntry_of_exists h hc hentry).packed
  · -- the search runs off the end of a full array
    have hnone : firstFin (fun j => c.nodeId = (mine j).nodeId ∨ (mine j).nodeId = 0) = none := by
      rw [firstFin_eq_none]
      intro j
      exact decide_eq_false fun hj => hentry ⟨j, hj⟩
    unfold Transaction.mergeEntry
    rw [hnone]
    exact h

theorem Packed.mergeLoop (h : Packed mine) : Packed (mergeLoop mine cs) := by
  induction cs generalizing mine with
  | nil => exact h
  | cons c cs ih =>
      unfold Transaction.mergeLoop
      split
      · exact h
      · rename_i hc
        exact ih (h.mergeEntry hc)

/-- Merging only adds to the map, also when the array is full. -/
theorem clockMap_le_mergeArrays (m : TxMessage) (ha : Packed a) :
    clockMap a ≤ clockMap (mergeArrays m a b) := by
  intro q
  by_cases hq : q ∈ ids a
  · obtain ⟨hq0, i, hi⟩ := mem_ids.mp hq
    obtain ⟨hid, htime⟩ := mergeLoop_keeps (i := i) a (List.ofFn b) (hi.trans_ne hq0)
    have hq' : q ∈ ids (mergeArrays m a b) := mem_ids.mpr ⟨hq0, i, hid.trans hi⟩
    have hpacked : Packed (mergeArrays m a b) := ha.mergeLoop
    rw [clockMap_of_mem hq, clockMap_of_mem hq', ha.timeOf_eq hi hq0,
      hpacked.timeOf_eq (hid.trans hi) hq0]
    exact WithBot.coe_le_coe.mpr htime
  · rw [clockMap_of_notMem hq]
    exact bot_le

/-! ## Idempotence of the arrays -/

/-- An entry that the array has is merged without a change. -/
theorem mergeEntry_of_mem (h : Packed a) (hc : (a i).nodeId ≠ 0) : mergeEntry a (a i) = a := by
  have hfirst : firstFin (fun j => (a i).nodeId = (a j).nodeId ∨ (a j).nodeId = 0) = some i := by
    rw [firstFin_eq_some]
    refine ⟨by simp, fun j hj => decide_eq_false ?_⟩
    rintro (hsame | hfree)
    · exact hj.ne (h.distinct i j hc hsame).symm
    · exact hc (h.initial j i hj.le hfree)
  unfold mergeEntry
  rw [hfirst]
  simp

theorem mergeLoop_of_mem (h : Packed a) (hcs : ∀ c ∈ cs, ∃ i, a i = c) : mergeLoop a cs = a := by
  induction cs with
  | nil => rfl
  | cons c cs ih =>
      unfold mergeLoop
      split
      · rfl
      · rename_i hc
        obtain ⟨i, rfl⟩ := hcs c (by simp)
        rw [mergeEntry_of_mem h hc]
        exact ih fun c' hc' => hcs c' (List.mem_cons_of_mem _ hc')

theorem mergeArrays_self (m : TxMessage) (h : Packed a) : mergeArrays m a a = a :=
  mergeLoop_of_mem h fun _ hc => List.mem_ofFn.mp hc

/-! ## The main result -/

/-- **Merging is a map maximum**: on packed arrays whose ids fit, the join of the maps in an
    array of the same shape, hence idempotent, commutative and associative; and in any array
    every entry stays and no time decreases. -/
theorem mergeVectorClock_map_maximum (m : TxMessage) :
    (∀ a b, Packed a → Packed b → (ids a ∪ ids b).card ≤ maxNodes →
      Packed (mergeArrays m a b) ∧ clockMap (mergeArrays m a b) = clockMap a ⊔ clockMap b) ∧
    (∀ a, Packed a → mergeArrays m a a = a) ∧
    (∀ a b, Packed a → Packed b → (ids a ∪ ids b).card ≤ maxNodes →
      clockMap (mergeArrays m a b) = clockMap (mergeArrays m b a)) ∧
    (∀ a b c, Packed a → Packed b → Packed c → (ids a ∪ ids b ∪ ids c).card ≤ maxNodes →
      clockMap (mergeArrays m (mergeArrays m a b) c) =
        clockMap (mergeArrays m a (mergeArrays m b c))) ∧
    (∀ a b, Packed a →
      Packed (mergeArrays m a b) ∧ clockMap a ≤ clockMap (mergeArrays m a b)) ∧
    (∀ a b i, (a i).nodeId ≠ 0 → (mergeArrays m a b i).nodeId = (a i).nodeId ∧
      (a i).time ≤ (mergeArrays m a b i).time) := by
  refine ⟨fun a b ha hb hroom => ?_, fun a ha => mergeArrays_self m ha, fun a b ha hb hroom => ?_,
    fun a b c ha hb hc hroom => ?_, fun a b ha => ⟨ha.mergeLoop, clockMap_le_mergeArrays m ha⟩,
    fun a b i hi => mergeLoop_keeps a _ hi⟩
  · obtain ⟨hpacked, -, hmap⟩ := mergeArrays_spec m ha hb hroom
    exact ⟨hpacked, hmap⟩
  · have hroom' : (ids b ∪ ids a).card ≤ maxNodes := by
      rw [Finset.union_comm]
      exact hroom
    rw [clockMap_mergeArrays m ha hb hroom, clockMap_mergeArrays m hb ha hroom', sup_comm]
  · -- every pair fits as the three do
    have hab : (ids a ∪ ids b).card ≤ maxNodes :=
      (Finset.card_le_card Finset.subset_union_left).trans hroom
    have hbc : (ids b ∪ ids c).card ≤ maxNodes := by
      refine (Finset.card_le_card ?_).trans hroom
      exact Finset.union_subset_union_left Finset.subset_union_right
    obtain ⟨hpab, hidsab, hmapab⟩ := mergeArrays_spec m ha hb hab
    obtain ⟨hpbc, hidsbc, hmapbc⟩ := mergeArrays_spec m hb hc hbc
    have hleft : (ids (mergeArrays m a b) ∪ ids c).card ≤ maxNodes := by
      rw [hidsab]
      exact hroom
    have hright : (ids a ∪ ids (mergeArrays m b c)).card ≤ maxNodes := by
      rw [hidsbc, ← Finset.union_assoc]
      exact hroom
    rw [clockMap_mergeArrays m hpab hc hleft, clockMap_mergeArrays m ha hpbc hright, hmapab, hmapbc,
      sup_assoc]

/-- The array with these entries first. -/
def clockOf (cs : List Clock) : VClock := fun i => cs.getD i ⟨0, 0⟩

/-- The join of `{40 ↦ 3, 50 ↦ 2}` and `{50 ↦ 4, 60 ↦ 0}`. -/
theorem mergeVectorClock_map_maximum_pair (m : TxMessage) :
    clockMap (mergeArrays m (clockOf [⟨40, 3⟩, ⟨50, 2⟩]) (clockOf [⟨50, 4⟩, ⟨60, 0⟩])) =
      clockMap (clockOf [⟨40, 3⟩, ⟨50, 2⟩]) ⊔ clockMap (clockOf [⟨50, 4⟩, ⟨60, 0⟩]) :=
  ((mergeVectorClock_map_maximum m).1 _ _ (by decide +kernel) (by decide +kernel)
    (by decide +kernel)).2

end DistributedSystem.Transaction
