import DistributedSystem.Transaction.VectorClock
import Mathlib.Data.Fintype.Card
import Mathlib.Order.MinMax

/-!
# Clock arrays as maps

A clock array stands for the map from node ids to times that is 0 for every id without an
entry. The arrays of the programs are packed: the used entries come first, with distinct
ids. On packed arrays that have room for all ids, `mergeVectorClock` is the pointwise
maximum and `updateMyVectorClock` adds one to an entry that exists and does not wrap.
-/

namespace DistributedSystem.Transaction

open DistributedSystem.Library

/-- The time a clock array gives to `id`; ids that are missing count as 0. -/
def timeOf (vc : VClock) (id : NodeId) : ℕ :=
  match firstFin (fun i => (vc i).nodeId = id ∧ id ≠ 0) with
  | some i => (vc i).time
  | none => 0

/-- The ids that have an entry. -/
def ids (vc : VClock) : Finset NodeId := (Finset.univ.image fun i => (vc i).nodeId).erase 0

/-- The used entries have distinct ids and come first. -/
structure Packed (vc : VClock) : Prop where
  distinct : ∀ i j, (vc i).nodeId ≠ 0 → (vc i).nodeId = (vc j).nodeId → i = j
  initial : ∀ i j, i ≤ j → (vc i).nodeId = 0 → (vc j).nodeId = 0

variable {vc mine : VClock} {c : Clock} {i j : Fin maxNodes} {id q : NodeId} {S : Finset NodeId}

/-! ## Reading an array -/

theorem mem_ids : id ∈ ids vc ↔ id ≠ 0 ∧ ∃ i, (vc i).nodeId = id := by
  simp [ids]

theorem timeOf_of_notMem (hid : id ∉ ids vc) : timeOf vc id = 0 := by
  have hnone : firstFin (fun i => (vc i).nodeId = id ∧ id ≠ 0) = none := by
    rw [firstFin_eq_none]
    intro i
    by_contra hi
    simp only [Bool.not_eq_false, decide_eq_true_eq] at hi
    exact hid (mem_ids.mpr ⟨hi.2, i, hi.1⟩)
  rw [timeOf, hnone]

theorem Packed.timeOf_eq (h : Packed vc) (hi : (vc i).nodeId = id) (hid : id ≠ 0) :
    timeOf vc id = (vc i).time := by
  have hfirst : firstFin (fun i => (vc i).nodeId = id ∧ id ≠ 0) = some i := by
    refine firstFin_eq_of_unique (by simp [hi, hid]) fun j hj => ?_
    simp only [decide_eq_true_eq] at hj
    exact h.distinct j i (hj.1 ▸ hid) (hj.1.trans hi.symm)
  rw [timeOf, hfirst]

/-- Only the ids of the entries matter for their places. -/
theorem Packed.congr {vc' : VClock} (h : Packed vc) (hsame : ∀ i, (vc' i).nodeId = (vc i).nodeId) :
    Packed vc' where
  distinct i j hi hij := h.distinct i j (hsame i ▸ hi) (by rw [← hsame i, ← hsame j, hij])
  initial i j hle hi := (hsame j).trans (h.initial i j hle ((hsame i).symm.trans hi))

theorem ids_congr {vc' : VClock} (hsame : ∀ i, (vc' i).nodeId = (vc i).nodeId) :
    ids vc' = ids vc := by
  simp only [ids, hsame]

/-! ## Writing the time of an entry -/

/-- The array with time `t` at entry `j`. -/
def setTime (vc : VClock) (j : Fin maxNodes) (t : ℕ) : VClock :=
  Function.update vc j { vc j with time := t }

@[simp] theorem nodeId_setTime (t : ℕ) (i : Fin maxNodes) :
    (setTime vc j t i).nodeId = (vc i).nodeId := by
  by_cases hij : i = j
  · subst hij
    simp [setTime]
  · simp [setTime, hij]

theorem time_setTime (t : ℕ) (i : Fin maxNodes) :
    (setTime vc j t i).time = if i = j then t else (vc i).time := by
  by_cases hij : i = j
  · subst hij
    simp [setTime]
  · simp [setTime, hij]

theorem Packed.setTime (h : Packed vc) (t : ℕ) : Packed (setTime vc j t) :=
  h.congr (nodeId_setTime t)

theorem ids_setTime (t : ℕ) : ids (setTime vc j t) = ids vc := ids_congr (nodeId_setTime t)

theorem Packed.timeOf_setTime (h : Packed vc) (hj : (vc j).nodeId ≠ 0) (t : ℕ) (q : NodeId) :
    timeOf (Transaction.setTime vc j t) q = if q = (vc j).nodeId then t else timeOf vc q := by
  by_cases hq : q = (vc j).nodeId
  · subst hq
    rw [if_pos rfl, (h.setTime t).timeOf_eq (nodeId_setTime t j) hj, time_setTime, if_pos rfl]
  · rw [if_neg hq]
    by_cases hmem : q ∈ ids vc
    · obtain ⟨hq0, i, hi⟩ := mem_ids.mp hmem
      have hij : i ≠ j := by
        rintro rfl
        exact hq hi.symm
      rw [(h.setTime t).timeOf_eq ((nodeId_setTime t i).trans hi) hq0, h.timeOf_eq hi hq0,
        time_setTime, if_neg hij]
    · rw [timeOf_of_notMem hmem, timeOf_of_notMem ((ids_setTime t).symm ▸ hmem)]

/-! ## `updateMyVectorClock` -/

theorem tick_eq (h : Packed vc) (hi : (vc i).nodeId = id) (hid : id ≠ 0) :
    tick id vc = setTime vc i (((vc i).time + 1) % 2 ^ 32) := by
  have hfirst : firstFin (fun i => (vc i).nodeId = id) = some i := by
    refine firstFin_eq_of_unique (by simp [hi]) fun j hj => ?_
    simp only [decide_eq_true_eq] at hj
    exact h.distinct j i (hj ▸ hid) (hj.trans hi.symm)
  rw [tick, updateMyVectorClock, hfirst]
  rfl

theorem Packed.tick (h : Packed vc) (hid : id ∈ ids vc) : Packed (tick id vc) := by
  obtain ⟨hid0, i, hi⟩ := mem_ids.mp hid
  rw [tick_eq h hi hid0]
  exact h.setTime _

theorem ids_tick (h : Packed vc) (hid : id ∈ ids vc) : ids (tick id vc) = ids vc := by
  obtain ⟨hid0, i, hi⟩ := mem_ids.mp hid
  rw [tick_eq h hi hid0]
  exact ids_setTime _

/-- `updateMyVectorClock` counts one more event of a node that has an entry, until the time
    wraps. -/
theorem timeOf_tick (h : Packed vc) (hid : id ∈ ids vc) (hword : timeOf vc id + 1 < 2 ^ 32)
    (q : NodeId) : timeOf (tick id vc) q = timeOf vc q + if q = id then 1 else 0 := by
  obtain ⟨hid0, i, hi⟩ := mem_ids.mp hid
  rw [h.timeOf_eq hi hid0] at hword
  rw [tick_eq h hi hid0, h.timeOf_setTime (hi ▸ hid0), hi, Nat.mod_eq_of_lt hword]
  by_cases hq : q = id
  · subst hq
    rw [if_pos rfl, if_pos rfl, h.timeOf_eq hi hid0]
  · rw [if_neg hq, if_neg hq, Nat.add_zero]

/-! ## `mergeVectorClock` -/

/-- The entry of a packed array in which the search of `mergeVectorClock` ends: that of
    the id, or the first unused one. There is one while the ids fit. -/
theorem Packed.exists_entry (h : Packed mine)
    (hroom : (insert id (ids mine)).card ≤ maxNodes) :
    ∃ j, id = (mine j).nodeId ∨ (mine j).nodeId = 0 := by
  by_contra hno
  push Not at hno
  -- otherwise all entries are used, by ids other than the new one
  have hinj : Function.Injective fun j => (mine j).nodeId := fun i j hij =>
    h.distinct i j (hno i).2 hij
  have hsub : Finset.univ.image (fun j => (mine j).nodeId) ⊆ ids mine := by
    intro n hn
    obtain ⟨j, -, rfl⟩ := Finset.mem_image.mp hn
    exact mem_ids.mpr ⟨(hno j).2, j, rfl⟩
  have hcard := Finset.card_le_card hsub
  rw [Finset.card_image_of_injective _ hinj, Finset.card_univ, Fintype.card_fin] at hcard
  have hnew : id ∉ ids mine := by
    intro hmem
    obtain ⟨-, j, hj⟩ := mem_ids.mp hmem
    exact (hno j).1 hj.symm
  rw [Finset.card_insert_of_notMem hnew] at hroom
  omega

/-- What merging one entry does. -/
structure MergedEntry (mine : VClock) (c : Clock) (merged : VClock) : Prop where
  packed : Packed merged
  ids : ids merged = insert c.nodeId (Transaction.ids mine)
  timeOf : ∀ q, timeOf merged q =
    if q = c.nodeId then max (Transaction.timeOf mine q) c.time else Transaction.timeOf mine q

/-- An unused entry behind the used ones is taken for a new id. -/
theorem mergedEntry_update (h : Packed mine) (hc : c.nodeId ≠ 0) (hnew : c.nodeId ∉ ids mine)
    (hj : (mine j).nodeId = 0) (hbefore : ∀ i < j, (mine i).nodeId ≠ 0) :
    MergedEntry mine c (Function.update mine j c) := by
  have hself : Function.update mine j c j = c := Function.update_self _ _ _
  have hother : ∀ i, i ≠ j → Function.update mine j c i = mine i := fun i hi =>
    Function.update_of_ne hi _ _
  have hpacked : Packed (Function.update mine j c) := by
    constructor
    · intro i k hi hik
      by_cases hij : i = j <;> by_cases hkj : k = j
      · rw [hij, hkj]
      · subst hij
        rw [hself, hother k hkj] at hik
        exact absurd (mem_ids.mpr ⟨hc, k, hik.symm⟩) hnew
      · subst hkj
        rw [hself, hother i hij] at hik
        exact absurd (mem_ids.mpr ⟨hc, i, hik⟩) hnew
      · rw [hother i hij] at hi hik
        rw [hother k hkj] at hik
        exact h.distinct i k hi hik
    · intro i k hik hi
      by_cases hij : i = j
      · subst hij
        rw [hself] at hi
        exact absurd hi hc
      · rw [hother i hij] at hi
        -- an unused entry lies behind j
        have hji : j < i := by
          rcases lt_trichotomy i j with hlt | heq | hgt
          · exact absurd hi (hbefore i hlt)
          · exact absurd heq hij
          · exact hgt
        have hkj : k ≠ j := (hji.trans_le hik).ne'
        rw [hother k hkj]
        exact h.initial i k hik hi
  have hids : ids (Function.update mine j c) = insert c.nodeId (ids mine) := by
    ext n
    rw [Finset.mem_insert, mem_ids, mem_ids]
    constructor
    · rintro ⟨hn, i, hi⟩
      by_cases hij : i = j
      · subst hij
        rw [hself] at hi
        exact Or.inl hi.symm
      · rw [hother i hij] at hi
        exact Or.inr ⟨hn, i, hi⟩
    · rintro (rfl | ⟨hn, i, hi⟩)
      · exact ⟨hc, j, congrArg Clock.nodeId hself⟩
      · have hij : i ≠ j := by
          rintro rfl
          exact hn (hi.symm.trans hj)
        exact ⟨hn, i, (congrArg Clock.nodeId (hother i hij)).trans hi⟩
  refine ⟨hpacked, hids, fun q => ?_⟩
  by_cases hq : q = c.nodeId
  · subst hq
    rw [if_pos rfl, hpacked.timeOf_eq (congrArg Clock.nodeId hself) hc, hself,
      timeOf_of_notMem hnew, Nat.zero_max]
  · rw [if_neg hq]
    by_cases hmem : q ∈ ids mine
    · obtain ⟨hq0, i, hi⟩ := mem_ids.mp hmem
      have hij : i ≠ j := by
        rintro rfl
        exact hq0 (hi.symm.trans hj)
      rw [hpacked.timeOf_eq ((congrArg Clock.nodeId (hother i hij)).trans hi) hq0, hother i hij,
        h.timeOf_eq hi hq0]
    · have hmem' : q ∉ ids (Function.update mine j c) := by
        rw [hids, Finset.mem_insert]
        exact not_or.mpr ⟨hq, hmem⟩
      rw [timeOf_of_notMem hmem, timeOf_of_notMem hmem']

/-- The inner loop of `mergeVectorClock` keeps the larger time of one id, if its search ends. -/
theorem mergedEntry_of_exists (h : Packed mine) (hc : c.nodeId ≠ 0)
    (hentry : ∃ j, c.nodeId = (mine j).nodeId ∨ (mine j).nodeId = 0) :
    MergedEntry mine c (mergeEntry mine c) := by
  obtain ⟨j, hj⟩ := hentry
  obtain ⟨k, hk, hpk⟩ := exists_firstFin
    (p := fun j => c.nodeId = (mine j).nodeId ∨ (mine j).nodeId = 0) (i := j) (decide_eq_true hj)
  have hfirst := (firstFin_eq_some.mp hk).2
  simp only [decide_eq_false_iff_not, not_or] at hfirst
  unfold mergeEntry
  rw [hk]
  simp only
  by_cases hown : c.nodeId = (mine k).nodeId
  · -- the id has an entry
    have hmem : c.nodeId ∈ ids mine := mem_ids.mpr ⟨hc, k, hown.symm⟩
    have htime := h.timeOf_eq hown.symm hc
    rw [if_pos hown]
    split
    · rename_i hgt
      refine ⟨h.setTime _, ?_, fun q => ?_⟩
      · rw [Finset.insert_eq_of_mem hmem]
        exact ids_setTime _
      · refine (h.timeOf_setTime (hown ▸ hc) _ q).trans ?_
        rw [← hown]
        split
        · rename_i hq
          subst hq
          rw [htime, max_eq_right (by omega)]
        · rfl
    · refine ⟨h, (Finset.insert_eq_of_mem hmem).symm, fun q => ?_⟩
      split
      · rename_i hq
        subst hq
        rw [htime, max_eq_left (by omega)]
      · rfl
  · -- the id is new
    have hfree : (mine k).nodeId = 0 := (of_decide_eq_true hpk).resolve_left hown
    rw [if_neg hown]
    refine mergedEntry_update h hc (fun hmem => ?_) hfree fun i hi => (hfirst i hi).2
    obtain ⟨-, i, hi⟩ := mem_ids.mp hmem
    rcases lt_or_ge i k with hik | hik
    · exact (hfirst i hik).1 hi.symm
    · exact hc (hi.symm.trans (h.initial k i hik hfree))

theorem mergedEntry (h : Packed mine) (hc : c.nodeId ≠ 0)
    (hroom : (insert c.nodeId (ids mine)).card ≤ maxNodes) :
    MergedEntry mine c (mergeEntry mine c) :=
  mergedEntry_of_exists h hc (h.exists_entry hroom)

/-- The entries the outer loop of `mergeVectorClock` reaches. -/
def used (cs : List Clock) : List Clock := cs.takeWhile fun c => c.nodeId ≠ 0

/-- The outer loop keeps, for every id, the largest time it meets. -/
theorem mergeLoop_spec {cs : List Clock} (h : Packed mine) (hmine : ids mine ⊆ S)
    (hcs : ∀ c ∈ used cs, c.nodeId ∈ S) (hroom : S.card ≤ maxNodes) :
    Packed (mergeLoop mine cs) ∧ ids mine ⊆ ids (mergeLoop mine cs) ∧ ids (mergeLoop mine cs) ⊆ S ∧
      (∀ c ∈ used cs, c.nodeId ∈ ids (mergeLoop mine cs)) ∧
      ∀ q t, timeOf (mergeLoop mine cs) q ≤ t ↔
        timeOf mine q ≤ t ∧ ∀ c ∈ used cs, c.nodeId = q → c.time ≤ t := by
  induction cs generalizing mine with
  | nil => exact ⟨h, Finset.Subset.refl _, hmine, by simp [used], by simp [mergeLoop, used]⟩
  | cons c cs ih =>
      unfold mergeLoop
      -- an empty entry ends the loop, and nothing is used behind it
      by_cases hc : c.nodeId = 0
      · have hused : used (c :: cs) = [] := by simp [used, hc]
        rw [if_pos hc, hused]
        exact ⟨h, Finset.Subset.refl _, hmine, by simp, by simp⟩
      · have hused : used (c :: cs) = c :: used cs := by simp [used, hc]
        rw [hused] at hcs
        have hsub : insert c.nodeId (ids mine) ⊆ S :=
          Finset.insert_subset (hcs c (by simp)) hmine
        -- the entry is merged or added; there is room for all ids of `S`
        have hentry := mergedEntry h hc ((Finset.card_le_card hsub).trans hroom)
        obtain ⟨hpacked, hkeep, hin, hall, htime⟩ := ih hentry.packed (hentry.ids.symm ▸ hsub)
          fun c' hc' => hcs c' (List.mem_cons_of_mem _ hc')
        rw [hentry.ids] at hkeep
        rw [if_neg hc, hused]
        refine ⟨hpacked, fun n hn => hkeep (Finset.mem_insert_of_mem hn), hin, ?_, fun q t => ?_⟩
        · exact List.forall_mem_cons.mpr ⟨hkeep (Finset.mem_insert_self _ _), hall⟩
        · rw [htime, hentry.timeOf, List.forall_mem_cons]
          by_cases hq : q = c.nodeId
          · rw [if_pos hq, max_le_iff]
            simp only [hq, forall_const, and_assoc]
          · rw [if_neg hq]
            simp only [Ne.symm hq, false_implies, true_and]

/-- The entries of a packed array that the outer loop reaches are the used ones. -/
theorem Packed.mem_used (h : Packed vc) :
    c ∈ used (List.ofFn vc) ↔ c.nodeId ≠ 0 ∧ ∃ i, vc i = c := by
  have hprefix : ∀ n (f : Fin n → Clock),
      (∀ i j, i ≤ j → (f i).nodeId = 0 → (f j).nodeId = 0) →
        (c ∈ used (List.ofFn f) ↔ c.nodeId ≠ 0 ∧ ∃ i, f i = c) := by
    intro n
    induction n with
    | zero => simp [used]
    | succ n ih =>
        intro f hf
        have htail := ih (fun i => f i.succ) fun i j hij =>
          hf i.succ j.succ (Fin.succ_le_succ_iff.mpr hij)
        rw [List.ofFn_succ]
        by_cases hfirst : (f 0).nodeId = 0
        · -- every entry is unused
          have hall : ∀ i, (f i).nodeId = 0 := fun i => hf 0 i (Fin.zero_le i) hfirst
          have hused : used (f 0 :: List.ofFn fun i => f i.succ) = [] := by simp [used, hfirst]
          rw [hused]
          constructor
          · intro hmem
            exact absurd hmem (List.not_mem_nil)
          · rintro ⟨hc, i, rfl⟩
            exact absurd (hall i) hc
        · have hused : used (f 0 :: List.ofFn fun i => f i.succ) =
              f 0 :: used (List.ofFn fun i => f i.succ) := by simp [used, hfirst]
          rw [hused, List.mem_cons, htail, Fin.exists_fin_succ]
          constructor
          · rintro (rfl | ⟨hc, i, hi⟩)
            · exact ⟨hfirst, Or.inl rfl⟩
            · exact ⟨hc, Or.inr ⟨i, hi⟩⟩
          · rintro ⟨hc, heq | ⟨i, hi⟩⟩
            · exact Or.inl heq.symm
            · exact Or.inr ⟨hc, i, hi⟩
  exact hprefix _ vc h.initial

/-- **`mergeVectorClock` is the pointwise maximum** of two packed arrays whose ids fit. -/
theorem mergeVectorClock_spec {m : TxMessage} (h : Packed mine) (hm : Packed m.vectorClock)
    (hroom : (ids mine ∪ ids m.vectorClock).card ≤ maxNodes) :
    Packed (mergeVectorClock mine m) ∧
      ids (mergeVectorClock mine m) = ids mine ∪ ids m.vectorClock ∧
      ∀ q, timeOf (mergeVectorClock mine m) q = max (timeOf mine q) (timeOf m.vectorClock q) := by
  have hcs : ∀ c ∈ used (List.ofFn m.vectorClock), c.nodeId ∈ ids mine ∪ ids m.vectorClock := by
    intro c hc
    obtain ⟨hc0, i, rfl⟩ := hm.mem_used.mp hc
    exact Finset.mem_union_right _ (mem_ids.mpr ⟨hc0, i, rfl⟩)
  obtain ⟨hpacked, hkeep, hin, hall, htime⟩ :=
    mergeLoop_spec h Finset.subset_union_left hcs hroom
  refine ⟨hpacked, ?_, fun q => ?_⟩
  · refine Finset.Subset.antisymm hin (Finset.union_subset hkeep fun n hn => ?_)
    obtain ⟨hn0, i, rfl⟩ := mem_ids.mp hn
    exact hall _ (hm.mem_used.mpr ⟨hn0, i, rfl⟩)
  · -- a time is at most `t` exactly when both times are
    refine eq_of_forall_ge_iff fun t => ?_
    rw [max_le_iff, mergeVectorClock, htime]
    refine and_congr_right fun _ => ?_
    by_cases hmem : q ∈ ids m.vectorClock
    · obtain ⟨hq0, i, hi⟩ := mem_ids.mp hmem
      rw [hm.timeOf_eq hi hq0]
      constructor
      · intro hle
        exact hle _ (hm.mem_used.mpr ⟨hi ▸ hq0, i, rfl⟩) hi
      · intro hle c hc hcq
        obtain ⟨-, k, rfl⟩ := hm.mem_used.mp hc
        rw [← hm.distinct i k (hi ▸ hq0) (hi.trans hcq.symm)]
        exact hle
    · rw [timeOf_of_notMem hmem]
      refine ⟨fun _ => Nat.zero_le t, fun _ c hc hcq => ?_⟩
      obtain ⟨hc0, i, rfl⟩ := hm.mem_used.mp hc
      exact absurd (mem_ids.mpr ⟨hcq ▸ hc0, i, hcq⟩) hmem

end DistributedSystem.Transaction
