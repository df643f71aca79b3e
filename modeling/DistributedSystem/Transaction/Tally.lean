import DistributedSystem.Transaction.Participants

/-!
# Votes in a slot

`collectVote` enters a vote at the first participant with the voter's node id and then
counts the participants with a node id. This module follows the votes of a slot while only
`VOTE_COMMIT` messages come in: which entries carry one, and what the count makes of them.
-/

namespace DistributedSystem.Transaction

open DistributedSystem.Library

namespace Manager

variable {s x : Manager} {T T' T₀ : Table} {t : Tid} {m : TxMessage} {i : Fin maxTrans}
  {ws : List W} {c : MsgId} {n : NodeId} {ns : List NodeId}

/-! ## The count -/

/-- Once every counted participant has voted to commit, the count commits. -/
theorem tally_commit (hvoted : ∀ w ∈ ws, w.nodeId ≠ 0 → w.voteYes = some .voteCommit)
    (hsome : (∃ w ∈ ws, w.nodeId ≠ 0) ∨ c = .decideCommit) : tally ws c = .decideCommit := by
  induction ws generalizing c with
  | nil => exact hsome.resolve_left (by simp)
  | cons w ws ih =>
    obtain ⟨hw, hws⟩ := List.forall_mem_cons.mp hvoted
    unfold tally
    by_cases hid : w.nodeId = 0
    · rw [if_neg (not_not.mpr hid)]
      refine ih hws (hsome.imp_left ?_)
      rintro ⟨w', hw', hne⟩
      rcases List.mem_cons.mp hw' with rfl | hw'
      · exact absurd hid hne
      · exact ⟨w', hw', hne⟩
    · -- a vote was counted, so the rest may be empty
      simp only [if_pos hid, hw hid, Option.some.injEq, reduceCtorEq, or_self, if_false]
      exact ih hws (Or.inr rfl)

/-- As long as a counted participant has not voted, and nobody against, the count waits. -/
theorem tally_wait
    (hvotes : ∀ w ∈ ws, w.nodeId ≠ 0 → w.voteYes = none ∨ w.voteYes = some .voteCommit)
    (hmissing : ∃ w ∈ ws, w.nodeId ≠ 0 ∧ w.voteYes = none) : tally ws c = .wait := by
  induction ws generalizing c with
  | nil =>
    obtain ⟨w, hw, -⟩ := hmissing
    simp at hw
  | cons w ws ih =>
    obtain ⟨hw, hws⟩ := List.forall_mem_cons.mp hvotes
    obtain ⟨w', hw', hne, hnone⟩ := hmissing
    unfold tally
    by_cases hid : w.nodeId = 0
    · rw [if_neg (not_not.mpr hid)]
      rcases List.mem_cons.mp hw' with rfl | hw'
      · exact absurd hid hne
      · exact ih hws ⟨w', hw', hne, hnone⟩
    · rw [if_pos hid]
      rcases hw hid with hv | hv
      · simp [hv]
      · simp only [hv, Option.some.injEq, reduceCtorEq, or_self, if_false]
        rcases List.mem_cons.mp hw' with rfl | hw'
        · rw [hv] at hnone
          cases hnone
        · exact ih hws ⟨w', hw', hne, hnone⟩

/-! ## Participants by node id -/

/-- `n` is the node id of a participant in slot `i`. -/
def Voter (T : Table) (i : Fin maxTrans) (n : NodeId) : Prop :=
  n ≠ 0 ∧ ∃ j, ((T i).workers j).nodeId = n

/-- Slot `i` lists every node id once. -/
def ListedOnce (T : Table) (i : Fin maxTrans) : Prop :=
  ∀ j j', ((T i).workers j).nodeId = ((T i).workers j').nodeId →
    ((T i).workers j).nodeId ≠ 0 → j = j'

instance (T : Table) (i : Fin maxTrans) : Decidable (ListedOnce T i) := by
  unfold ListedOnce; infer_instance

/-- A participant that is listed once is the one a vote is entered at. -/
theorem ListedOnce.ownEntry (h : ListedOnce T i) (hn : n ≠ 0) (j : Fin maxNodes) :
    ownEntry T i n = some j ↔ ((T i).workers j).nodeId = n := by
  refine ⟨nodeId_of_ownEntry, ?_⟩
  rintro rfl
  refine firstFin_eq_of_unique (by simp) fun j' hj' => ?_
  exact (h j j' (of_decide_eq_true hj').symm hn).symm

/-! ## Entering a vote -/

theorem collectVote_effects (hi : findSlot s.workerInfo m.tid = some i) :
    (s.collectVote m c).2 = recordVote s.workerInfo i m := by
  simp only [collectVote, hi]

theorem collectVote_decision (hi : findSlot s.workerInfo m.tid = some i) :
    (s.collectVote m c).1 =
      tally (List.ofFn ((process.exec s (recordVote s.workerInfo i m)).workerInfo i).workers) c := by
  simp only [collectVote, hi]
  rfl

/-- A vote leaves the ids of the slots alone. -/
theorem tid_exec_recordVote (k : Fin maxTrans) :
    ((process.exec s (recordVote T i m)).workerInfo k).tid = (s.workerInfo k).tid := by
  refine Process.exec_unchanged (fun x : Manager => (x.workerInfo k).tid) fun x e he => ?_
  obtain ⟨j, -, rfl⟩ := mem_recordVote he
  rw [process_apply, tid_apply]

theorem workers_exec_recordVote (j : Fin maxNodes) :
    ((process.exec s (recordVote s.workerInfo i m)).workerInfo i).workers j =
      if ownEntry s.workerInfo i m.nodeId = some j then
        { (s.workerInfo i).workers j with voteYes := some m.msgID }
      else (s.workerInfo i).workers j := by
  have heffects : recordVote s.workerInfo i m =
      ((ownEntry s.workerInfo i m.nodeId).map fun j => .voteYes i j (some m.msgID)).toList := by
    simp only [recordVote, ownEntry]
    split <;> simp [*]
  rw [heffects]
  cases hown : ownEntry s.workerInfo i m.nodeId with
  | none => simp
  | some j' => simp [workers_apply, eq_comm (a := j)]

/-- Slot `i` of `T` is that of `T₀` with the votes of `ns`. -/
structure VotedBy (T₀ T : Table) (i : Fin maxTrans) (ns : List NodeId) : Prop where
  nodeId : ∀ j, ((T i).workers j).nodeId = ((T₀ i).workers j).nodeId
  port : ∀ j, ((T i).workers j).port = ((T₀ i).workers j).port
  workerAddr : ∀ j, ((T i).workers j).workerAddr = ((T₀ i).workers j).workerAddr
  voteYes : ∀ j, ((T₀ i).workers j).nodeId ≠ 0 → ((T i).workers j).voteYes =
    if ((T₀ i).workers j).nodeId ∈ ns then some .voteCommit else ((T₀ i).workers j).voteYes

theorem VotedBy.refl (T : Table) (i : Fin maxTrans) : VotedBy T T i [] :=
  ⟨fun _ => rfl, fun _ => rfl, fun _ => rfl, fun j _ => by simp⟩

theorem VotedBy.congr (h : VotedBy T₀ T i ns) (hworkers : (T' i).workers = (T i).workers) :
    VotedBy T₀ T' i ns := by
  refine ⟨fun j => ?_, fun j => ?_, fun j => ?_, fun j hj => ?_⟩
  all_goals rw [hworkers]
  · exact h.nodeId j
  · exact h.port j
  · exact h.workerAddr j
  · exact h.voteYes j hj

/-- **Step lemma**: one more vote. -/
theorem VotedBy.record (h : VotedBy T₀ s.workerInfo i ns) (honce : ListedOnce T₀ i)
    (hm : m.msgID = .voteCommit) :
    VotedBy T₀ (process.exec s (recordVote s.workerInfo i m)).workerInfo i (ns ++ [m.nodeId]) := by
  -- the votes change no node id, so the list still has each one once
  have honce' : ListedOnce s.workerInfo i := by
    intro j j' hjj' hne
    rw [h.nodeId, h.nodeId] at hjj'
    rw [h.nodeId] at hne
    exact honce j j' hjj' hne
  refine ⟨fun j => ?_, fun j => ?_, fun j => ?_, fun j hj => ?_⟩
  · rw [workers_exec_recordVote, ← h.nodeId j]
    split <;> rfl
  · rw [workers_exec_recordVote, ← h.port j]
    split <;> rfl
  · rw [workers_exec_recordVote, ← h.workerAddr j]
    split <;> rfl
  · rw [workers_exec_recordVote]
    by_cases hown : ((T₀ i).workers j).nodeId = m.nodeId
    · -- the voter's own entry
      have hentry := (honce'.ownEntry (fun hz => hj (hown.trans hz)) j).mpr ((h.nodeId j).trans hown)
      simp [hentry, hown, hm]
    · -- the vote is entered at the first entry with its id, which is not `j`
      have hother : ownEntry s.workerInfo i m.nodeId ≠ some j := fun hentry =>
        hown ((h.nodeId j).symm.trans (nodeId_of_ownEntry hentry))
      rw [if_neg hother, h.voteYes j hj]
      simp [hown]

/-- The votes of all participants decide. -/
theorem VotedBy.commits (h : VotedBy T₀ T i ns) (hall : ∀ n, Voter T₀ i n → n ∈ ns)
    (hsome : ∃ n, Voter T₀ i n) : tally (List.ofFn (T i).workers) c = .decideCommit := by
  refine tally_commit (fun w hw hne => ?_) (Or.inl ?_)
  · obtain ⟨j, rfl⟩ := (List.mem_ofFn).mp hw
    rw [h.nodeId] at hne
    rw [h.voteYes j hne, if_pos (hall _ ⟨hne, j, rfl⟩)]
  · obtain ⟨n, hn, j, rfl⟩ := hsome
    exact ⟨_, (List.mem_ofFn).mpr ⟨j, rfl⟩, (h.nodeId j).symm ▸ hn⟩

/-- Until then the count waits, if nobody had voted before. -/
theorem VotedBy.waits (h : VotedBy T₀ T i ns)
    (hnew : ∀ j, ((T₀ i).workers j).nodeId ≠ 0 → ((T₀ i).workers j).voteYes = none)
    (hmissing : ∃ n, Voter T₀ i n ∧ n ∉ ns) : tally (List.ofFn (T i).workers) c = .wait := by
  refine tally_wait (fun w hw hne => ?_) ?_
  · obtain ⟨j, rfl⟩ := (List.mem_ofFn).mp hw
    rw [h.nodeId] at hne
    rw [h.voteYes j hne, hnew j hne]
    by_cases hvoted : ((T₀ i).workers j).nodeId ∈ ns
    · exact Or.inr (if_pos hvoted)
    · exact Or.inl (if_neg hvoted)
  · -- the participant without a vote stops the count
    obtain ⟨n, ⟨hn, j, rfl⟩, hno⟩ := hmissing
    refine ⟨_, (List.mem_ofFn).mpr ⟨j, rfl⟩, (h.nodeId j).symm ▸ hn, ?_⟩
    rw [h.voteYes j hn, if_neg hno, hnew j hn]

end Manager

end DistributedSystem.Transaction
