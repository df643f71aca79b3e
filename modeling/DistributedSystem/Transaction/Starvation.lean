import DistributedSystem.Transaction.Irrevocable
import DistributedSystem.Transaction.Termination

/-!
# A request for no transaction

A worker that is in no transaction answers a `COMMIT` command with a request for transaction 0,
and the manager logs it. From then on every empty slot of the table counts as asked to commit,
and the vote timeout stops at the first one: it aborts at most one transaction more, however
often it fires.
-/

namespace DistributedSystem.Transaction

open DistributedSystem.Library

namespace Manager

variable {s₀ s : Manager} {e : ManagerEffect} {i : Fin maxTrans} {inp : Input}

/-- The manager after some timeouts from `s₀`: at most slot `i` has been emptied, if it was the
    first one asked to commit, and nothing has been asked for since. -/
structure Starved (s₀ : Manager) (i : Fin maxTrans) (s : Manager) : Prop where
  others : ∀ j ≠ i, (s.workerInfo j).tid = (s₀.workerInfo j).tid
  first : (s.workerInfo i).tid = (s₀.workerInfo i).tid ∨
    (s.workerInfo i).tid = 0 ∧ FirstRequested s₀.workerInfo (mappedCoord s₀.log) i
  requests : ∀ t, Requested (mappedCoord s.log) t ↔ Requested (mappedCoord s₀.log) t

theorem starved_self (s : Manager) (i : Fin maxTrans) : Starved s i s :=
  ⟨fun _ _ => rfl, Or.inl rfl, fun _ => Iff.rfl⟩

/-- The effects of timeouts that abort nothing but slot `i`. -/
def Sterile (s₀ : Manager) (i : Fin maxTrans) : ManagerEffect → Prop
  | .log r => r.msgID = .decideAbort
  | .tid k t => k = i ∧ t = 0 ∧ FirstRequested s₀.workerInfo (mappedCoord s₀.log) i
  | _ => True

theorem Starved.apply (h : Starved s₀ i s) (he : Sterile s₀ i e) : Starved s₀ i (s.apply e) := by
  have hlog : ∀ t, Requested (mappedCoord (s.apply e).log) t ↔ Requested (mappedCoord s.log) t := by
    intro t
    rw [log_apply]
    cases e with
    | log r =>
        -- what is read of the new record is an abort, or zero
        obtain ⟨r', hmapped, hr'⟩ := mappedCoord_concat s.log r
        have hkind : r'.msgID = .decideAbort ∨ r'.msgID = .other 0 := by
          rcases hr' with ⟨hkind, -⟩ | rfl
          · exact Or.inl (hkind.trans he)
          · exact Or.inr rfl
        rw [Requested, hmapped, unanswered_concat]
        rcases hkind with hkind | hkind <;> simp [IsRequest, IsMark, hkind, Requested]
    | _ => rfl
  refine ⟨fun j hj => ?_, ?_, fun t => (hlog t).trans (h.requests t)⟩
  · rw [tid_apply]
    cases e with
    | tid k t => simpa [show k = i from he.1, hj] using h.others j hj
    | _ => exact h.others j hj
  · rw [tid_apply]
    cases e with
    | tid k t => exact Or.inr ⟨by simp [show k = i from he.1, show t = 0 from he.2.1], he.2.2⟩
    | _ => exact h.first

theorem sterile_of_isBookkeeping (h : e.isBookkeeping) : Sterile s₀ i e := by
  cases e <;> simp_all [ManagerEffect.isBookkeeping, Sterile]

/-- While slot `i` is the first one that counts as asked to commit, a timeout aborts nothing else. -/
theorem sterile_voteTimeout (hfirst₀ : FirstRequested s₀.workerInfo (mappedCoord s₀.log) i)
    (hfirst : FirstRequested s.workerInfo (mappedCoord s.log) i) (h : e ∈ s.voteTimeout) : Sterile s₀ i e := by
  have hfound : waitingForVotes s.workerInfo s.log = some (s.workerInfo i).tid :=
    waitingForVotes_eq_some.mpr ⟨i, hfirst, rfl⟩
  simp only [voteTimeout, hfound, List.mem_append, List.mem_cons, List.not_mem_nil, or_false] at h
  rcases h with ((rfl | rfl) | h) | h
  · trivial
  · rfl
  · rcases mem_sendToAllWorkers h with hb | ⟨w, -, n, vc, rfl⟩
    · exact sterile_of_isBookkeeping hb
    · trivial
  · obtain ⟨k, hk, heq⟩ := mem_cleanWorkerInfo h
    -- an earlier slot of the same transaction would count as well
    have hki : k = i := by
      obtain ⟨hkt, hmin⟩ := findSlot_eq_some.mp hk
      by_contra hne
      rcases lt_or_gt_of_ne hne with hlt | hgt
      · exact hfirst.2 k hlt (hkt ▸ hfirst.1)
      · exact hmin i hgt rfl
    rcases heq with rfl | rfl | ⟨j, rfl | rfl | rfl⟩
    · exact ⟨hki, rfl, hfirst₀⟩
    all_goals trivial

theorem sterile_restart (h : e ∈ s.restart) : Sterile s₀ i e := by
  simp only [restart, List.mem_append, List.mem_cons, List.not_mem_nil, or_false] at h
  rcases h with ((rfl | rfl | rfl | rfl) | h) | rfl
  any_goals trivial
  rcases mem_sendLoop h with hb | ⟨x, -, n, vc, rfl⟩
  · exact sterile_of_isBookkeeping hb
  · trivial

/-- The first slot that counts as asked to commit stays the first one when it is emptied. -/
theorem Starved.firstRequested (h : Starved s₀ i s) (hzero : Requested (mappedCoord s₀.log) 0)
    (hfirst : FirstRequested s₀.workerInfo (mappedCoord s₀.log) i) :
    FirstRequested s.workerInfo (mappedCoord s.log) i := by
  refine ⟨(h.requests _).mpr ?_, fun j hj hreq => ?_⟩
  · rcases h.first with heq | ⟨heq, -⟩
    · exact heq ▸ hfirst.1
    · exact heq ▸ hzero
  · refine hfirst.2 j hj ?_
    have hreq' := (h.requests _).mp hreq
    rwa [h.others j (ne_of_lt hj)] at hreq'

/-- **Step lemma**: timeouts and restarts, cut off anywhere, empty no other slot. -/
theorem Starved.step {a : Act Input} (h : Starved s₀ i s) (hzero : Requested (mappedCoord s₀.log) 0)
    (hfirst : FirstRequested s₀.workerInfo (mappedCoord s₀.log) i ∨
      ∀ j, ¬ Requested (mappedCoord s₀.log) (s₀.workerInfo j).tid)
    (ha : a.input = .timeout ∨ a.input = .restart) : Starved s₀ i (process.step s a) := by
  refine Process.step_preserved h (fun s' e he hs' => hs'.apply ?_) fun s' hs' =>
    hs'.apply (show Sterile s₀ i .exit from trivial)
  rw [process_handler] at he
  rcases ha with ha | ha
  · rw [ha] at he
    rcases hfirst with hfirst | hnone
    · exact sterile_voteTimeout hfirst (h.firstRequested hzero hfirst) he
    · -- every slot holds a transaction, and none was asked to commit
      have hsame : ∀ j, (s.workerInfo j).tid = (s₀.workerInfo j).tid := by
        intro j
        by_cases hj : j = i
        · exact hj ▸ h.first.resolve_right fun hcount => hnone i hcount.2.1
        · exact h.others j hj
      have hnone' : waitingForVotes s.workerInfo s.log = none :=
        waitingForVotes_eq_none.mpr fun j hreq => hnone j (hsame j ▸ (h.requests _).mp hreq)
      simp [handle, voteTimeout, hnone'] at he
  · rw [ha] at he
    exact sterile_restart he

/-- A request for no transaction, and two transactions that were asked to commit. -/
def idleRequest : List (Act Input) :=
  [fromWorker .commit 0, fromWorker .begintx 1, fromWorker .commit 1, fromWorker .begintx 2,
    fromWorker .commit 2]

/-- Transaction 2 keeps its slot. -/
example : ((process.machine.after (start 7)
    (idleRequest ++ List.replicate 4 ⟨.timeout, none⟩)).workerInfo 1).tid = 2 := by decide +kernel

end Manager

end DistributedSystem.Transaction
