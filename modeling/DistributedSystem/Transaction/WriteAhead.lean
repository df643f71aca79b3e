import DistributedSystem.Transaction.Irrevocable
import DistributedSystem.Transaction.VoteTimeout

/-!
# Decisions are written ahead

`cleanWorkerInfo` throws away what the table knows of a transaction, and only the record log
can still answer its participants. Every path that calls it has logged a decision on this
transaction before, in the same handler, so that no crash comes between a lost slot and its
record.
-/

namespace DistributedSystem.Transaction

open DistributedSystem.Library

/-- The effect writes the id of a slot. -/
def ManagerEffect.isIdWrite : ManagerEffect → Bool
  | .tid _ _ => true
  | _ => false

namespace Manager

variable {s : Manager} {T T' : Table} {t : Tid} {n : ℕ} {e : ManagerEffect} {m : TxMessage}
  {es fs : List ManagerEffect}

/-! ## What a handler does to the ids -/

/-- The effects write at most one id, and a transaction of `T` loses its slot only behind the
    record of a decision on it. -/
def WritesAhead (T : Table) (es : List ManagerEffect) : Prop :=
  (∀ e ∈ es, e.isIdWrite = false) ∨
    ∃ pre i t post, es = pre ++ .tid i t :: post ∧ (∀ e ∈ pre ++ post, e.isIdWrite = false) ∧
      ((T i).tid ≠ 0 → ∃ r, .log r ∈ pre ∧ IsDecision (T i).tid r)

theorem WritesAhead.append_left (h : WritesAhead T es) (hfs : ∀ e ∈ fs, e.isIdWrite = false) :
    WritesAhead T (fs ++ es) := by
  rcases h with h | ⟨pre, i, t, post, rfl, hplain, hlogged⟩
  · exact Or.inl fun e he => (List.mem_append.mp he).elim (hfs e) (h e)
  · refine Or.inr ⟨fs ++ pre, i, t, post, by rw [List.append_assoc], ?_, fun hne => ?_⟩
    · intro e he
      rw [List.append_assoc] at he
      exact (List.mem_append.mp he).elim (hfs e) (hplain e)
    · obtain ⟨r, hr, hd⟩ := hlogged hne
      exact ⟨r, List.mem_append_right _ hr, hd⟩

theorem WritesAhead.append_right (h : WritesAhead T es) (hfs : ∀ e ∈ fs, e.isIdWrite = false) :
    WritesAhead T (es ++ fs) := by
  rcases h with h | ⟨pre, i, t, post, rfl, hplain, hlogged⟩
  · exact Or.inl fun e he => (List.mem_append.mp he).elim (h e) (hfs e)
  · refine Or.inr ⟨pre, i, t, post ++ fs, by rw [List.append_assoc, List.cons_append], ?_, hlogged⟩
    intro e he
    rw [← List.append_assoc] at he
    exact (List.mem_append.mp he).elim (hplain e) (hfs e)

theorem WritesAhead.congr (h : WritesAhead T es) (hT : ∀ k, (T k).tid = (T' k).tid) :
    WritesAhead T' es := by
  simpa only [WritesAhead, hT] using h

theorem isIdWrite_of_isBookkeeping (h : e.isBookkeeping) : e.isIdWrite = false := by
  cases e <;> simp_all [ManagerEffect.isBookkeeping, ManagerEffect.isIdWrite]

theorem isIdWrite_sendToAllWorkers {vc : VClock} {nodeId : NodeId} {k : MsgId}
    (h : e ∈ s.sendToAllWorkers vc t nodeId k) : e.isIdWrite = false := by
  rcases mem_sendToAllWorkers h with hb | ⟨w, -, n', vc', rfl⟩
  · exact isIdWrite_of_isBookkeeping hb
  · rfl

theorem isIdWrite_sendTo {port : NodeId} {vc : VClock} {dst : SockAddr} {k : MsgId}
    {nodeId : NodeId} (h : e ∈ sendTo port vc dst k t nodeId) : e.isIdWrite = false := by
  simp only [sendTo, List.mem_cons, List.not_mem_nil, or_false] at h
  rcases h with rfl | rfl | rfl | rfl <;> rfl

theorem isIdWrite_reply {src : SockAddr} {k : MsgId} {vc : VClock} (h : e ∈ reply src m k vc) :
    e.isIdWrite = false := by
  rcases mem_reply h with hb | rfl
  · exact isIdWrite_of_isBookkeeping hb
  · rfl

/-- `cleanWorkerInfo` behind the record of a decision. -/
theorem writesAhead_clean {r : CoordRecord} (hr : IsDecision t r) (hlog : .log r ∈ es)
    (hes : ∀ e ∈ es, e.isIdWrite = false) : WritesAhead T (es ++ cleanWorkerInfo T t) := by
  unfold cleanWorkerInfo
  split
  · rename_i i hi
    have hit := (findSlot_eq_some.mp hi).1
    refine Or.inr ⟨es ++ (List.finRange maxNodes).flatMap
        (fun j => [.nodeId i j 0, .port i j 0, .voteYes i j none]) ++ [.isCrash i false], i, 0, [],
      by simp, ?_, fun _ => ⟨r, ?_, hit ▸ hr⟩⟩
    · intro e he
      simp only [List.append_nil, List.mem_append, List.mem_flatMap, List.mem_finRange, true_and,
        List.mem_cons, List.not_mem_nil, or_false] at he
      rcases he with (he | ⟨j, rfl | rfl | rfl⟩) | rfl
      · exact hes e he
      all_goals rfl
    · exact List.mem_append_left _ (List.mem_append_left _ hlog)
  · rw [List.append_nil]
    exact Or.inl hes

/-- `saveWorkerInfo` takes an empty slot. -/
theorem writesAhead_saveWorkerInfo {p : ℕ} {k : MsgId} {nodeId : NodeId} {a : SockAddr} {index : ℕ} :
    WritesAhead T (saveWorkerInfo T p t k nodeId a index).2 := by
  have hadd : ∀ i, ∀ e ∈ addWorker T i p nodeId a, e.isIdWrite = false := by
    intro i e he
    obtain ⟨j, -, rfl | rfl | rfl⟩ := mem_addWorker he <;> rfl
  unfold saveWorkerInfo
  split
  · rename_i i hi
    by_cases ht : (T i).tid = t
    · simp only [ht, if_true]
      split
      · exact Or.inl (by simp)
      · split
        · exact Or.inl (hadd i)
        · exact Or.inl (by simp)
    · simp only [ht, if_false]
      split
      · exact Or.inl (by simp)
      · have hempty : (T i).tid = 0 := by
          have hmatch := (firstFin_eq_some.mp hi).1
          simpa [ht] using hmatch
        exact Or.inr ⟨[], i, t, [], rfl, by simp, fun hne => absurd hempty hne⟩
  · split
    · exact Or.inl (hadd _)
    · exact Or.inl (by simp)

/-- `announce` logs before it clears, whichever way it goes on. -/
theorem writesAhead_announce {d : MsgId} (hd : d = .decideCommit ∨ d = .decideAbort) :
    WritesAhead s.workerInfo (s.announce m d) := by
  obtain ⟨pre, post, heq, hrest⟩ := announce_eq s m d
  have hplain : ∀ e ∈ pre ++ post, e.isIdWrite = false := by
    intro e he
    rcases hrest e he with hb | ⟨i, b, rfl⟩ | rfl | ⟨w, -, n', vc, rfl⟩
    · exact isIdWrite_of_isBookkeeping hb
    all_goals rfl
  rw [heq, ← List.cons_append, ← List.cons_append]
  refine (writesAhead_clean (t := m.tid) ⟨rfl, hd⟩ List.mem_cons_self ?_).append_right
    fun e he => hplain e (List.mem_append_right _ he)
  intro e he
  rcases List.mem_cons.mp he with rfl | he
  · rfl
  · exact hplain e (List.mem_append_left _ he)

theorem writesAhead_voteTimeout : WritesAhead s.workerInfo s.voteTimeout := by
  unfold voteTimeout
  split
  · rename_i t ht
    refine writesAhead_clean (r := ⟨.decideAbort, t, s.mem.recNodeId⟩) ⟨rfl, Or.inr rfl⟩ (by simp) ?_
    intro e he
    simp only [List.mem_append, List.mem_cons, List.not_mem_nil, or_false] at he
    rcases he with (rfl | rfl) | he
    · rfl
    · rfl
    · exact isIdWrite_sendToAllWorkers he
  · exact Or.inl (by simp)

theorem writesAhead_handleVote {src : SockAddr} {u : Uninit} :
    WritesAhead s.workerInfo (s.handleVote src m u) := by
  -- the crash flag and the vote leave the ids alone
  have hflag : ∀ e ∈ s.crashFlag m, e.isIdWrite = false := by
    intro e he
    obtain ⟨i, b, rfl⟩ := mem_crashFlag he
    rfl
  have hvote : ∀ e ∈ ((process.exec s (s.crashFlag m)).collectVote m u.commit).2, e.isIdWrite = false := by
    intro e he
    obtain ⟨i, j, -, -, rfl⟩ := mem_collectVote he
    rfl
  rw [handleVote_eq]
  refine WritesAhead.append_left ?_ fun e he => (List.mem_append.mp he).elim (hflag e) (hvote e)
  split
  · split
    · exact Or.inl fun e he => isIdWrite_sendTo he
    · refine (writesAhead_announce (Or.inl rfl)).congr fun k => ?_
      have htid := (exec_crashFlag s m k).1
      rw [counted, tid_exec (fun e he i t heq => by simpa [heq, ManagerEffect.isIdWrite] using hvote e he), htid]
  · exact Or.inl fun e he => isIdWrite_sendTo he
  · exact Or.inl (by simp)

/-- **One input**: whatever the manager handles, it logs before it clears. -/
theorem writesAhead_handle (s : Manager) (inp : Input) : WritesAhead s.workerInfo (s.handle inp) := by
  cases inp with
  | timeout => exact writesAhead_voteTimeout
  | restart =>
      refine Or.inl fun e he => ?_
      simp only [handle, restart, List.mem_append, List.mem_cons, List.not_mem_nil, or_false] at he
      rcases he with ((rfl | rfl | rfl | rfl) | he) | rfl
      any_goals rfl
      rcases mem_sendLoop he with hb | ⟨x, -, n', vc, rfl⟩
      · exact isIdWrite_of_isBookkeeping hb
      · rfl
  | message src m u =>
      simp only [handle, handleWorkerMsg]
      refine WritesAhead.append_left ?_ fun e he => isIdWrite_of_isBookkeeping (mem_receive he)
      split
      · refine (writesAhead_saveWorkerInfo.append_right (by simp [ManagerEffect.isIdWrite])).append_right ?_
        exact fun e he => isIdWrite_reply he
      · refine (writesAhead_saveWorkerInfo.append_right (by simp [ManagerEffect.isIdWrite])).append_right ?_
        intro e he
        split at he
        · exact isIdWrite_reply he
        · rcases List.mem_cons.mp he with rfl | he
          · rfl
          · exact isIdWrite_reply he
      · refine Or.inl fun e he => ?_
        rcases List.mem_cons.mp he with rfl | he
        · rfl
        · exact isIdWrite_sendToAllWorkers he
      · exact writesAhead_handleVote
      · exact writesAhead_handleVote
      · -- the crash flag is set before the vote against is announced
        have hflag : ∀ e ∈ s.crashFlag m, e.isIdWrite = false := by
          intro e he
          obtain ⟨i, b, rfl⟩ := mem_crashFlag he
          rfl
        refine WritesAhead.append_left ?_ hflag
        exact (writesAhead_announce (Or.inr rfl)).congr fun k => (exec_crashFlag s m k).1
      · exact Or.inl (by simp)

/-! ## Runs -/

/-- `t` has a slot, or a decision on it is in the log behind the first `n` records. -/
def Kept (n : ℕ) (t : Tid) (s : Manager) : Prop := s.Holds t ∨ ∃ r ∈ s.log.drop n, IsDecision t r

theorem decided_apply (h : ∃ r ∈ s.log.drop n, IsDecision t r) (e : ManagerEffect) :
    ∃ r ∈ (s.apply e).log.drop n, IsDecision t r := by
  obtain ⟨r, hr, hd⟩ := h
  refine ⟨r, ?_, hd⟩
  rw [log_apply]
  cases e with
  | log r' =>
      rw [List.drop_append]
      exact List.mem_append_left _ hr
  | _ => exact hr

theorem decided_exec (h : ∃ r ∈ s.log.drop n, IsDecision t r) (es : List ManagerEffect) :
    ∃ r ∈ (process.exec s es).log.drop n, IsDecision t r :=
  Process.exec_invariant (P := process) (I := fun s => ∃ r ∈ s.log.drop n, IsDecision t r) h
    fun _ e _ hs => decided_apply hs e

theorem log_prefix_exec (s : Manager) (es : List ManagerEffect) : s.log <+: (process.exec s es).log :=
  Process.exec_invariant (P := process) (I := fun s' => s.log <+: s'.log) List.prefix_rfl
    fun s' e _ hs => hs.trans (by rw [process_apply, log_apply]; cases e <;> simp)

theorem Kept.apply (h : Kept n t s) (he : e.isIdWrite = false) : Kept n t (s.apply e) := by
  refine h.imp (fun ⟨k, hk⟩ => ⟨k, ?_⟩) fun hd => decided_apply hd e
  rw [tid_apply]
  cases e with
  | tid i t' => simp [ManagerEffect.isIdWrite] at he
  | _ => exact hk

/-- **Step lemma**: no handler loses a transaction, wherever it is cut off. -/
theorem kept_throughout (h : Kept n t s) (hn : n ≤ s.log.length) (ht : t ≠ 0)
    (hes : WritesAhead s.workerInfo es) : process.Throughout (Kept n t) s es := by
  rcases hes with hes | ⟨pre, i, t', post, rfl, hplain, hlogged⟩
  · exact Process.throughout_of_preserved h fun s e he hs => hs.apply (hes e he)
  -- up to the one id that is written, nothing can go wrong
  have hpre : process.Throughout (Kept n t) s pre :=
    Process.throughout_of_preserved h fun s e he hs => hs.apply (hplain e (List.mem_append_left _ he))
  have htid : ∀ k, ((process.exec s pre).workerInfo k).tid = (s.workerInfo k).tid := tid_exec
    fun e he i t heq => by simpa [heq, ManagerEffect.isIdWrite] using hplain e (List.mem_append_left _ he)
  have hwrite : Kept n t ((process.exec s pre).apply (.tid i t')) := by
    rcases hpre.last with ⟨k, hk⟩ | hd
    · by_cases hki : k = i
      · -- the slot is taken from `t`, which has been decided by then
        subst hki
        rw [htid] at hk
        obtain ⟨r, hr, hdecides⟩ := hlogged (hk ▸ ht)
        obtain ⟨es₁, es₂, rfl⟩ := List.append_of_mem hr
        refine Or.inr (decided_apply ?_ _)
        rw [Process.exec_append, Process.exec_cons]
        refine decided_exec ⟨r, ?_, hk ▸ hdecides⟩ es₂
        have hmono := log_prefix_exec s es₁
        rw [process_apply, log_apply, List.drop_append]
        refine List.mem_append_right _ ?_
        rw [Nat.sub_eq_zero_of_le (hn.trans hmono.length_le), List.drop_zero]
        exact List.mem_singleton_self r
      · exact Or.inl ⟨k, by rw [tid_apply]; simpa [hki] using hk⟩
    · exact Or.inr (decided_apply hd _)
  refine Process.throughout_append.mpr ⟨hpre, hpre.last, ?_⟩
  exact Process.throughout_of_preserved hwrite fun s e he hs => hs.apply (hplain e (List.mem_append_right _ he))

/-- **Decisions are written ahead**: in every run, with crashes anywhere, a transaction that had
    a slot and has lost it since has been decided in the log since. -/
theorem lost_slot_decided (port : NodeId) (as bs : List (Act Input)) (t : Tid) (ht : t ≠ 0)
    (hrun : process.machine.Along process.machine.enabled (start port) (as ++ bs))
    (hheld : (process.machine.after (start port) as).Holds t)
    (hlost : ¬ (process.machine.after (start port) (as ++ bs)).Holds t) :
    ∃ r ∈ (process.machine.after (start port) (as ++ bs)).log.drop
      (process.machine.after (start port) as).log.length, IsDecision t r := by
  rw [Machine.after_append] at hlost ⊢
  have hrest := (Machine.along_append.mp hrun).2
  generalize process.machine.after (start port) as = s at hheld hlost hrest ⊢
  have hkept := hrest.invariant
    (I := fun s' => s.log.length ≤ s'.log.length ∧ Kept s.log.length t s') ⟨le_refl _, Or.inl hheld⟩ ?_
  · exact hkept.2.resolve_left hlost
  · rintro s' a ⟨hn, hs'⟩ -
    refine ⟨hn.trans (log_prefix_exec s' _).length_le, ?_⟩
    have hall := kept_throughout hs' hn ht (writesAhead_handle s' a.input)
    refine Process.step_invariant hall hall.last fun s'' hs'' => ?_
    exact Kept.apply (e := .exit) hs'' rfl

/-- The manager is started again while it waits for the vote, which then decides. -/
theorem lost_slot_decided_recovery :
    ∃ r ∈ (process.machine.after (start 7) (recoveryRun.take 5 ++ recoveryRun.drop 5)).log.drop
      (process.machine.after (start 7) (recoveryRun.take 5)).log.length, IsDecision 1 r :=
  lost_slot_decided 7 (recoveryRun.take 5) (recoveryRun.drop 5) 1 (by decide) (by decide +kernel)
    (by decide +kernel) (by decide +kernel)

end Manager

end DistributedSystem.Transaction
