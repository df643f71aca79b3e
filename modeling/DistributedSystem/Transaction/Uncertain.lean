import DistributedSystem.Transaction.WorkerSteps

/-!
# The uncertain worker

After a `VOTE_COMMIT` the worker is uncertain until it logs a decision. A ghost bit follows
this for one transaction. The wait of `waitingForCoordResponse` ends with the first datagram
of any kind, so the worker stays blocked in the runs where the datagrams it is given
meanwhile are decisions on that transaction.
-/

namespace DistributedSystem.Transaction

open DistributedSystem.Library

/-- The record holds a decision on `t`. -/
def Record.Decides (r : Record) (t : Tid) : Prop :=
  r.tid = t ∧ (r.msgID = .decideCommit ∨ r.msgID = .decideAbort)

instance (r : Record) (t : Tid) : Decidable (r.Decides t) := inferInstanceAs (Decidable (_ ∧ _))

/-- The message is a yes vote on `t`. -/
def TxMessage.VotesFor (m : TxMessage) (t : Tid) : Prop := m.msgID = .voteCommit ∧ m.tid = t

instance (m : TxMessage) (t : Tid) : Decidable (m.VotesFor t) := inferInstanceAs (Decidable (_ ∧ _))

def WorkerEffect.isLog : WorkerEffect → Bool
  | .log _ => true
  | _ => false

/-- Whether the worker is uncertain about `t`: from its yes vote to the record of a decision. -/
def uncertainAfter (t : Tid) (b : Bool) : WorkerEffect → Bool
  | .send _ m => if m.VotesFor t then true else b
  | .log r => if r.Decides t then false else b
  | _ => b

namespace Worker

/-- The worker with the bit that says whether it is uncertain about `t`. -/
def voting (t : Tid) : Process (Worker × Bool) WorkerEffect Input :=
  process.instrument fun _ b e => uncertainAfter t b e

/-- A step of an uncertain worker: no command, no `ABORT` record for `t`, and unless the
    step ends the uncertainty the object stays. -/
def Blocked (t : Tid) (s : Worker × Bool) (a : Act Input) : Prop :=
  s.2 = true → (∀ c calls, a.input ≠ .cmd c calls) ∧
    (∀ r, .log r ∈ process.performed s.1 a → ¬ (r.tid = t ∧ r.msgID = .abort)) ∧
    (((voting t).step s a).2 = true → (process.step s.1 a).objData = s.1.objData)

/-- The datagram is a decision on `t`. -/
def IsDecision (t : Tid) : Input → Prop
  | .manager _ m => m.tid = t ∧ (m.msgID = .decideCommit ∨ m.msgID = .decideAbort)
  | _ => True

instance (t : Tid) : ∀ inp, Decidable (IsDecision t inp)
  | .manager _ _ => inferInstanceAs (Decidable (_ ∧ _))
  | .cmd _ _ | .pollTimeout | .restart => isTrue trivial

/-- While the worker is uncertain about `t` it is given no datagram but decisions on `t`, a
    restart finds the log on the page, and it does not crash between the writes of a rollback and
    the record of the decision. -/
def Undisturbed (t : Tid) (s : Worker × Bool) (a : Act Input) : Prop :=
  s.2 = true → IsDecision t a.input ∧ (a.input = .restart → s.1.OnPage) ∧
    ((∃ e ∈ process.performed s.1 a, e.isRestore) → ∃ e ∈ process.performed s.1 a, e.isLog)

instance (t : Tid) (s : Worker × Bool) (a : Act Input) : Decidable (Undisturbed t s a) :=
  inferInstanceAs (Decidable (_ → _))

/-- The manager repeats its `PREPARE_COMMIT`, and then a `NEW_A` command arrives. -/
def repeatedPrepare : List (Act Input) :=
  [deliver .joinSuccess 1, deliver .prepareCommit 1, deliver .prepareCommit 1, newA 7]

/-- The repeated `PREPARE_COMMIT` ends the wait, and the uncertain worker obeys the command. -/
theorem uncertain_worker_updates :
    process.machine.Along (fun w a => w.accepts a.input) worker40 repeatedPrepare ∧
      ((voting 1).machine.after (worker40, false) (repeatedPrepare.take 3)).2 = true ∧
      ((voting 1).machine.after (worker40, false) repeatedPrepare).2 = true ∧
      (process.machine.after worker40 (repeatedPrepare.take 3)).objData.A = 1 ∧
      (process.machine.after worker40 repeatedPrepare).objData.A = 7 := by
  decide +kernel

variable {t : Tid} {w : Worker} {b : Bool} {inp : Input} {m : TxMessage} {src : SockAddr}
  {e : WorkerEffect} {es : List WorkerEffect}

/-! ## The ghost bit -/

theorem exec_voting_fst (t : Tid) (w : Worker) (b : Bool) (es : List WorkerEffect) :
    ((voting t).exec (w, b) es).1 = process.exec w es := Process.instrument_exec_fst _ w b es

/-- Without a yes vote the worker does not become uncertain. -/
theorem certain_of_no_vote (h : ∀ dst m, .send dst m ∈ es → ¬ m.VotesFor t) :
    ((voting t).exec (w, false) es).2 = false := by
  refine Process.exec_invariant (P := voting t) (I := fun s => s.2 = false) rfl ?_
  rintro ⟨w', b'⟩ e he hb
  have hb : b' = false := hb
  show uncertainAfter t b' e = false
  subst hb
  cases e with
  | send dst m => exact if_neg (h dst m he)
  | log r => exact ite_self false
  | _ => rfl

/-- A decision ends the uncertainty. -/
theorem certain_of_decision (hvote : ∀ dst m, .send dst m ∈ es → ¬ m.VotesFor t)
    (hlogs : ∀ r, .log r ∈ es → r.Decides t) (hlog : ∃ r, .log r ∈ es) :
    ((voting t).exec (w, b) es).2 = false := by
  obtain ⟨r, hr⟩ := hlog
  obtain ⟨init, rest, rfl⟩ := List.append_of_mem hr
  have happly : ∀ s : Worker × Bool, (voting t).apply s (.log r) = (s.1.apply (.log r), false) :=
    fun s => Prod.ext rfl (if_pos (hlogs r hr))
  rw [Process.exec_append, Process.exec_cons, happly]
  exact certain_of_no_vote fun dst m hm => hvote dst m (by simp [hm])

/-! ## The inputs of an uncertain worker -/

theorem mem_waitingForCoordResponse (hdecide : m.msgID = .decideCommit ∨ m.msgID = .decideAbort) :
    e ∈ w.waitingForCoordResponse src m → e.isInternal ∨ e.isRestore ∨
      e = .log { msgID := m.msgID, tid := m.tid } := by
  intro he
  simp only [waitingForCoordResponse, List.mem_append, List.mem_singleton] at he
  rcases he with (he | he) | rfl
  · exact Or.inl (mem_receive he)
  · rcases hdecide with hk | hk
    · simp only [hk, handleDecideCommit, List.mem_cons, List.not_mem_nil, or_false] at he
      rcases he with rfl | rfl
      · exact Or.inr (Or.inr (by rw [hk]))
      · exact Or.inl rfl
    · simp only [hk, handleDecideAbort, List.mem_append, List.mem_cons, List.not_mem_nil,
        or_false] at he
      rcases he with he | rfl | rfl
      · exact Or.inr (Or.inl (mem_rollback he))
      · exact Or.inr (Or.inr (by rw [hk]))
      · exact Or.inl rfl
  · exact Or.inl rfl

/-- The last record makes a restarted worker wait for a decision. -/
def Awaits (w : Worker) : Prop := awaitsDecision (w.log.getLast?.map Record.msgID) = true

/-- The restarted worker reads it if the log ends on the page. -/
theorem Awaits.seen (h : w.Awaits) (hpage : w.OnPage) :
    awaitsDecision ((findStateFromRecord w.log).map Record.msgID) = true := by
  rw [findStateFromRecord_eq hpage]
  exact h

/-- What an effect of a blocked worker may be: the record of a decision on `t`, a write of a
    rollback, or something that neither writes a record or the object nor sends a vote. -/
def BlockedEffect (t : Tid) (e : WorkerEffect) : Prop :=
  (∃ r, e = .log r ∧ r.Decides t) ∨ e.isRestore ∨
    (e.isPlain ∧ e.isLog = false ∧ ∀ dst m, e = .send dst m → ¬ m.VotesFor t)

theorem blockedEffect_of_isInternal (h : e.isInternal) : BlockedEffect t e := by
  refine Or.inr (Or.inr ⟨isPlain_of_isInternal h, ?_, ?_⟩)
  · cases e <;> simp_all [WorkerEffect.isInternal, WorkerEffect.isLog]
  · rintro dst m rfl
    simp [WorkerEffect.isInternal] at h

theorem BlockedEffect.log {r : Record} (h : BlockedEffect t (.log r)) : r.Decides t := by
  rcases h with ⟨r', heq, hdecides⟩ | h | ⟨-, h, -⟩
  · cases heq
    exact hdecides
  · simp [WorkerEffect.isRestore] at h
  · simp [WorkerEffect.isLog] at h

theorem BlockedEffect.send {dst : SockAddr} (h : BlockedEffect t (.send dst m)) : ¬ m.VotesFor t := by
  rcases h with ⟨r, heq, -⟩ | h | ⟨-, -, h⟩
  · cases heq
  · simp [WorkerEffect.isRestore] at h
  · exact h dst m rfl

/-- A blocked worker does only such effects. -/
theorem blocked_handle (hloop : w.mem.control ≠ .cmdLoop) (hawaits : w.Awaits)
    (hacc : w.accepts inp) (hinput : IsDecision t inp) (hpage : inp = .restart → w.OnPage)
    (he : e ∈ w.handle inp) : BlockedEffect t e := by
  cases inp with
  | cmd c calls => exact absurd hacc hloop
  | manager src m =>
      cases hcontrol : w.mem.control with
      | down => exact absurd hcontrol hacc
      | cmdLoop => exact absurd hcontrol hloop
      | waiting a =>
          simp only [handle, hcontrol] at he
          rcases mem_waitingForCoordResponse hinput.2 he with he | he | rfl
          · exact blockedEffect_of_isInternal he
          · exact Or.inr (Or.inl he)
          · -- the wait ends, with a decision
            exact Or.inl ⟨_, rfl, hinput⟩
  | pollTimeout =>
      simp only [handle] at he
      split at he
      · simp only [pollDecision, List.mem_append, List.mem_cons, List.not_mem_nil, or_false] at he
        rcases he with (rfl | rfl | rfl | rfl) | he
        · exact blockedEffect_of_isInternal rfl
        · exact blockedEffect_of_isInternal rfl
        · exact blockedEffect_of_isInternal rfl
        · exact blockedEffect_of_isInternal rfl
        · rcases mem_sendMsg he with rfl | he
          · refine Or.inr (Or.inr ⟨rfl, rfl, ?_⟩)
            rintro dst m heq hvote
            cases heq
            simp [TxMessage.VotesFor, constructTxMessage] at hvote
          · exact blockedEffect_of_isInternal he
      · simp at he
  | restart =>
      -- the restarted worker reads from its log that it has to ask
      have hawaits := hawaits.seen (hpage rfl)
      simp only [handle, restart, hawaits, if_true, List.mem_append, List.mem_cons, List.not_mem_nil,
        or_false] at he
      rcases he with (rfl | rfl | rfl | rfl | rfl) | rfl
      · exact blockedEffect_of_isInternal rfl
      · exact blockedEffect_of_isInternal rfl
      · exact blockedEffect_of_isInternal rfl
      · exact blockedEffect_of_isInternal rfl
      · refine Or.inr (Or.inr ⟨rfl, rfl, ?_⟩)
        rintro dst m heq
        cases heq
      · exact blockedEffect_of_isInternal rfl

/-- A blocked worker that handles its input to the end has logged the decision or waits on. -/
theorem control_of_blocked (hloop : w.mem.control ≠ .cmdLoop) (hawaits : w.Awaits)
    (hacc : w.accepts inp) (hinput : IsDecision t inp) (hpage : inp = .restart → w.OnPage)
    (hexit : .exit ∉ w.handle inp)
    (hnolog : ∀ r, .log r ∉ w.handle inp) :
    (process.exec w (w.handle inp)).mem.control ≠ .cmdLoop := by
  cases inp with
  | cmd c calls => exact absurd hacc hloop
  | manager src m =>
      cases hcontrol : w.mem.control with
      | down => exact absurd hcontrol hacc
      | cmdLoop => exact absurd hcontrol hloop
      | waiting a =>
          refine absurd ?_ (hnolog { msgID := m.msgID, tid := m.tid })
          rcases hinput.2 with hk | hk <;>
            simp [handle, hcontrol, waitingForCoordResponse, hk, handleDecideCommit, handleDecideAbort]
  | pollTimeout =>
      refine Process.exec_invariant (I := fun w' : Worker => w'.mem.control ≠ .cmdLoop) hloop ?_
      intro w' e he hw'
      rw [process_apply, control_apply]
      split
      · -- a poll has no effect on the control
        rename_i c
        simp only [handle] at he
        split at he
        · simp only [pollDecision, List.mem_append, List.mem_cons, List.not_mem_nil, or_false,
            reduceCtorEq, false_or] at he
          simp only [sendMsg] at he
          split at he
          · simp at he
          · split at he <;> simp at he
        · simp at he
      · exact absurd he hexit
      · exact hw'
  | restart =>
      have hawaits := hawaits.seen (hpage rfl)
      simp only [handle, restart, hawaits, if_true]
      rw [Process.exec_append]
      simp [Worker.apply, withMem]

/-! ## The vote -/

theorem Awaits.apply (h : w.Awaits)
    (he : ∀ r, e = .log r → r.msgID = .prepareCommit ∨ r.msgID = .voteCommit) : (w.apply e).Awaits := by
  unfold Awaits at h ⊢
  rw [log_apply]
  split
  · rename_i r
    rcases he r rfl with hk | hk <;> simp [hk, awaitsDecision]
  · exact h

/-- Only `PREPARE_COMMIT` in the command loop makes the worker vote yes. -/
theorem prepare_of_vote {dst : SockAddr} (hacc : w.accepts inp) (hsend : .send dst m ∈ w.handle inp)
    (hvote : m.VotesFor t) :
    ∃ src p, inp = .manager src p ∧
      w.handle inp = w.receive src p ++ w.handlePrepareCommit src p := by
  rcases accounted_handle hsend with ⟨-, hno, -⟩ | ⟨src, p, rfl, hk, -, -, -⟩
  · exact absurd hvote.1 hno
  refine ⟨src, p, rfl, ?_⟩
  cases hcontrol : w.mem.control with
  | down => exact absurd hcontrol hacc
  | cmdLoop => simp only [handle, hcontrol, handleManagerMsg, hk]
  | waiting a =>
      simp only [handle, hcontrol, waitingForCoordResponse, hk, List.append_nil, List.mem_append,
        List.mem_singleton, reduceCtorEq, or_false] at hsend
      exact absurd (mem_receive hsend) (by simp [WorkerEffect.isInternal])

/-- From the `PREPARE_COMMIT` record on, the last record makes a restarted worker wait. -/
theorem awaits_throughout_vote :
    (voting t).Throughout (fun s => s.2 = true → s.1.Awaits) (w, false)
      (w.receive src m ++ w.handlePrepareCommit src m) := by
  have hreceive : (voting t).Throughout (fun s => s.2 = false) (w, false) (w.receive src m) := by
    refine Process.throughout_of_preserved rfl ?_
    rintro ⟨w', b'⟩ e he (rfl : b' = false)
    have hinternal := mem_receive he
    cases e <;> first | rfl | simp [WorkerEffect.isInternal] at hinternal
  refine Process.throughout_append.mpr ⟨hreceive.mono fun s hs hb => ?_, ?_⟩
  · rw [hs] at hb
    exact absurd hb (by decide)
  -- the first effect is the record, and the only other record is the vote
  obtain ⟨rest, hrest⟩ : ∃ rest, w.handlePrepareCommit src m =
      .log { msgID := .prepareCommit, tid := m.tid } :: rest := ⟨_, rfl⟩
  have hrecords : ∀ r, .log r ∈ w.handlePrepareCommit src m →
      r.msgID = .prepareCommit ∨ r.msgID = .voteCommit := by
    intro r hr
    simp only [handlePrepareCommit, List.mem_append, List.mem_cons, List.not_mem_nil, or_false,
      reduceCtorEq, WorkerEffect.log.injEq] at hr
    rcases hr with (((rfl | hr) | hr) | hr)
    · exact Or.inl rfl
    · split at hr <;> simp at hr
    · rcases mem_sendMsg hr with hr | hr
      · simp at hr
      · simp [WorkerEffect.isInternal] at hr
    · split at hr
      · simp at hr
      · simp only [List.mem_cons, WorkerEffect.log.injEq, reduceCtorEq, List.not_mem_nil, or_false] at hr
        exact Or.inr (by rw [hr])
  rw [hrest] at hrecords ⊢
  have hfirst := hreceive.last
  refine ⟨fun hb => absurd (hfirst.symm.trans hb) (by decide), ?_⟩
  refine (Process.throughout_of_preserved (I := fun s => s.1.Awaits) ?_ ?_).mono fun _ hs _ => hs
  · show (Worker.apply _ _).Awaits
    simp [Awaits, Worker.apply, awaitsDecision]
  · intro s e he hs
    exact hs.apply fun r hr => hrecords r (hr ▸ List.mem_cons_of_mem _ he)

/-- A vote that returns from `sendMsg` leads into the wait. -/
theorem control_of_vote (hexit : .exit ∉ w.receive src m ++ w.handlePrepareCommit src m) :
    (process.exec w (w.receive src m ++ w.handlePrepareCommit src m)).mem.control = .waiting src := by
  have hdelay : ¬ w.mem.delay < 0 := by
    intro hdelay
    exact hexit (by simp [handlePrepareCommit, hdelay, exit_mem_sendMsg])
  -- the last effects log the vote and enter the wait
  simp only [handlePrepareCommit, hdelay, if_false, ← List.append_assoc]
  rw [Process.exec_append]
  rfl

/-! ## Steps and runs -/

/-- The invariant: an uncertain worker is in the wait, or down and will enter it again. -/
def WaitsIfUncertain (s : Worker × Bool) : Prop :=
  s.2 = true → s.1.mem.control ≠ .cmdLoop ∧ s.1.Awaits

theorem step_voting_fst (t : Tid) (w : Worker) (b : Bool) (a : Act Input) :
    ((voting t).step (w, b) a).1 = process.step w a := exec_voting_fst t w b _

/-- A step of an uncertain worker. -/
theorem step_of_uncertain {a : Act Input} (h : WaitsIfUncertain (w, true)) (hacc : w.accepts a.input)
    (hundisturbed : Undisturbed t (w, true) a) :
    (∀ r, .log r ∈ process.performed w a → r.Decides t) ∧
      (((voting t).step (w, true) a).2 = true → (process.step w a).objData = w.objData ∧
        (process.step w a).mem.control ≠ .cmdLoop ∧ (process.step w a).Awaits) := by
  obtain ⟨hloop, hawaits⟩ := h rfl
  obtain ⟨hinput, hpage, hcrash⟩ := hundisturbed rfl
  have heffects : ∀ e ∈ process.performed w a, BlockedEffect t e := by
    intro e he
    rcases Process.mem_performed he with he | rfl
    · exact blocked_handle hloop hawaits hacc hinput hpage he
    · exact blockedEffect_of_isInternal rfl
  have hlogs : ∀ r, .log r ∈ process.performed w a → r.Decides t := fun r hr => (heffects _ hr).log
  refine ⟨hlogs, fun hstill => ?_⟩
  -- still uncertain: no decision was logged, so no write of a rollback was performed either
  have hnolog : ∀ r, .log r ∉ process.performed w a := by
    intro r hr
    have hcertain : ((voting t).step (w, true) a).2 = false :=
      certain_of_decision (fun dst m hm => (heffects _ hm).send) hlogs ⟨r, hr⟩
    rw [hstill] at hcertain
    exact absurd hcertain (by decide)
  have hquiet : ∀ e ∈ process.performed w a, e.isPlain ∧ ∀ r, e ≠ .log r := by
    intro e he
    have hne : ∀ r, e ≠ .log r := fun r hr => hnolog r (hr ▸ he)
    refine ⟨?_, hne⟩
    rcases heffects e he with ⟨r, rfl, -⟩ | hrestore | ⟨hplain, -⟩
    · exact absurd rfl (hne r)
    · obtain ⟨e', he', hlog⟩ := hcrash ⟨e, he, hrestore⟩
      cases e' with
      | log r => exact absurd he' (hnolog r)
      | _ => simp [WorkerEffect.isLog] at hlog
    · exact hplain
  refine ⟨objData_exec fun e he => (hquiet e he).1, ?_, ?_⟩
  · rcases step_cases w a with hmem | ⟨hcut, hexit⟩
    · rw [hmem]
      simp
    · have hperf : process.performed w a = w.handle a.input := by
        rw [Process.performed, hcut]
        rfl
      rw [Process.step, hperf]
      exact control_of_blocked hloop hawaits hacc hinput hpage hexit (hperf ▸ hnolog)
  · exact Process.exec_invariant (I := Awaits) hawaits fun w' e he hw' =>
      hw'.apply fun r hr => absurd hr ((hquiet e he).2 r)

/-- A step in which the worker may become uncertain. -/
theorem step_of_certain {a : Act Input} (hacc : w.accepts a.input) :
    WaitsIfUncertain ((voting t).step (w, false) a) := by
  by_cases hvote : ∃ dst m, .send dst m ∈ process.performed w a ∧ m.VotesFor t
  · obtain ⟨dst, m, hsend, hvote⟩ := hvote
    have hsend : .send dst m ∈ w.handle a.input := (Process.mem_performed hsend).resolve_right (by simp)
    -- a vote is sent on a `PREPARE_COMMIT` and nowhere else
    obtain ⟨src, p, hinput, hhandle⟩ := prepare_of_vote hacc hsend hvote
    have hmid : (voting t).Throughout (fun s => s.2 = true → s.1.Awaits) (w, false)
        ((voting t).handler (w, false) a.input) := by
      show (voting t).Throughout _ (w, false) (w.handle a.input)
      rw [hhandle]
      exact awaits_throughout_vote
    have hawaits := Process.step_invariant (J := fun s : Worker × Bool => s.2 = true → s.1.Awaits) hmid
      hmid.last fun s hs => hs
    refine fun hb => ⟨?_, hawaits hb⟩
    rw [step_voting_fst]
    -- the process dies while it votes, or goes on to wait
    rcases step_cases w a with hmem | ⟨hcut, hexit⟩
    · rw [hmem]
      simp
    · rw [Process.step, Process.performed, hcut]
      show (process.exec w (w.handle a.input)).mem.control ≠ .cmdLoop
      rw [hhandle] at hexit ⊢
      rw [control_of_vote hexit]
      simp
  · intro hb
    have hcertain : ((voting t).step (w, false) a).2 = false :=
      certain_of_no_vote fun dst m hm hv => hvote ⟨dst, m, hm, hv⟩
    rw [hb] at hcertain
    exact absurd hcertain (by decide)

/-- **The uncertain worker stays blocked** in every run in which, while it is uncertain about
    `t`, it is told nothing but decisions on `t`, no rollback is torn off and no restart reads
    past the page. -/
theorem uncertain_worker_blocked (t : Tid) (nodeId : NodeId) (sys_port : ℕ) (A B : ℤ)
    (IDstring : String) (now : Timeval) (as : List (Act Input))
    (hrun : (voting t).machine.Along (fun s a => s.1.accepts a.input ∧ Undisturbed t s a)
      (start nodeId sys_port A B IDstring now, false) as) :
    (voting t).machine.Along (Blocked t) (start nodeId sys_port A B IDstring now, false) as := by
  refine hrun.strengthen (I := WaitsIfUncertain) (fun hb => absurd hb Bool.false_ne_true) ?_ ?_
  · rintro ⟨w, b⟩ a h ⟨hacc, hundisturbed⟩
    cases b with
    | false => exact step_of_certain hacc
    | true =>
        intro hb
        have hstep := (step_of_uncertain h hacc hundisturbed).2 hb
        rw [Process.machine_next, step_voting_fst]
        exact hstep.2
  · rintro ⟨w, b⟩ a h ⟨hacc, hundisturbed⟩ (rfl : b = true)
    have hstep := step_of_uncertain h hacc hundisturbed
    refine ⟨?_, fun r hr habort => ?_, fun hb => (hstep.2 hb).1⟩
    · -- commands are only taken in the command loop
      intro c calls hinput
      rw [hinput] at hacc
      exact (h rfl).1 hacc
    · rcases (hstep.1 r hr).2 with hk | hk <;> simp [hk] at habort

/-- The worker votes, crashes, restarts, polls and is told to commit. -/
theorem uncertain_worker_blocked_restart :
    (voting 1).machine.Along (Blocked 1) (worker40, false)
      [deliver .joinSuccess 1, newA 7, deliver .prepareCommit 1, ⟨.pollTimeout, some 2⟩,
        ⟨.restart, none⟩, ⟨.pollTimeout, none⟩, deliver .decideCommit 1, newA 8] :=
  uncertain_worker_blocked 1 40 0 1 2 "id" 0 _ (by decide +kernel)

end Worker

end DistributedSystem.Transaction
