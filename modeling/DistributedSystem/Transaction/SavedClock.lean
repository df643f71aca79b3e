import DistributedSystem.Transaction.Causality
import DistributedSystem.Transaction.ClockMerge
import DistributedSystem.Transaction.VoteTimeout
import DistributedSystem.Transaction.WorkerSteps

/-!
# The clock at the head of the log

Whenever a process waits for an input, the clock it has saved should be the one in its
memory, so that a restart goes on where the process stood. A worker saves its first clock
before its first wait. The manager saves the clock it has before it sets it: until the first
message is handled, the head of its log holds no entry at all, and a crash before that
leaves it without an entry of its own.
-/

namespace DistributedSystem.Transaction

open DistributedSystem.Library

/-! ## Lists that end with the clock saved -/

variable {P : VClock → Prop} {live saved vc mine : VClock} {os os' : List Obs} {p : NodeId}
  {ph : Phase} {i : Fin maxNodes} {m : TxMessage} {c : Clock}

theorem settles_append_of_other (h : ∀ o ∈ os, o = .other) :
    Settles P live saved (os ++ os') ↔ Settles P live saved os' := by
  induction os with
  | nil => rfl
  | cons o os ih =>
      obtain rfl : o = .other := h o (by simp)
      exact ih fun o' ho' => h o' (List.mem_cons_of_mem _ ho')

theorem nodeId_tick (p : NodeId) (vc : VClock) (i : Fin maxNodes) :
    (tick p vc i).nodeId = (vc i).nodeId := by
  unfold tick updateMyVectorClock
  split
  · rename_i j _
    exact nodeId_setTime (j := j) _ i
  · rfl

/-- At the end the clock in memory is the one on disk. -/
theorem Settles.fst_eq_snd (h : Settles P live saved os) (hexit : .exit ∉ os) :
    (clocksAfter (live, saved) os).2 = (clocksAfter (live, saved) os).1 := by
  induction os generalizing live saved with
  | nil => exact h
  | cons o os ih =>
      have hrest : .exit ∉ os := fun hmem => hexit (List.mem_cons_of_mem _ hmem)
      cases o with
      | clock vc => exact ih h hrest
      | save => exact ih h.2 hrest
      | exit => exact absurd (by simp) hexit
      | event e => exact ih h hrest
      | send m => exact ih h hrest
      | other => exact ih h hrest

/-- Wherever the list is cut off, the clock on disk satisfies `P`. -/
theorem Settles.snd_take (h : Settles P live saved os) (hsaved : P saved) (k : ℕ) :
    P (clocksAfter (live, saved) (os.take k)).2 := by
  induction os generalizing live saved k with
  | nil => simpa [clocksAfter] using hsaved
  | cons o os ih =>
      cases k with
      | zero => exact hsaved
      | succ k =>
          cases o with
          | clock vc => exact ih h hsaved k
          | save => exact ih h.2 h.1 k
          | exit =>
              obtain rfl : os = [] := h
              simpa [clocksAfter] using hsaved
          | event e => exact ih h hsaved k
          | send m => exact ih h hsaved k
          | other => exact ih h hsaved k

/-- A list that settles does so on clocks that satisfy `Q`, if those it sets do. -/
theorem Settles.of_clocks {Q : VClock → Prop} (h : Settles P live saved os) (hlive : Q live)
    (hclocks : ∀ vc, .clock vc ∈ os → Q vc) : Settles Q live saved os := by
  induction os generalizing live saved with
  | nil => exact h
  | cons o os ih =>
      have hrest : ∀ vc, .clock vc ∈ os → Q vc := fun vc hmem =>
        hclocks vc (List.mem_cons_of_mem _ hmem)
      cases o with
      | clock vc => exact ih h (hclocks vc List.mem_cons_self) hrest
      | save => exact ⟨hlive, ih h.2 hlive hrest⟩
      | exit => exact h
      | event e => exact ih h hlive hrest
      | send m => exact ih h hlive hrest
      | other => exact ih h hlive hrest

/-! ## The own entry -/

/-- The first entry is the own one of node `n`. The id 0 marks an unused entry, so a node
    with that id has none. -/
def Owns (n : NodeId) (vc : VClock) : Prop := n ≠ 0 → (vc 0).nodeId = n

variable {n : NodeId}

/-- What a clock does not lose by ticks and merges. -/
structure Lasting (P : VClock → Prop) : Prop where
  tick : ∀ p vc, P vc → P (tick p vc)
  merge : ∀ m vc, P vc → P (mergeVectorClock vc m)

theorem lasting_owns (n : NodeId) : Lasting (Owns n) where
  tick p vc h hn := by
    rw [nodeId_tick]
    exact h hn
  merge m vc h hn := (mergeLoop_keeps vc _ (by rw [h hn]; exact hn)).1.trans (h hn)

theorem owns_startClock (n : NodeId) : Owns n (startClock n) := fun _ => rfl

/-- `vc` with one more tick of the entry that `n` has in front. -/
def advanced (n : NodeId) (vc : VClock) : VClock :=
  Function.update vc 0 ⟨n, ((vc 0).time + 1) % 2 ^ 32⟩

/-- `updateMyVectorClock` finds the own entry in front. -/
theorem updateMyVectorClock_own (h : (vc 0).nodeId = n) :
    updateMyVectorClock n vc = (0, advanced n vc) := by
  have hfirst : firstFin (fun i => (vc i).nodeId = n) = some 0 := by
    rw [firstFin_eq_some]
    exact ⟨by simpa using h, fun k hk => absurd hk (by simp)⟩
  simp only [updateMyVectorClock, hfirst, advanced, h]
  rfl

theorem tick_eq_advanced_iff : tick n vc = advanced n vc ↔ (vc 0).nodeId = n := by
  constructor
  · intro h
    rw [← nodeId_tick n vc 0, h, advanced, Function.update_self]
  · intro h
    rw [tick, updateMyVectorClock_own h]

/-! ## The worker -/

namespace Worker

variable {w : Worker} {src : SockAddr} {inp : Input} {a : Act Input}

/-- The clock with which a worker that is killed in its wait goes on: that of the first two
    statements of the restart branch of `main`. -/
def resumed (w : Worker) : VClock :=
  (process.exec (w.apply .exit) ((w.apply .exit).restart.take 2)).mem.myVectorClock

/-- The saved clock is the one in memory, and a restart goes on from it. -/
structure Persisted (w : Worker) : Prop where
  stored : w.crashInfo.vectorClock = w.mem.myVectorClock
  resumes : w.nodeId ≠ 0 → w.resumed = advanced w.nodeId w.mem.myVectorClock

/-- A vote with a delay below zero is followed by a crash that ticks the entry of the node id
    in the message, whatever that is. -/
theorem settles_prepareCommit (src : SockAddr) (hP : Lasting P) (h : P (w.receivedClock m)) :
    Settles P (w.receivedClock m) (w.receivedClock m)
      ((w.handlePrepareCommit src m).map WorkerEffect.obs) := by
  have hvote : ∀ o ∈ ((if w.voteFor m = .voteAbort then [WorkerEffect.vote none] else []).map
      WorkerEffect.obs), o = .other := by
    split <;> simp [WorkerEffect.obs]
  have htick := hP.tick w.nodeId _ h
  simp only [handlePrepareCommit, List.map_append, List.append_assoc]
  refine ⟨htick, ?_⟩
  show Settles _ _ _ (List.map _ (ite _ _ _) ++ _)
  rw [settles_append_of_other hvote]
  show Settles _ _ _ (List.map _ (sendMsg _ _ _ _) ++ _)
  by_cases hdelay : w.mem.delay < 0
  · have hcrash := hP.tick m.nodeId _ htick
    rw [if_pos hdelay, List.map_nil, List.append_nil]
    simp only [sendMsg, if_pos hdelay]
    split
    · exact ⟨hcrash, rfl⟩
    · exact ⟨hcrash, rfl⟩
  · rw [sendMsg_of_not_neg hdelay, if_neg hdelay]
    exact rfl

theorem settles_manager (hP : Lasting P) (h : P w.mem.myVectorClock) (saved : VClock) :
    Settles P w.mem.myVectorClock saved ((w.handle (.manager src m)).map WorkerEffect.obs) := by
  have hreceived : P (w.receivedClock m) := hP.tick _ _ (hP.merge m _ h)
  by_cases hk : m.msgID = .prepareCommit
  · simp only [handle]
    split
    · -- a request that comes while the worker waits for a decision ends the wait
      simp only [waitingForCoordResponse, hk]
      exact ⟨hreceived, rfl⟩
    · simp only [handleManagerMsg, hk, List.map_append]
      have hrest := settles_prepareCommit src hP hreceived
      exact ⟨hreceived, hrest⟩
  · obtain ⟨os, hobs, hd⟩ := disciplined_manager w src fun hprepare => absurd hprepare hk
    have hrest := hd.settles (hP.tick _) hreceived
    rw [hobs]
    exact ⟨hreceived, hrest⟩

/-- Every handler saves the clock it ends with. -/
theorem settles_handle (hP : Lasting P) (hacc : w.accepts inp) (hsaved : P w.crashInfo.vectorClock)
    (hlive : w.mem.control ≠ .down → w.crashInfo.vectorClock = w.mem.myVectorClock) :
    Settles P w.mem.myVectorClock w.crashInfo.vectorClock
      ((w.handle inp).map WorkerEffect.obs) := by
  cases inp with
  | cmd c calls =>
      have hup : w.mem.control ≠ .down := by
        rw [hacc]
        simp
      rw [hlive hup] at hsaved ⊢
      exact (disciplined_cmd w c calls).settles (hP.tick _) hsaved
  | manager src m => exact settles_manager hP (hlive hacc ▸ hsaved) _
  | pollTimeout =>
      rw [hlive hacc.1] at hsaved ⊢
      simp only [handle]
      split
      · exact (disciplined_poll w _).settles (hP.tick _) hsaved
      · exact rfl
  | restart =>
      obtain ⟨os, hobs, hd⟩ := disciplined_restart w
      have hrest := hd.settles (hP.tick _) hsaved
      simp only [handle, hobs]
      exact hrest

/-- The saved clock satisfies `P`, and is the clock in memory while the worker waits. -/
structure Saved (P : VClock → Prop) (w : Worker) : Prop where
  clock : P w.crashInfo.vectorClock
  live : w.mem.control ≠ .down → w.crashInfo.vectorClock = w.mem.myVectorClock

/-- A handler that settles leaves its clock on disk. -/
theorem saved_step (hsettles : Settles P w.mem.myVectorClock w.crashInfo.vectorClock
    ((w.handle a.input).map WorkerEffect.obs)) (hsaved : P w.crashInfo.vectorClock) :
    (process.step w a).Saved P := by
  obtain ⟨inp, cut⟩ := a
  refine ⟨?_, fun hup => ?_⟩
  · -- on disk there is a clock of the handler, also when it is cut off
    cases cut with
    | none =>
        have hend := hsettles.snd_take hsaved ((w.handle inp).map WorkerEffect.obs).length
        rw [List.take_length, ← clocks_exec] at hend
        exact hend
    | some k =>
        have hend := hsettles.snd_take hsaved k
        rw [← List.map_take, ← clocks_exec] at hend
        simp only [Process.step, Process.performed, Process.exec_append]
        exact hend
  · rcases step_cases w ⟨inp, cut⟩ with hdead | ⟨rfl, hexit⟩
    · rw [hdead] at hup
      exact absurd rfl hup
    · have hobs : .exit ∉ (w.handle inp).map WorkerEffect.obs := by
        intro hmem
        obtain ⟨e, he, hexit'⟩ := List.mem_map.mp hmem
        cases e <;> first | exact hexit he | cases hexit'
      have hend := hsettles.fst_eq_snd hobs
      rw [← clocks_exec] at hend
      exact hend

theorem Saved.step (hP : Lasting P) (h : w.Saved P) (hacc : w.accepts a.input) :
    (process.step w a).Saved P := saved_step (settles_handle hP hacc h.clock h.live) h.clock

theorem saved_start (nodeId : NodeId) (sys_port : ℕ) (A B : ℤ) (IDstring : String) (now : Timeval) :
    (start nodeId sys_port A B IDstring now).Saved (Owns nodeId) :=
  ⟨owns_startClock nodeId, fun _ => rfl⟩

theorem nodeId_after (w : Worker) (as : List (Act Input)) :
    (process.machine.after w as).nodeId = w.nodeId := by
  induction as generalizing w with
  | nil => rfl
  | cons a as ih => exact (ih _).trans (nodeId_exec w _)

theorem Saved.persisted (h : w.Saved (Owns w.nodeId)) (hup : w.mem.control ≠ .down) : w.Persisted where
  stored := h.live hup
  resumes hn := by
    have hresumed : w.resumed = tick w.nodeId w.crashInfo.vectorClock := rfl
    rw [hresumed, h.live hup]
    exact tick_eq_advanced_iff.mpr (h.live hup ▸ h.clock hn)

end Worker

/-! ## The manager -/

namespace Manager

variable {s : Manager} {src : SockAddr} {u : Uninit} {inp : Input} {a : Act Input}
  {as : List (Act Input)} {port : NodeId}

/-- The clock with which a manager that is killed in its wait goes on: that of the first two
    statements of the restart branch of `main`. -/
def resumed (s : Manager) : VClock :=
  (process.exec (s.apply .exit) ((s.apply .exit).restart.take 2)).mem.myVectorClock

/-- The saved clock is the one in memory, and a restart goes on from it. -/
structure Persisted (s : Manager) : Prop where
  stored : s.vectorClock = s.mem.myVectorClock
  resumes : s.port ≠ 0 → s.resumed = advanced s.port s.mem.myVectorClock

/-- The message of an action that is handled at least as far as its first `saveVectorTime`,
    the third effect. -/
def savedMessage : Act Input → Option TxMessage
  | ⟨.message _ m _, none⟩ => some m
  | ⟨.message _ m _, some k⟩ => if 3 ≤ k then some m else none
  | _ => none

/-- The id in the first entry of the first saved message whose clock has an entry there; 0
    when there is none. -/
def firstEntry (as : List (Act Input)) : NodeId :=
  (((as.filterMap savedMessage).map fun m => (m.vectorClock 0).nodeId).find? (· ≠ 0)).getD 0

/-- What has to come after the timeouts with which a run begins: a message that is handled as
    far as its first save. A manager that dies before has lost its entry, and gets it back
    only from a message that has it in front. -/
def Anchored (port : NodeId) (as : List (Act Input)) : Prop :=
  match as.dropWhile (· = ⟨.timeout, none⟩) with
  | [] => False
  | a :: as => port = 0 ∨ (savedMessage a).isSome ∨ firstEntry as = port

/-- The first entry of the saved clock is that of `n`, or unused when `n` is 0, and the clock
    is the one in memory while the manager waits. -/
structure Saved (n : NodeId) (s : Manager) : Prop where
  first : (s.vectorClock 0).nodeId = n
  live : s.mem.up = true → s.vectorClock = s.mem.myVectorClock

/-- A message fills the first entry when it is unused. -/
theorem nodeId_receivedClock (s : Manager) (m : TxMessage) :
    (s.receivedClock m 0).nodeId =
      if (s.mem.myVectorClock 0).nodeId = 0 then (m.vectorClock 0).nodeId
      else (s.mem.myVectorClock 0).nodeId := by
  unfold receivedClock mergeVectorClock
  rw [← nodeId_tick s.port s.mem.myVectorClock 0]
  generalize tick s.port s.mem.myVectorClock = vc
  split
  · rename_i hfree
    rw [List.ofFn_succ]
    unfold mergeLoop
    split
    · rename_i hunused
      exact hfree.trans hunused.symm
    · rename_i hused
      -- the first entry that is free for it is the one in front
      have hfirst : firstFin (fun j => (m.vectorClock 0).nodeId = (vc j).nodeId ∨
          (vc j).nodeId = 0) = some 0 := by
        rw [firstFin_eq_some]
        exact ⟨by simp [hfree], fun k hk => absurd hk (by simp)⟩
      have hentry : mergeEntry vc (m.vectorClock 0) = Function.update vc 0 (m.vectorClock 0) := by
        simp only [mergeEntry, hfirst]
        rw [if_neg (by rw [hfree]; exact hused)]
      rw [hentry, (mergeLoop_keeps _ _ (by simpa using hused)).1, Function.update_self]
  · rename_i hused
    exact (mergeLoop_keeps _ _ hused).1

/-- The clock in memory at the end of a handler is on disk, unless the manager is down. -/
theorem live_of_settles {P : VClock → Prop} (os' : List Obs)
    (h : Settles P live saved os) (hobs : (s.handle a.input).map ManagerEffect.obs = os' ++ os)
    (hpre : clocksAfter (s.mem.myVectorClock, s.vectorClock) (os' ++ os) =
      clocksAfter (live, saved) os) (hup : (process.step s a).mem.up = true) :
    (process.step s a).vectorClock = (process.step s a).mem.myVectorClock := by
  obtain ⟨inp, cut⟩ := a
  obtain rfl : cut = none := cut_eq_none hup
  have hexit : .exit ∉ os := by
    intro hexit
    obtain ⟨init, rfl⟩ := h.exit_last hexit
    have hdown := down_of_exit_last (s := s) (hobs.trans (List.append_assoc os' init [.exit]).symm)
    exact absurd (hup.symm.trans hdown) (by simp)
  have hend := h.fst_eq_snd hexit
  rw [← hpre, ← hobs, ← clocks_exec] at hend
  exact hend

/-- What is on disk after an action, cut off or not. -/
theorem vectorClock_step (s : Manager) (inp : Input) (cut : Option ℕ) :
    (process.step s ⟨inp, cut⟩).vectorClock = (clocksAfter (s.mem.myVectorClock, s.vectorClock)
      (match cut with
        | none => (s.handle inp).map ManagerEffect.obs
        | some k => ((s.handle inp).map ManagerEffect.obs).take k)).2 := by
  cases cut with
  | none =>
      rw [← clocks_exec]
      rfl
  | some k =>
      show _ = (clocksAfter _ (((s.handle inp).map ManagerEffect.obs).take k)).2
      rw [← List.map_take, ← clocks_exec]
      simp only [Process.step, Process.performed, Process.exec_append]
      rfl

/-- A list that settles after `os'` leaves a clock with `P` on disk, wherever it is cut off
    behind `os'`. -/
theorem vectorClock_of_settles {P : VClock → Prop} {cut : Option ℕ} (os' : List Obs)
    (h : Settles P live saved os) (hsaved : P saved)
    (hobs : (s.handle inp).map ManagerEffect.obs = os' ++ os)
    (hpre : ∀ os, clocksAfter (s.mem.myVectorClock, s.vectorClock) (os' ++ os) =
      clocksAfter (live, saved) os) (hcut : ∀ k, cut = some k → os'.length ≤ k) :
    P (process.step s ⟨inp, cut⟩).vectorClock := by
  rw [vectorClock_step, hobs]
  cases cut with
  | none =>
      have hend := h.snd_take hsaved os.length
      rw [List.take_length, ← hpre] at hend
      exact hend
  | some k =>
      have hend := h.snd_take hsaved (k - os'.length)
      rw [← hpre, ← List.take_length_add_append, Nat.add_sub_cancel' (hcut k rfl)] at hend
      exact hend

theorem firstEntry_cons :
    firstEntry (a :: as) = if firstEntry [a] = 0 then firstEntry as else firstEntry [a] := by
  cases hsaved : savedMessage a with
  | none => simp [firstEntry, hsaved]
  | some m =>
      by_cases hid : (m.vectorClock 0).nodeId = 0 <;> simp [firstEntry, hsaved, hid]

theorem firstEntry_singleton :
    firstEntry [a] = ((savedMessage a).map fun m => (m.vectorClock 0).nodeId).getD 0 := by
  cases hsaved : savedMessage a with
  | none => simp [firstEntry, hsaved]
  | some m =>
      by_cases hid : (m.vectorClock 0).nodeId = 0 <;> simp [firstEntry, hsaved, hid]

/-- A message decides about the first entry on disk when it is handled as far as its first
    save; at its end the clock is on disk. -/
theorem message_step (s : Manager) (src : SockAddr) (m : TxMessage) (u : Uninit) (cut : Option ℕ) :
    (savedMessage ⟨.message src m u, cut⟩ = some m ∧
          ((process.step s ⟨.message src m u, cut⟩).vectorClock 0).nodeId =
            (s.receivedClock m 0).nodeId ∨
        savedMessage ⟨.message src m u, cut⟩ = none ∧
          (process.step s ⟨.message src m u, cut⟩).vectorClock = s.vectorClock) ∧
      ((process.step s ⟨.message src m u, cut⟩).mem.up = true →
        (process.step s ⟨.message src m u, cut⟩).vectorClock =
          (process.step s ⟨.message src m u, cut⟩).mem.myVectorClock) := by
  obtain ⟨os, hobs, hd⟩ := disciplined_message s src m u
  change (s.handle (.message src m u)).map ManagerEffect.obs = _ at hobs
  have hsettles : Settles (fun vc => (vc 0).nodeId = (s.receivedClock m 0).nodeId)
      (s.receivedClock m) (s.receivedClock m) os :=
    hd.settles (fun vc hvc => (nodeId_tick _ vc 0).trans hvc) rfl
  refine ⟨?_, live_of_settles (a := ⟨.message src m u, cut⟩) _ hsettles hobs rfl⟩
  have hsaved : (∀ k, cut = some k → 3 ≤ k) →
      ((process.step s ⟨.message src m u, cut⟩).vectorClock 0).nodeId =
        (s.receivedClock m 0).nodeId := by
    intro hcut
    have hlogged : Settles (fun vc => (vc 0).nodeId = (s.receivedClock m 0).nodeId)
        (s.receivedClock m) (s.receivedClock m)
        (.event (.message m.msgID m.tid false m.nodeId) :: os) := hsettles
    exact vectorClock_of_settles [.clock _, .clock _, .save] hlogged rfl hobs (fun _ => rfl) hcut
  cases cut with
  | none => exact Or.inl ⟨rfl, hsaved fun k hk => by simp at hk⟩
  | some k =>
      by_cases hk : 3 ≤ k
      · exact Or.inl ⟨if_pos hk, hsaved fun j hj => by simpa [← Option.some.inj hj] using hk⟩
      · -- the process dies on the first two clocks, before it saves one of them
        refine Or.inr ⟨if_neg hk, ?_⟩
        rw [vectorClock_step, hobs]
        obtain rfl | rfl | rfl : k = 0 ∨ k = 1 ∨ k = 2 := by omega
        all_goals rfl

/-- One action of a manager that has saved a clock: the first entry is filled by a message,
    and only when it is unused. -/
theorem Saved.step {n : NodeId} (h : s.Saved n) (hacc : s.accepts a.input) :
    (process.step s a).Saved (if n = 0 then firstEntry [a] else n) := by
  obtain ⟨inp, cut⟩ := a
  have hP : ∀ p vc, (vc 0).nodeId = n → (tick p vc 0).nodeId = n :=
    fun p vc hvc => (nodeId_tick p vc 0).trans hvc
  have hn : (if n = 0 then (Option.none.map fun m : TxMessage => (m.vectorClock 0).nodeId).getD 0
      else n) = n := by
    by_cases h0 : n = 0 <;> simp [h0]
  cases inp with
  | message src m u =>
      obtain ⟨hfirst, hlive⟩ := message_step s src m u cut
      refine ⟨?_, hlive⟩
      rw [firstEntry_singleton]
      rcases hfirst with ⟨hsaved, hfirst⟩ | ⟨hlost, hkept⟩
      · rw [hsaved, hfirst, nodeId_receivedClock, ← h.live hacc, h.first]
        rfl
      · rw [hlost, hkept, h.first, hn]
  | timeout =>
      have hfirst : (s.mem.myVectorClock 0).nodeId = n := h.live hacc ▸ h.first
      have hsettles := (disciplined_voteTimeout s).settles (hP s.port) hfirst
      have hpre : ∀ os, clocksAfter (s.mem.myVectorClock, s.vectorClock) ([] ++ os) =
          clocksAfter (s.mem.myVectorClock, s.mem.myVectorClock) os := by
        intro os
        rw [h.live hacc]
        rfl
      rw [firstEntry_singleton, show savedMessage ⟨.timeout, cut⟩ = none by cases cut <;> rfl, hn]
      exact ⟨vectorClock_of_settles [] hsettles hfirst rfl hpre fun k _ => Nat.zero_le k,
        live_of_settles [] hsettles rfl (hpre _)⟩
  | restart =>
      obtain ⟨os, hobs, hd⟩ := disciplined_restart s
      have hrest := hd.settles (hP s.port) h.first
      have hsettles : Settles (fun vc => (vc 0).nodeId = n) s.mem.myVectorClock s.vectorClock
          (.clock s.vectorClock :: os) := hrest
      rw [firstEntry_singleton, show savedMessage ⟨.restart, cut⟩ = none by cases cut <;> rfl, hn]
      exact ⟨vectorClock_of_settles [] hsettles h.first hobs (fun _ => rfl)
          fun k _ => Nat.zero_le k,
        live_of_settles (a := ⟨.restart, cut⟩) [] hsettles hobs rfl⟩

theorem Saved.run {n : NodeId} (h : s.Saved n) (hrun : process.machine.Along process.machine.enabled s as) :
    (process.machine.after s as).Saved (if n = 0 then firstEntry as else n) := by
  induction as generalizing s n with
  | nil =>
      by_cases hn : n = 0
      · simpa [hn, firstEntry] using h
      · simpa [hn] using h
  | cons a as ih =>
      have hrest := ih (h.step hrun.1) hrun.2
      rw [firstEntry_cons]
      by_cases hn : n = 0
      · simpa [hn] using hrest
      · simpa [hn] using hrest

theorem Saved.persisted_iff {n : NodeId} (h : s.Saved n) (hup : s.mem.up = true) :
    s.Persisted ↔ s.port = 0 ∨ n = s.port := by
  have hresumed : s.resumed = tick s.port s.vectorClock := rfl
  constructor
  · intro hpersisted
    by_cases hport : s.port = 0
    · exact Or.inl hport
    · have hresumes := hpersisted.resumes hport
      rw [hresumed, ← h.live hup] at hresumes
      exact Or.inr (h.first.symm.trans (tick_eq_advanced_iff.mp hresumes))
  · intro hn
    refine ⟨h.live hup, fun hport => ?_⟩
    rw [hresumed, ← h.live hup]
    exact tick_eq_advanced_iff.mpr (h.first.trans (hn.resolve_left hport))

/-! ### Up to the first save -/

theorem port_step (s : Manager) (a : Act Input) : (process.step s a).port = s.port := port_exec s _

theorem port_after (s : Manager) (as : List (Act Input)) :
    (process.machine.after s as).port = s.port := by
  induction as generalizing s with
  | nil => rfl
  | cons a as ih => exact (ih _).trans (port_step s a)

/-- No transaction waits for votes before the first message. -/
theorem voteTimeout_start (port : NodeId) : (start port).voteTimeout = [] := by
  have hnone : waitingForVotes (start port).workerInfo (start port).log = none :=
    waitingForVotes_eq_none.mpr fun i => by simp [start, Requested, not_unanswered_nil]
  rw [voteTimeout, hnone]

/-- The timeouts with which a run begins change nothing. -/
theorem after_dropWhile (port : NodeId) (as : List (Act Input)) :
    process.machine.after (start port) (as.dropWhile (· = ⟨.timeout, none⟩)) =
        process.machine.after (start port) as ∧
      (process.machine.Along process.machine.enabled (start port) as →
        process.machine.Along process.machine.enabled (start port)
          (as.dropWhile (· = ⟨.timeout, none⟩))) := by
  induction as with
  | nil => exact ⟨rfl, id⟩
  | cons a as ih =>
      by_cases ha : a = ⟨.timeout, none⟩
      · have hstep : process.step (start port) a = start port := by
          rw [ha]
          show process.exec (start port) (start port).voteTimeout = start port
          rw [voteTimeout_start]
          rfl
        rw [List.dropWhile_cons_of_pos (by simpa using ha), Machine.after_cons,
          Process.machine_next, hstep]
        refine ⟨ih.1, fun hrun => ih.2 ?_⟩
        have hrest := hrun.2
        rwa [Process.machine_next, hstep] at hrest
      · rw [List.dropWhile_cons_of_neg (by simpa using ha)]
        exact ⟨rfl, id⟩

/-- The first action that is more than a timeout saves the own entry or loses it. -/
theorem saved_first (hacc : (start port).accepts a.input) (ha : a ≠ ⟨.timeout, none⟩) :
    (process.step (start port) a).Saved
      (if (savedMessage a).isSome then (if port = 0 then firstEntry [a] else port) else 0) := by
  obtain ⟨inp, cut⟩ := a
  cases inp with
  | message src m u =>
      obtain ⟨hfirst, hlive⟩ := message_step (start port) src m u cut
      refine ⟨?_, hlive⟩
      rw [firstEntry_singleton]
      rcases hfirst with ⟨hsaved, hfirst⟩ | ⟨hlost, hkept⟩
      · rw [hsaved, hfirst, nodeId_receivedClock]
        rfl
      · rw [hlost, hkept]
        rfl
  | timeout =>
      cases cut with
      | none => exact absurd rfl ha
      | some k =>
          -- the saved clock is the empty one it was
          have hstep : process.step (start port) ⟨.timeout, some k⟩ = (start port).apply .exit := by
            show process.exec (start port) ((start port).voteTimeout.take k ++ [.exit]) = _
            rw [voteTimeout_start, List.take_nil]
            rfl
          rw [hstep]
          exact ⟨rfl, fun hup => absurd hup (by simp [apply])⟩
  | restart => exact absurd hacc (by simp [accepts, start])

theorem persisted_iff_anchored
    (hrun : process.machine.Along process.machine.enabled (start port) as)
    (hup : (process.machine.after (start port) as).mem.up = true) :
    (process.machine.after (start port) as).Persisted ↔ Anchored port as := by
  obtain ⟨hafter, hdrop⟩ := after_dropWhile port as
  have hrest := hdrop hrun
  rw [← hafter] at hup ⊢
  unfold Anchored
  have hhead : ∀ a as', as.dropWhile (· = ⟨.timeout, none⟩) = a :: as' → a ≠ ⟨.timeout, none⟩ := by
    intro a as' heq
    have hnot := List.head_dropWhile_not (fun a : Act Input => decide (a = ⟨.timeout, none⟩))
      (l := as) (by rw [heq]; simp)
    simpa [heq] using hnot
  generalize as.dropWhile (· = ⟨.timeout, none⟩) = rest at hup hrest hhead ⊢
  cases rest with
  | nil =>
      -- the clock on disk is still the empty one
      refine iff_of_false (fun hpersisted => ?_) id
      have htime : (0 : ℕ) = 1 := congrArg Clock.time (congrFun hpersisted.stored 0)
      exact absurd htime (by decide)
  | cons a rest =>
      have hsaved := (saved_first hrest.1 (hhead a rest rfl)).run hrest.2
      rw [Machine.after_cons] at hup ⊢
      rw [Process.machine_next] at hup ⊢
      rw [hsaved.persisted_iff hup, port_after, port_step]
      show port = 0 ∨ _ = port ↔ port = 0 ∨ _
      by_cases hport : port = 0
      · simp [hport]
      · by_cases hkept : (savedMessage a).isSome = true <;> simp [hport, hkept]

end Manager

/-- **The saved clock is the live one** in every wait of a worker, and in the waits of a
    manager that has handled its first message as far as the first save. -/
theorem clock_persisted_iff (nodeId : NodeId) (sys_port : ℕ) (A B : ℤ) (IDstring : String)
    (now : Timeval) (as : List (Act Worker.Input)) (port : NodeId) (bs : List (Act Manager.Input)) :
    (let w := Worker.start nodeId sys_port A B IDstring now
     Worker.process.machine.Along Worker.process.machine.enabled w as →
      (Worker.process.machine.after w as).mem.control ≠ .down →
      (Worker.process.machine.after w as).Persisted) ∧
    (Manager.process.machine.Along Manager.process.machine.enabled (Manager.start port) bs →
      (Manager.process.machine.after (Manager.start port) bs).mem.up = true →
      ((Manager.process.machine.after (Manager.start port) bs).Persisted ↔
        Manager.Anchored port bs)) := by
  refine ⟨fun hrun hup => ?_, fun hrun hup => Manager.persisted_iff_anchored hrun hup⟩
  refine Worker.Saved.persisted ?_ hup
  have hsaved := hrun.invariant (Worker.saved_start nodeId sys_port A B IDstring now)
    fun w a h hacc => h.step (lasting_owns nodeId) hacc
  rw [Worker.nodeId_after]
  exact hsaved

/-- A `BEGIN`, a crash in the wait after it, and a restart. -/
def restartedManager : List (Act Manager.Input) :=
  [⟨.timeout, none⟩, ⟨.message ⟨1, 40⟩ (Worker.managerMsg .begintx 1) {}, none⟩,
    ⟨.timeout, some 0⟩, ⟨.restart, none⟩]

theorem clock_persisted_iff_restarted :
    (Manager.process.machine.after (Manager.start 7) restartedManager).Persisted :=
  ((clock_persisted_iff 1 0 0 0 "" 0 [] 7 restartedManager).2 (by decide +kernel)
    (by decide +kernel)).mpr (Or.inr (Or.inl rfl))

/-- In its first wait the manager has saved the clock it had before it set it. -/
theorem not_clock_persisted :
    ¬ ∀ (port : NodeId) (as : List (Act Manager.Input)),
      Manager.process.machine.Along Manager.process.machine.enabled (Manager.start port) as →
      (Manager.process.machine.after (Manager.start port) as).mem.up = true →
      (Manager.process.machine.after (Manager.start port) as).vectorClock =
        (Manager.process.machine.after (Manager.start port) as).mem.myVectorClock := by
  intro h
  have htime : (0 : ℕ) = 1 := congrArg Clock.time (congrFun (h 7 [] trivial rfl) 0)
  exact absurd htime (by decide)

end DistributedSystem.Transaction
