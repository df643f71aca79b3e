import DistributedSystem.Transaction.FailedJoin
import DistributedSystem.Transaction.SavedClock

/-!
# The clock of the object

The object carries a vector clock of its own. `NEW_A` and `NEW_B` stamp the worker's own entry
of it with the clock of the event, `NEW_IDSTR` does not, and a crash can come between the
write of a field and the stamp. A rollback puts back the clock of the join record at which
the walk over the log ends.
-/

namespace DistributedSystem.Transaction

open DistributedSystem.Library

/-- The writes of the update commands. -/
def WorkerEffect.isUpdate : WorkerEffect → Bool
  | .updateA _ | .updateB _ | .updateID _ => true
  | _ => false

/-- The writes of the object's clock. -/
def WorkerEffect.isStamp : WorkerEffect → Bool
  | .objClock _ | .restoreClock _ _ => true
  | _ => false

/-- The time of the own entry, which stands in front. -/
def ownTime (vc : VClock) : ℕ := (vc 0).time

/-- With the own entry in front a tick counts there. -/
theorem ownTime_tick {p : NodeId} {vc : VClock} (hown : (vc 0).nodeId = p) :
    ownTime (tick p vc) = (ownTime vc + 1) % 2 ^ 32 := by
  rw [tick_eq_advanced_iff.mpr hown]
  simp [ownTime, advanced]

/-- The clock that an effect sets. -/
def WorkerEffect.newClock : WorkerEffect → Option VClock
  | .clock vc => some vc
  | _ => none

namespace Worker

variable {w : Worker} {e : WorkerEffect} {es : List WorkerEffect} {inp : Input} {a : Act Input}
  {as : List (Act Input)} {c : MsgType} {calls : CmdCalls} {now : Timeval} {undo : Record}
  {write : WorkerEffect} {stamp : Bool} {n : NodeId} {b : ℕ}

/-! ## Updates -/

/-- The handler of an update command. -/
theorem handle_update (hc : c.msgID.isUpdate) (calls : CmdCalls) :
    ∃ undo write, w.UpdatePair undo write ∧
      w.handle (.cmd c calls) =
        w.updateObject undo write (c.msgID ≠ .newIdStr) calls.gettimeofday := by
  cases hk : c.msgID with
  | newA =>
      refine ⟨_, _, .newA c.newValue, ?_⟩
      simp only [handle, handleCmdMsg, hk]
      rfl
  | newB =>
      refine ⟨_, _, .newB c.newValue, ?_⟩
      simp only [handle, handleCmdMsg, hk]
      rfl
  | newIdStr =>
      refine ⟨_, _, .newIdStr c.strData, ?_⟩
      simp only [handle, handleCmdMsg, hk]
      rfl
  | _ => simp [hk, MsgId.isUpdate] at hc

/-- A command that updates the object. -/
def IsUpdate : Input → Prop
  | .cmd c _ => c.msgID.isUpdate = true
  | _ => False

/-- The other handlers leave the object alone, or roll it back. -/
theorem quiet_handle (hacc : w.accepts inp) (hno : ¬ IsUpdate inp) (he : e ∈ w.handle inp) :
    e.isPlain ∨ e ∈ w.rollback (w.rollbackTid inp) := by
  cases shape_handle hacc with
  | plain _ hplain => exact Or.inl (hplain e he)
  | rollback pre post _ heq hpre hpost =>
      rw [heq] at he
      rcases List.mem_append.mp he with he | he
      · rcases List.mem_append.mp he with he | he
        · exact Or.inl (hpre e he).1
        · exact Or.inr he
      · exact Or.inl (hpost e he)
  | update c calls undo write stamp hinp hkind hpair _ =>
      refine absurd ?_ hno
      rw [hinp]
      show c.msgID.isUpdate = true
      rw [hkind]
      cases hpair <;> rfl

/-! ## The last modification -/

/-- An update of the object is performed, at least as far as its write. -/
def Writes (w : Worker) (a : Act Input) : Bool :=
  (process.performed w a).any WorkerEffect.isUpdate

/-- Some part of a rollback is performed. -/
def Restores (w : Worker) (a : Act Input) : Bool :=
  (process.performed w a).any WorkerEffect.isRestore

/-- The worker's own clock at the event that last modified the object; a rollback leaves
    none. -/
def lastModified (w : Worker) (a : Act Input) (g : Option ℕ) : Option ℕ :=
  if w.Writes a then some (ownTime (tick w.nodeId w.mem.myVectorClock))
  else if w.Restores a then none
  else g

/-- The worker with the clock of the last modification. -/
def modified : Machine (Worker × Option ℕ) (Act Input) := process.machine.watch lastModified

/-- The own entry of the object's clock is that of the last modification. -/
def Tracks (x : Worker × Option ℕ) : Prop := ∀ v, x.2 = some v → ownTime x.1.objData.vectorClock = v

/-- The update commands that write and stamp: not `NEW_IDSTR`, and not cut off between the
    undo record and the end. -/
def Stamps (w : Worker) (a : Act Input) : Prop :=
  match a.input with
  | .cmd c _ => c.msgID.isUpdate = true →
      (∃ k ∈ a.cut, k ≤ if w.mem.isTXRun then 1 else 0) ∨
        c.msgID ≠ .newIdStr ∧ ∀ k ∈ a.cut, (if w.mem.isTXRun then 1 else 0) + 6 ≤ k
  | _ => True

instance (w : Worker) : ∀ a, Decidable (w.Stamps a)
  | ⟨.cmd _ _, _⟩ => inferInstanceAs (Decidable (_ → _ ∨ _ ∧ _))
  | ⟨.manager _ _, _⟩ | ⟨.pollTimeout, _⟩ | ⟨.restart, _⟩ => isTrue trivial

/-- No clock that the handler sets is behind the saved one in the own entry: the own time does
    not wrap. -/
def Unwrapped (w : Worker) (a : Act Input) : Prop :=
  ∀ vc ∈ (w.handle a.input).filterMap WorkerEffect.newClock,
    ownTime w.crashInfo.vectorClock ≤ ownTime vc

instance (w : Worker) (a : Act Input) : Decidable (w.Unwrapped a) :=
  inferInstanceAs (Decidable (∀ vc ∈ _, _))

/-- Then the saved own time does not go back. -/
theorem Unwrapped.saved_le (h : w.Unwrapped a) (hacc : w.accepts a.input)
    (hlive : w.mem.control ≠ .down → w.crashInfo.vectorClock = w.mem.myVectorClock) :
    ownTime w.crashInfo.vectorClock ≤ ownTime (process.step w a).crashInfo.vectorClock := by
  have hclocks : ∀ vc, .clock vc ∈ (w.handle a.input).map WorkerEffect.obs →
      ownTime w.crashInfo.vectorClock ≤ ownTime vc := by
    intro vc hmem
    obtain ⟨e, he, hobs⟩ := List.mem_map.mp hmem
    refine h vc (List.mem_filterMap.mpr ⟨e, he, ?_⟩)
    cases e <;> first | exact congrArg some (Obs.clock.inj hobs) | cases hobs
  have hsettles := settles_handle (P := fun _ => True) ⟨fun _ _ _ => trivial, fun _ _ _ => trivial⟩
    hacc trivial hlive
  refine (saved_step (P := fun vc => ownTime w.crashInfo.vectorClock ≤ ownTime vc) ?_ le_rfl).clock
  by_cases hup : w.mem.control = .down
  · -- only a restart is accepted, and it reads the saved clock first
    have hrestart : a.input = .restart := by
      cases hinp : a.input <;> rw [hinp] at hacc <;> simp_all [accepts]
    obtain ⟨os, hobs, -⟩ := disciplined_restart w
    have hlist : (w.handle a.input).map WorkerEffect.obs = .clock w.crashInfo.vectorClock :: os := by
      rw [hrestart]
      exact hobs
    rw [hlist] at hsettles hclocks ⊢
    have hread : Settles (fun _ => True) w.crashInfo.vectorClock w.crashInfo.vectorClock os := hsettles
    exact hread.of_clocks le_rfl fun vc hmem => hclocks vc (List.mem_cons_of_mem _ hmem)
  · refine hsettles.of_clocks ?_ hclocks
    rw [hlive hup]

/-- No own entry of the object or of a join record is ahead of `b`. -/
structure Bounded (b : ℕ) (w : Worker) : Prop where
  object : ownTime w.objData.vectorClock ≤ b
  joins : ∀ r ∈ w.log, r.msgID = .jointx → ownTime r.vectorClock ≤ b

theorem Bounded.mono {b' : ℕ} (h : Bounded b w) (hb : b ≤ b') : Bounded b' w :=
  ⟨h.object.trans hb, fun r hr hjoin => (h.joins r hr hjoin).trans hb⟩

/-- Anything but a stamp. -/
theorem Bounded.quiet {w' : Worker} (h : Bounded b w) (h' : Bounded b w')
    (he : e.isPlain ∨ e ∈ w.rollback (w.rollbackTid inp)) (hmem : e ∈ w.handle inp) :
    Bounded b (w'.apply e) := by
  rcases he with he | he
  · rcases plain_cases w' he with ⟨r, rfl, -⟩ | ⟨hlog, hobj⟩
    · refine ⟨h'.object, fun r' hr' hjoin => ?_⟩
      rcases List.mem_append.mp hr' with hr' | hr'
      · exact h'.joins r' hr' hjoin
      · -- a join record holds the clock of the object
        rw [List.mem_singleton.mp hr'] at hjoin ⊢
        rw [(join_logged hmem hjoin).1]
        exact h.object
    · refine ⟨by rw [hobj]; exact h'.object, by rw [hlog]; exact h'.joins⟩
  · have hlog : (w'.apply e).log = w'.log := log_apply_of_isRestore (mem_rollback he)
    refine ⟨?_, by rw [hlog]; exact h'.joins⟩
    obtain ⟨x, hx, hex⟩ := List.mem_flatMap.mp he
    rw [readValFromRecord_eq_mapped] at hx
    obtain ⟨hjoin, newer, older, hsplit, -⟩ := mem_restorations hx
    have hseen : x.2 ∈ mapped w.log := by
      have hstretch : x.2 ∈ stretch (mapped w.log) (w.rollbackTid inp) := by
        rw [hsplit]
        simp
      exact List.mem_reverse.mp (List.takeWhile_subset _ hstretch)
    have hbound : ownTime x.2.vectorClock ≤ b := by
      -- where the page ends in the record, the own entry still lies on it
      rcases mem_window hseen with hr | ⟨r, hr, heq⟩ | hzero
      · exact h.joins x.2 hr hjoin
      · rw [heq] at hjoin ⊢
        exact h.joins r hr hjoin
      · rw [hzero] at hjoin
        simp [Record.zero] at hjoin
    simp only [Worker.restore, List.mem_append, List.mem_cons, List.not_mem_nil, or_false,
      List.mem_map, List.mem_finRange, true_and] at hex
    rcases hex with ((rfl | rfl | rfl) | ⟨k, rfl⟩) | rfl
    · exact h'.object
    · exact h'.object
    · exact h'.object
    · by_cases hk : k = 0
      · subst hk
        simpa [apply, withObj, ownTime] using hbound
      · have hne : (0 : Fin maxNodes) ≠ k := Ne.symm hk
        simpa [apply, withObj, ownTime, Function.update_of_ne hne] using h'.object
    · exact h'.object

/-! ## One update command -/

theorem vectorClock_exec (h : ∀ e ∈ es, e.isStamp = false) :
    (process.exec w es).objData.vectorClock = w.objData.vectorClock := by
  refine Process.exec_unchanged (fun w : Worker => w.objData.vectorClock) fun w e he => ?_
  have hno := h e he
  cases e with
  | objClock i => cases hno
  | restoreClock k c => cases hno
  | _ => rfl

/-- What comes before the stamp. -/
def beforeStamp (w : Worker) (undo : Record) (write : WorkerEffect) (now : Timeval) :
    List WorkerEffect :=
  (if w.mem.isTXRun then [.log undo] else []) ++
    [write, .clock (tick w.nodeId w.mem.myVectorClock), .saveVectorTime,
      .shiviz (.localEvent undo.msgID), .lastUpdateTime now]

theorem updateObject_eq (hown : (w.mem.myVectorClock 0).nodeId = w.nodeId) :
    w.updateObject undo write stamp now =
      w.beforeStamp undo write now ++ if stamp then [.objClock 0] else [] := by
  simp only [updateObject, beforeStamp, tick, updateMyVectorClock_own hown]

theorem length_beforeStamp :
    (w.beforeStamp undo write now).length = (if w.mem.isTXRun then 1 else 0) + 5 := by
  unfold beforeStamp
  split <;> rfl

theorem isStamp_beforeStamp (hpair : w.UpdatePair undo write) (he : e ∈ w.beforeStamp undo write now) :
    e.isStamp = false := by
  simp only [beforeStamp, List.mem_append, List.mem_cons, List.not_mem_nil, or_false] at he
  rcases he with he | rfl | rfl | rfl | rfl | rfl
  · split at he
    · rw [List.mem_singleton.mp he]
      rfl
    · simp at he
  · cases hpair <;> rfl
  all_goals rfl

/-- With the stamp the object has the new clock, and so has the head of the log. -/
theorem exec_stamped (now : Timeval) (hpair : w.UpdatePair undo write)
    (hown : (w.mem.myVectorClock 0).nodeId = w.nodeId) :
    ownTime (process.exec w (w.updateObject undo write true now)).objData.vectorClock =
        ownTime (tick w.nodeId w.mem.myVectorClock) ∧
      (process.exec w (w.updateObject undo write true now)).crashInfo.vectorClock =
        tick w.nodeId w.mem.myVectorClock := by
  have hbefore : (process.exec w (w.beforeStamp undo write now)).mem.myVectorClock =
        tick w.nodeId w.mem.myVectorClock ∧
      (process.exec w (w.beforeStamp undo write now)).crashInfo.vectorClock =
        tick w.nodeId w.mem.myVectorClock := by
    unfold beforeStamp
    split <;> cases hpair <;> exact ⟨rfl, rfl⟩
  have hstamp : ∀ w' : Worker, ownTime (w'.apply (.objClock 0)).objData.vectorClock =
        ownTime w'.mem.myVectorClock ∧
      (w'.apply (.objClock 0)).crashInfo = w'.crashInfo := by
    intro w'
    simp [apply, withObj, ownTime, maxNodes]
  rw [updateObject_eq hown, if_pos rfl, Process.exec_append]
  refine ⟨(hstamp _).1.trans ?_, (congrArg CrashInfo.vectorClock (hstamp _).2).trans hbefore.2⟩
  rw [hbefore.1]

/-- The write is performed unless the handler is cut off before it. -/
theorem writes_update (hpair : w.UpdatePair undo write)
    (hown : (w.mem.myVectorClock 0).nodeId = w.nodeId)
    (heq : w.handle a.input = w.updateObject undo write stamp now) :
    w.Writes a = true ↔ ¬ ∃ k, a.cut = some k ∧ k ≤ if w.mem.isTXRun then 1 else 0 := by
  have hwrite : write.isUpdate = true := by
    cases hpair <;> rfl
  unfold Writes Process.performed
  simp only [process_handler, heq, updateObject_eq hown, beforeStamp]
  cases a.cut with
  | none => simp [hwrite]
  | some k =>
      by_cases hrun : w.mem.isTXRun = true
      · match k with
        | 0 => simp [hrun, WorkerEffect.isUpdate]
        | 1 => simp [hrun, WorkerEffect.isUpdate]
        | k + 2 => simp [hrun, hwrite]
      · match k with
        | 0 => simp [hrun, WorkerEffect.isUpdate]
        | k + 1 => simp [hrun, hwrite]

/-- An update command that is not cut off before its stamp, and has one. -/
def Completes (w : Worker) (stamp : Bool) (cut : Option ℕ) : Prop :=
  stamp = true ∧ ∀ k, cut = some k → (if w.mem.isTXRun then 1 else 0) + 6 ≤ k

theorem step_completed (hpair : w.UpdatePair undo write)
    (hown : (w.mem.myVectorClock 0).nodeId = w.nodeId)
    (heq : w.handle a.input = w.updateObject undo write stamp now) (h : w.Completes stamp a.cut) :
    ownTime (process.step w a).objData.vectorClock = ownTime (tick w.nodeId w.mem.myVectorClock) ∧
      (process.step w a).crashInfo.vectorClock = tick w.nodeId w.mem.myVectorClock := by
  obtain ⟨rfl, hcut⟩ := h
  have hstamped := exec_stamped now hpair hown
  rw [← heq] at hstamped
  unfold Process.step Process.performed
  cases hk : a.cut with
  | none => exact hstamped
  | some k =>
      have hlength : (w.handle a.input).length ≤ k := by
        rw [heq, updateObject_eq hown, List.length_append, length_beforeStamp]
        exact hcut k hk
      simp only [process_handler, List.take_of_length_le hlength, Process.exec_append]
      exact hstamped

theorem step_unstamped (hpair : w.UpdatePair undo write)
    (hown : (w.mem.myVectorClock 0).nodeId = w.nodeId)
    (heq : w.handle a.input = w.updateObject undo write stamp now)
    (h : ¬ w.Completes stamp a.cut) :
    (process.step w a).objData.vectorClock = w.objData.vectorClock := by
  refine vectorClock_exec fun e he => ?_
  have hbefore : e ∈ w.beforeStamp undo write now ∨ e = .exit := by
    unfold Process.performed at he
    simp only [process_handler, heq, updateObject_eq hown] at he
    cases hk : a.cut with
    | none =>
        have hstamp : stamp = false := by
          by_contra hstamp
          exact h ⟨by simpa using hstamp, fun k hk' => by simp [hk] at hk'⟩
        rw [hk, hstamp] at he
        exact Or.inl (by simpa using he)
    | some k =>
        rw [hk] at he
        rcases List.mem_append.mp he with he | he
        · by_cases hstamp : stamp = true
          · -- it is cut off before the stamp
            have hlt : k ≤ (w.beforeStamp undo write now).length := by
              rw [length_beforeStamp]
              by_contra hlong
              refine h ⟨hstamp, fun k' hk' => ?_⟩
              have hsame : k = k' := Option.some.inj (hk.symm.trans hk')
              omega
            rw [List.take_append_of_le_length hlt] at he
            exact Or.inl (List.mem_of_mem_take he)
          · have hmem := List.mem_of_mem_take he
            exact Or.inl (by simpa [hstamp] using hmem)
        · exact Or.inr (List.mem_singleton.mp he)
  rcases hbefore with he | rfl
  · exact isStamp_beforeStamp hpair he
  · rfl

/-- An update command restores nothing and logs no join. -/
theorem mem_update (hpair : w.UpdatePair undo write)
    (heq : w.handle a.input = w.updateObject undo write stamp now) (he : e ∈ process.performed w a) :
    e.isRestore = false ∧ ∀ r, e = .log r → r.msgID ≠ .jointx := by
  rcases Process.mem_performed he with he | rfl
  · simp only [process_handler, heq, updateObject, List.mem_append, List.mem_cons, List.not_mem_nil,
      or_false] at he
    rcases he with (he | rfl | rfl | rfl | rfl | rfl) | he
    · split at he
      · rw [List.mem_singleton.mp he]
        refine ⟨rfl, fun r hr => ?_⟩
        cases hr
        cases hpair <;> simp
      · simp at he
    · cases hpair <;> exact ⟨rfl, by simp⟩
    any_goals exact ⟨rfl, by simp⟩
    split at he
    · rw [List.mem_singleton.mp he]
      exact ⟨rfl, by simp⟩
    · simp at he
  · exact ⟨rfl, by simp⟩

/-! ## Runs -/

/-- What holds between two inputs while every modification has been stamped. -/
structure Kept (n : NodeId) (x : Worker × Option ℕ) : Prop where
  nodeId : x.1.nodeId = n
  saved : x.1.Saved (Owns n)
  tracks : Tracks x

/-- No own entry of the object or of a join record is ahead of the saved clock. -/
def Behind (w : Worker) : Prop := w.Bounded (ownTime w.crashInfo.vectorClock)

variable {x : Worker × Option ℕ}

/-- While a command is handled, the clock in memory is the saved one, with the own entry in
    front. -/
theorem Kept.live (hn : n ≠ 0) (h : Kept n x) (hacc : x.1.accepts (.cmd c calls)) :
    x.1.crashInfo.vectorClock = x.1.mem.myVectorClock ∧
      (x.1.mem.myVectorClock 0).nodeId = x.1.nodeId := by
  have hup : x.1.mem.control ≠ .down := by
    rw [show x.1.mem.control = .cmdLoop from hacc]
    simp
  refine ⟨h.saved.live hup, ?_⟩
  rw [← h.saved.live hup, h.saved.clock hn, h.nodeId]

theorem stamps_update_iff (hc : c.msgID.isUpdate = true) {cut : Option ℕ} :
    w.Stamps ⟨.cmd c calls, cut⟩ ↔ (∃ k, cut = some k ∧ k ≤ if w.mem.isTXRun then 1 else 0) ∨
      w.Completes (c.msgID ≠ .newIdStr) cut := by
  simp only [Stamps, Completes, hc, true_imp_iff, decide_eq_true_eq]
  rfl

/-- An update command keeps track when it stamps what it writes. -/
theorem tracks_update {g : Option ℕ} {cut : Option ℕ} (hn : n ≠ 0) (h : Kept n (w, g))
    (hacc : w.accepts (.cmd c calls)) (hc : c.msgID.isUpdate = true)
    (hstamps : w.Stamps ⟨.cmd c calls, cut⟩) :
    Tracks (modified.next (w, g) ⟨.cmd c calls, cut⟩) := by
  obtain ⟨-, hown⟩ := h.live hn hacc
  obtain ⟨undo, write, hpair, heq⟩ := handle_update (w := w) hc calls
  have hwrites := writes_update (a := ⟨.cmd c calls, cut⟩) hpair hown heq
  rw [stamps_update_iff hc] at hstamps
  show ∀ v, lastModified w ⟨.cmd c calls, cut⟩ g = some v →
    ownTime (process.step w ⟨.cmd c calls, cut⟩).objData.vectorClock = v
  by_cases hw : w.Writes ⟨.cmd c calls, cut⟩ = true
  · have hdone := hstamps.resolve_left (hwrites.mp hw)
    simp only [lastModified, if_pos hw, Option.some.injEq, forall_eq']
    exact (step_completed hpair hown heq hdone).1
  · -- it is cut off before the write, and nothing has changed
    have hearly : ∃ k, cut = some k ∧ k ≤ if w.mem.isTXRun then 1 else 0 := by
      by_contra hno
      exact hw (hwrites.mpr hno)
    have hrestores : ¬ w.Restores ⟨.cmd c calls, cut⟩ = true := by
      simp only [Restores, List.any_eq_true, not_exists, not_and]
      intro e he hrestore
      rw [(mem_update hpair heq he).1] at hrestore
      cases hrestore
    have hunstamped : ¬ w.Completes (c.msgID ≠ .newIdStr) cut := by
      rintro ⟨-, hcut⟩
      obtain ⟨k, hk, hle⟩ := hearly
      have := hcut k hk
      omega
    have hsame := step_unstamped (a := ⟨.cmd c calls, cut⟩) hpair hown heq hunstamped
    simp only [lastModified, if_neg hw, if_neg hrestores, hsame]
    exact h.tracks

/-- Without a wrap an update command that keeps track stamps what it writes. -/
theorem stamps_update {g : Option ℕ} {cut : Option ℕ} (hn : n ≠ 0) (h : Kept n (w, g))
    (hbehind : w.Behind) (hacc : w.accepts (.cmd c calls)) (hc : c.msgID.isUpdate = true)
    (hwrap : w.Unwrapped ⟨.cmd c calls, cut⟩)
    (htracks : Tracks (modified.next (w, g) ⟨.cmd c calls, cut⟩)) :
    w.Stamps ⟨.cmd c calls, cut⟩ := by
  obtain ⟨hlive, hown⟩ : w.crashInfo.vectorClock = w.mem.myVectorClock ∧
      (w.mem.myVectorClock 0).nodeId = w.nodeId := h.live hn hacc
  obtain ⟨undo, write, hpair, heq⟩ := handle_update (w := w) hc calls
  have hwrites := writes_update (a := ⟨.cmd c calls, cut⟩) hpair hown heq
  rw [stamps_update_iff hc, or_iff_not_imp_left]
  intro hlate
  have hw : w.Writes ⟨.cmd c calls, cut⟩ = true := hwrites.mpr hlate
  by_contra hno
  -- the old entry would have to be the new time, which is ahead of it
  have hclock : tick w.nodeId w.mem.myVectorClock ∈
      (w.handle (.cmd c calls)).filterMap WorkerEffect.newClock := by
    rw [heq, updateObject_eq hown]
    exact List.mem_filterMap.mpr ⟨.clock _, by simp [beforeStamp], rfl⟩
  have hahead := hwrap _ hclock
  have hobject : ownTime w.objData.vectorClock ≤ ownTime w.crashInfo.vectorClock := hbehind.object
  have hsame := htracks _ (if_pos hw)
  change ownTime (process.step w ⟨.cmd c calls, cut⟩).objData.vectorClock = _ at hsame
  rw [step_unstamped hpair hown heq hno] at hsame
  rw [ownTime_tick hown] at hahead hsame
  rw [hlive] at hahead hobject
  omega

/-- The other inputs keep track. -/
theorem tracks_next_of_not_update {g : Option ℕ} (htracks : Tracks (w, g))
    (hacc : w.accepts a.input) (hno : ¬ IsUpdate a.input) : Tracks (modified.next (w, g) a) := by
  have hquiet : ∀ e ∈ process.performed w a, e.isPlain ∨ e.isRestore = true := by
    intro e he
    rcases Process.mem_performed he with he | rfl
    · exact (quiet_handle hacc hno he).imp_right mem_rollback
    · exact Or.inl rfl
  have hwrites : ¬ w.Writes a = true := by
    simp only [Writes, List.any_eq_true, not_exists, not_and]
    intro e he hupdate
    rcases hquiet e he with hplain | hrestore
    · cases e <;> simp_all [WorkerEffect.isUpdate, WorkerEffect.isPlain, WorkerEffect.isInternal]
    · cases e <;> simp_all [WorkerEffect.isUpdate, WorkerEffect.isRestore]
  show ∀ v, lastModified w a g = some v → ownTime (process.step w a).objData.vectorClock = v
  unfold lastModified
  rw [if_neg hwrites]
  split
  · intro v hv
    cases hv
  · rename_i hrestores
    -- without a restoration the object is the one it was
    have hsame : (process.step w a).objData = w.objData := by
      refine objData_exec fun e he => ?_
      refine (hquiet e he).resolve_right fun hrestore => hrestores ?_
      exact List.any_eq_true.mpr ⟨e, he, hrestore⟩
    rw [hsame]
    exact htracks

/-- **Step**: the object keeps track when an update that writes also stamps. -/
theorem Kept.step (hn : n ≠ 0) (h : Kept n x) (hacc : x.1.accepts a.input) (hstamps : x.1.Stamps a) :
    Kept n (modified.next x a) := by
  obtain ⟨w, g⟩ := x
  obtain ⟨inp, cut⟩ := a
  refine ⟨(nodeId_exec w _).trans h.nodeId, h.saved.step (lasting_owns n) hacc, ?_⟩
  by_cases hno : IsUpdate inp
  · cases inp with
    | cmd c calls => exact tracks_update hn h hacc hno hstamps
    | _ => exact hno.elim
  · exact tracks_next_of_not_update h.tracks hacc hno

/-- **Step**: without a wrap it keeps track only then. -/
theorem Kept.stamps (hn : n ≠ 0) (h : Kept n x) (hbehind : x.1.Behind) (hacc : x.1.accepts a.input)
    (hwrap : x.1.Unwrapped a) (htracks : Tracks (modified.next x a)) : x.1.Stamps a := by
  obtain ⟨w, g⟩ := x
  obtain ⟨inp, cut⟩ := a
  cases inp with
  | cmd c calls =>
      by_cases hc : c.msgID.isUpdate = true
      · exact stamps_update hn h hbehind hacc hc hwrap htracks
      · exact fun hupdate => absurd hupdate hc
  | _ => trivial

/-- The clocks of the object and of the join records stay behind the one on disk. -/
theorem Behind.step (hn : n ≠ 0) (h : Kept n x) (hbehind : x.1.Behind) (hacc : x.1.accepts a.input)
    (hwrap : x.1.Unwrapped a) : (process.step x.1 a).Behind := by
  obtain ⟨w, g⟩ := x
  have hbounded : Bounded (ownTime (process.step w a).crashInfo.vectorClock) w :=
    hbehind.mono (hwrap.saved_le hacc h.saved.live)
  show Bounded (ownTime (process.step w a).crashInfo.vectorClock) (process.step w a)
  by_cases hno : IsUpdate a.input
  · obtain ⟨inp, cut⟩ := a
    cases inp with
    | cmd c calls =>
        obtain ⟨-, hown⟩ := h.live hn hacc
        obtain ⟨undo, write, hpair, heq⟩ := handle_update (w := w) hno calls
        refine ⟨?_, fun r hr hjoin => ?_⟩
        · by_cases hdone : w.Completes (c.msgID ≠ .newIdStr) cut
          · obtain ⟨hobj, hdisk⟩ := step_completed (a := ⟨.cmd c calls, cut⟩) hpair hown heq hdone
            rw [hobj, hdisk]
          · rw [step_unstamped (a := ⟨.cmd c calls, cut⟩) hpair hown heq hdone]
            exact hbounded.object
        · rcases mem_log_exec hr with hr | hr
          · exact hbounded.joins r hr hjoin
          · exact absurd hjoin ((mem_update (a := ⟨.cmd c calls, cut⟩) hpair heq hr).2 r rfl)
    | _ => exact hno.elim
  · exact Process.step_preserved hbounded
      (fun w' e he h' => hbounded.quiet h' (quiet_handle hacc hno he) he) fun w' h' => ⟨h'.object, h'.joins⟩

/-! ## Rollbacks -/

/-- The `JOIN_SUCCESS` of a transaction that is new to the log, handled as far as its record. -/
def JoinsFresh (t : Tid) (w : Worker) (a : Act Input) : Prop :=
  (∀ r ∈ w.log, r.tid ≠ t) ∧ w.mem.control = .cmdLoop ∧
    ∃ src m, a.input = .manager src m ∧ m.msgID = .joinSuccess ∧ m.tid = t ∧
      .log (w.joinRecord m) ∈ process.performed w a

/-- Every record an action writes is one of `t`. -/
def LogsOnly (t : Tid) (w : Worker) (a : Act Input) : Prop :=
  ∀ r ∈ (process.performed w a).filterMap WorkerEffect.record, r.tid = t

instance (t : Tid) (w : Worker) (a : Act Input) : Decidable (LogsOnly t w a) :=
  inferInstanceAs (Decidable (∀ r ∈ _, _))

theorem log_step_joinsFresh {t : Tid} (h : JoinsFresh t w a) :
    ∃ r, (process.step w a).log = w.log ++ [r] ∧ r.msgID = .jointx ∧ r.tid = t ∧
      r.vectorClock = w.objData.vectorClock := by
  obtain ⟨-, hloop, src, m, hinp, hk, htid, hlogged⟩ := h
  refine ⟨w.joinRecord m, ?_, rfl, htid, rfl⟩
  have hrecords : (w.handle a.input).filterMap WorkerEffect.record = [w.joinRecord m] := by
    simp only [hinp, handle, hloop, handleManagerMsg, hk]
    rfl
  -- the part that is performed has the one record
  have hperformed : (process.performed w a).filterMap WorkerEffect.record = [w.joinRecord m] := by
    have hmem : w.joinRecord m ∈ (process.performed w a).filterMap WorkerEffect.record :=
      List.mem_filterMap.mpr ⟨_, hlogged, rfl⟩
    unfold Process.performed at hmem ⊢
    cases hcut : a.cut with
    | none => exact hrecords
    | some k =>
        simp only [hcut, process_handler, process_crash, List.filterMap_append,
          List.filterMap_cons, List.filterMap_nil, WorkerEffect.record, List.append_nil] at hmem ⊢
        have hprefix : ((w.handle a.input).take k).filterMap WorkerEffect.record <+:
            [w.joinRecord m] := by
          rw [← hrecords]
          exact (List.take_prefix k _).filterMap _
        rcases List.prefix_cons_iff.mp hprefix with hnil | ⟨rest, hrest, hrestnil⟩
        · rw [hnil] at hmem
          cases hmem
        · rw [hrest, List.prefix_nil.mp hrestnil]
  rw [Process.step, log_exec, hperformed]

theorem log_after_logsOnly {t : Tid} (h : process.machine.Along (LogsOnly t) w as) :
    ∃ suf, (process.machine.after w as).log = w.log ++ suf ∧ ∀ r ∈ suf, r.tid = t := by
  induction as generalizing w with
  | nil => exact ⟨[], by simp, by simp⟩
  | cons a as ih =>
      obtain ⟨suf, hlog, hsuf⟩ := ih h.2
      refine ⟨(process.performed w a).filterMap WorkerEffect.record ++ suf, ?_, fun r hr => ?_⟩
      · rw [Machine.after_cons, hlog, Process.machine_next, Process.step, log_exec, List.append_assoc]
      · rcases List.mem_append.mp hr with hr | hr
        · exact h.1 r hr
        · exact hsuf r hr

/-- An abort that finds only records of its transaction since the first join restores the clock
    of that join. -/
theorem vectorClock_abort {old suf : List Record} {r : Record}
    (hlog : w.log = old ++ r :: suf) (hjoin : r.msgID = .jointx)
    (hfresh : ∀ r' ∈ old, r'.tid ≠ r.tid) (hsuf : ∀ r' ∈ suf, r'.tid = r.tid)
    (htid : w.rollbackTid a.input = r.tid) (hacc : w.accepts a.input) (habort : w.Aborts a)
    (hpage : w.OnPage) : (process.step w a).objData.vectorClock = r.vectorClock := by
  obtain ⟨pre, post, hperf, hpost⟩ := habort.performed_eq hacc
  have hlast : (restorations (stretch w.log r.tid) w.objData.current).getLast? =
      some (w.objData.current.readAll suf.reverse, r) := by
    rw [hlog, stretch_since hfresh rfl hsuf, getLast?_restorations hjoin (by simp)]
  rw [Process.step, hperf, Process.exec_append, objData_exec hpost, Process.exec_append, htid,
    rollback, readValFromRecord_eq hpage, exec_restorations, hlast]
  rfl

/-- Every abort of a transaction that was new to the log when it was joined, with only records of
    its own since and the log on the page, sets the own entry back to what it was at the join. -/
def SetsBack (w₀ : Worker) (as : List (Act Input)) : Prop :=
  ∀ t as₁ join as₂ roll, as = as₁ ++ join :: (as₂ ++ [roll]) →
    let w := process.machine.after w₀ as₁
    let w' := process.machine.after w₀ (as₁ ++ join :: as₂)
    JoinsFresh t w join → process.machine.Along (LogsOnly t) (process.step w join) as₂ →
    w'.rollbackTid roll.input = t → w'.Aborts roll → w'.OnPage →
    ownTime (process.step w' roll).objData.vectorClock = ownTime w.objData.vectorClock

theorem setsBack {w₀ : Worker} (hrun : process.machine.Along process.machine.enabled w₀ as) :
    SetsBack w₀ as := by
  rintro t as₁ join as₂ roll rfl w w' hjoin hlogs htid habort hpage
  have hacc : w'.accepts roll.input := by
    rw [← List.cons_append, ← List.append_assoc] at hrun
    exact (Machine.along_concat.mp hrun).2
  have hafter : w' = process.machine.after (process.step w join) as₂ := Machine.after_append _ _ _ _
  obtain ⟨r, hlog, hkind, hr, hclock⟩ := log_step_joinsFresh hjoin
  obtain ⟨suf, hsuf, htids⟩ := log_after_logsOnly hlogs
  have hwhole : w'.log = w.log ++ r :: suf := by
    rw [hafter, hsuf, hlog]
    simp
  have hrestored := vectorClock_abort (a := roll) hwhole hkind
    (fun r' hr' => hr ▸ hjoin.1 r' hr') (fun r' hr' => (htids r' hr').trans hr.symm)
    (htid.trans hr.symm) hacc habort hpage
  rw [hrestored, hclock]

/-- **The object's clock tracks its changes** in every run in which each update that writes the
    object also stamps it, and in no other one as long as the own time does not wrap; an abort
    sets it back when nothing but its transaction has been logged since the join and the log
    ends on the page. -/
theorem objectClock_tracks_iff (nodeId : NodeId) (sys_port : ℕ) (A B : ℤ) (IDstring : String)
    (now : Timeval) (as : List (Act Input)) (hid : nodeId ≠ 0)
    (hrun : process.machine.Along process.machine.enabled
      (start nodeId sys_port A B IDstring now) as) :
    let w₀ := start nodeId sys_port A B IDstring now
    (process.machine.Along Stamps w₀ as →
      modified.Along (fun x a => Tracks (modified.next x a)) (w₀, some 1) as) ∧
    (process.machine.Along Unwrapped w₀ as →
      (modified.Along (fun x a => Tracks (modified.next x a)) (w₀, some 1) as ↔
        process.machine.Along Stamps w₀ as)) ∧
    SetsBack w₀ as := by
  intro w₀
  have hstart : Kept nodeId (w₀, some 1) :=
    { nodeId := rfl
      saved := saved_start nodeId sys_port A B IDstring now
      tracks := fun v hv => Option.some.inj hv }
  have hbehind : w₀.Behind := ⟨le_rfl, fun r hr => absurd hr (by simp [w₀, start])⟩
  refine ⟨fun hstamps => ?_, fun hwrap => ?_, setsBack hrun⟩
  · have hall := Machine.along_and.mpr ⟨hrun, hstamps⟩
    exact (Machine.along_watch.mpr hall).strengthen hstart (fun x a h hC => h.step hid hC.1 hC.2)
      fun x a h hC => (h.step hid hC.1 hC.2).tracks
  · have hall := Machine.along_and.mpr ⟨hrun, hwrap⟩
    have hiff := Machine.along_congr_of_invariant (I := fun x => Kept nodeId x ∧ x.1.Behind)
      (C := fun x a => Tracks (modified.next x a)) (D := fun x a => x.1.Stamps a)
      (Machine.along_watch.mpr hall) ⟨hstart, hbehind⟩
      (fun x a h hC => ⟨h.1.stamps hid h.2 hC.1 hC.2, fun hstamps => (h.1.step hid hC.1 hstamps).tracks⟩)
      fun x a h hC htracks => ⟨h.1.step hid hC.1 (h.1.stamps hid h.2 hC.1 hC.2 htracks),
        h.2.step hid h.1 hC.1 hC.2⟩
    exact hiff.trans Machine.along_watch

/-- An update outside a transaction. -/
def newB3 : Act Input := ⟨.cmd { msgID := .newB, newValue := 3 } ⟨5, none⟩, none⟩

/-- A transaction with an update, and a crash before the next one is written. -/
def crashedUpdate : List (Act Input) := [newA 7, ⟨.cmd { msgID := .newA, newValue := 9 } ⟨6, none⟩, some 1⟩]

/-- The whole run, with the restart that aborts. -/
def stampedRun : List (Act Input) :=
  [newB3] ++ deliver .joinSuccess 1 :: (crashedUpdate ++ [⟨.restart, none⟩])

theorem objectClock_tracks_stampedRun :
    modified.Along (fun x a => Tracks (modified.next x a)) (worker40, some 1) stampedRun ∧
      ownTime (process.machine.after worker40 stampedRun).objData.vectorClock =
        ownTime (process.step worker40 newB3).objData.vectorClock := by
  obtain ⟨-, htracks, hback⟩ := objectClock_tracks_iff 40 0 1 2 "id" 0 stampedRun (by decide)
    (by decide +kernel)
  have hjoin : JoinsFresh 1 (process.machine.after worker40 [newB3]) (deliver .joinSuccess 1) :=
    ⟨by decide +kernel, by decide +kernel, _, _, rfl, rfl, rfl, by decide +kernel⟩
  exact ⟨(htracks (by decide +kernel)).mpr (by decide +kernel), hback 1 [newB3] (deliver .joinSuccess 1) crashedUpdate
    ⟨.restart, none⟩ rfl hjoin (by decide +kernel) (by decide +kernel)
    ⟨by decide +kernel, Or.inl rfl⟩ (by decide +kernel)⟩

/-- A `NEW_IDSTR` changes the object and not its clock. -/
theorem not_objectClock_tracks :
    ¬ ∀ as, process.machine.Along process.machine.enabled worker40 as →
      modified.Along (fun x a => Tracks (modified.next x a)) (worker40, some 1) as := by
  intro h
  have htracks := (h [⟨.cmd { msgID := .newIdStr, strData := "new" } ⟨5, none⟩, none⟩] (by decide +kernel)).1
  have hclock := htracks 2 (by decide +kernel)
  exact absurd hclock (by decide +kernel)

end Worker

end DistributedSystem.Transaction
