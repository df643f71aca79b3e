import DistributedSystem.Transaction.WorkerSteps

/-!
# Rollback is exact

A transaction whose tid is new to the log is joined, and from then on the worker is only
told about that transaction. Whatever it is told, and wherever it crashes, the log since
the join stays a before-image log of the three fields, so every abort that finds the log on
the page brings the object back to its state at the join. Behind the page the rollback reads
zeros and restores nothing.
-/

namespace DistributedSystem.Transaction

open DistributedSystem.Library

/-! ## Undo records as before-images -/

/-- Reading `log` back from the values `cur` gives the values `base`. -/
structure Undoes (log : List Record) (base cur : OldValues) : Prop where
  A : Guards fieldA.image log base.oldA cur.oldA
  B : Guards fieldB.image log base.oldB cur.oldB
  ID : Guards fieldID.image log base.oldID cur.oldID

variable {log log' rs : List Record} {base cur cur' : OldValues} {r : Record}

theorem Undoes.nil (base : OldValues) : Undoes [] base base := ⟨Guards.nil, Guards.nil, Guards.nil⟩

theorem Field.image_eq_none {β : Type} {f : Field β} (hf : f.kind.isUpdate = true)
    (hr : r.msgID.isUpdate = false) : f.image r = none := by
  refine if_neg ?_
  intro heq
  rw [heq, hf] at hr
  exact absurd hr (by decide)

/-- A record of another kind changes nothing. -/
theorem Undoes.concat (h : Undoes log base cur) (hr : r.msgID.isUpdate = false) :
    Undoes (log ++ [r]) base cur :=
  ⟨h.A.concat (Or.inl (Field.image_eq_none rfl hr)), h.B.concat (Or.inl (Field.image_eq_none rfl hr)),
    h.ID.concat (Or.inl (Field.image_eq_none rfl hr))⟩

/-- Reading the whole log gives the base. -/
theorem Undoes.readAll_eq (h : Undoes log base cur) : cur.readAll log.reverse = base := by
  have hA := lawful_fieldA.readAll log.reverse cur
  have hB := lawful_fieldB.readAll log.reverse cur
  have hID := lawful_fieldID.readAll log.reverse cur
  rw [List.reverse_reverse] at hA hB hID
  have hfields : ∀ x y : OldValues, x.oldA = y.oldA → x.oldB = y.oldB → x.oldID = y.oldID → x = y := by
    rintro ⟨_, _, _⟩ ⟨_, _, _⟩ rfl rfl rfl
    rfl
  exact hfields _ _ (hA.trans h.A) (hB.trans h.B) (hID.trans h.ID)

/-- What a walk carries after the newer part of the log is still brought back to `base`. -/
theorem Field.Lawful.guards_readAll {β : Type} {f : Field β} (hf : f.Lawful) {b : β}
    (h : Guards f.image (log ++ rs.reverse) b (f.carried cur)) :
    Guards f.image (log ++ rs.reverse) b (f.carried (cur.readAll rs)) := by
  rw [hf.readAll]
  exact h.restore

/-- The values that reach a join record are brought back as the current ones are. -/
theorem Undoes.of_mem_restorations {newer older : List Record} {x : OldValues × Record}
    (h : Undoes newer.reverse base cur) (holder : ∀ r ∈ older, r.msgID ≠ .jointx)
    (hx : x ∈ restorations (newer ++ r :: older) cur) : Undoes newer.reverse base x.1 := by
  obtain ⟨hjoin, newer', older', hsplit, hvalues⟩ := mem_restorations hx
  -- no join record stands behind `r`, so only records of `newer` have been read
  obtain ⟨rest, rfl⟩ : ∃ rest, newer = newer' ++ rest := by
    rcases List.append_eq_append_iff.mp hsplit with ⟨as, hnewer, has⟩ | ⟨bs, hnewer, -⟩
    · cases as with
      | nil => exact ⟨[], by simp [hnewer]⟩
      | cons a as =>
          obtain ⟨-, has⟩ := List.cons.inj has
          exact absurd hjoin (holder x.2 (by simp [has]))
    · exact ⟨bs, hnewer⟩
  rw [List.reverse_append] at h ⊢
  rw [hvalues]
  exact ⟨lawful_fieldA.guards_readAll h.A, lawful_fieldB.guards_readAll h.B,
    lawful_fieldID.guards_readAll h.ID⟩

/-- Behind the first record of a transaction the walk meets another transaction. -/
theorem stretch_since {t : Tid} {old suf : List Record} (hfresh : ∀ r' ∈ old, r'.tid ≠ t)
    (hr : r.tid = t) (hsuf : ∀ r' ∈ suf, r'.tid = t) :
    stretch (old ++ r :: suf) t = suf.reverse ++ [r] := by
  unfold stretch
  rw [List.reverse_append, List.reverse_cons, List.append_assoc,
    List.takeWhile_append_of_pos (by simpa using hsuf)]
  congr 1
  cases hold : old.reverse with
  | nil => simp [hr]
  | cons r' rs =>
      have hr' : r' ∈ old := List.mem_reverse.mp (by simp [hold])
      simp [hr, hfresh r' hr']

/-- A walk ends at the oldest join record. -/
theorem getLast?_restorations {newer older : List Record} (hr : r.msgID = .jointx)
    (holder : ∀ r ∈ older, r.msgID ≠ .jointx) :
    (restorations (newer ++ r :: older) cur).getLast? = some (cur.readAll newer, r) := by
  rw [restorations_append, restorations, if_pos hr, restorations_eq_nil holder, List.getLast?_concat]

namespace Worker

variable {w₀ w w' : Worker} {m : TxMessage} {suf : List Record} {undo : Record}
  {e wr : WorkerEffect} {inp : Input}

/-- The undo record of an update holds the value about to be overwritten. -/
theorem UpdatePair.concat (hpair : w.UpdatePair undo wr)
    (h : Undoes log base w.objData.current) : Undoes (log ++ [undo]) base w.objData.current := by
  cases hpair with
  | newA v => exact ⟨h.A.concat (Or.inr rfl), h.B.concat (Or.inl rfl), h.ID.concat (Or.inl rfl)⟩
  | newB v => exact ⟨h.A.concat (Or.inl rfl), h.B.concat (Or.inr rfl), h.ID.concat (Or.inl rfl)⟩
  | newIdStr v => exact ⟨h.A.concat (Or.inl rfl), h.B.concat (Or.inl rfl), h.ID.concat (Or.inr rfl)⟩

/-- Once the undo record is in the log, the field can be written. -/
theorem UpdatePair.written (hpair : w.UpdatePair undo wr) (hmem : undo ∈ log)
    (h : Undoes log base w'.objData.current) :
    Undoes log base (w'.apply wr).objData.current := by
  cases hpair with
  | newA v => exact ⟨h.A.write hmem (Option.some_ne_none _) v, h.B, h.ID⟩
  | newB v => exact ⟨h.A, h.B.write hmem (Option.some_ne_none _) v, h.ID⟩
  | newIdStr v => exact ⟨h.A, h.B, h.ID.write hmem (Option.some_ne_none _) v⟩

theorem UpdatePair.log_apply (hpair : w.UpdatePair undo wr) : (w'.apply wr).log = w'.log := by
  cases hpair <;> rfl

/-! ## The state since the join -/

/-- `w₀` has handled the `JOIN_SUCCESS` `m` of a new transaction; since then the records
    `suf` of that transaction were written, and reading them back gives the object of `w₀`. -/
structure SinceJoin (w₀ : Worker) (m : TxMessage) (suf : List Record) (w : Worker) : Prop where
  log : w.log = w₀.log ++ w₀.joinRecord m :: suf
  tids : ∀ r ∈ suf, r.tid = m.tid
  undoes : Undoes suf w₀.objData.current w.objData.current

/-- `SinceJoin` for the records written so far. -/
def Joined (w₀ : Worker) (m : TxMessage) (w : Worker) : Prop := ∃ suf, SinceJoin w₀ m suf w

theorem SinceJoin.joined (h : SinceJoin w₀ m suf w) : Joined w₀ m w := ⟨suf, h⟩

theorem SinceJoin.congr (h : SinceJoin w₀ m suf w) (hlog : w'.log = w.log)
    (hcurrent : w'.objData.current = w.objData.current) : SinceJoin w₀ m suf w' :=
  ⟨hlog.trans h.log, h.tids, hcurrent ▸ h.undoes⟩

/-- A plain effect that writes no record. -/
theorem SinceJoin.quiet (h : SinceJoin w₀ m suf w) (he : e.isPlain) (hlog : ∀ r, e ≠ .log r) :
    SinceJoin w₀ m suf (w.apply e) := by
  rcases plain_cases w he with ⟨r, rfl, -⟩ | ⟨hsame, hobj⟩
  · exact absurd rfl (hlog r)
  · exact h.congr hsame (congrArg ObjectData.current hobj)

theorem SinceJoin.apply_log (h : SinceJoin w₀ m suf w) (htid : r.tid = m.tid)
    (hundoes : Undoes (suf ++ [r]) w₀.objData.current w.objData.current) :
    SinceJoin w₀ m (suf ++ [r]) (w.apply (.log r)) := by
  refine ⟨?_, ?_, hundoes⟩
  · simp [apply, h.log]
  · intro r' hr'
    rcases List.mem_append.mp hr' with hr' | hr'
    · exact h.tids r' hr'
    · rw [List.mem_singleton.mp hr']
      exact htid

theorem Joined.plain (h : Joined w₀ m w) (he : e.isPlain) (htid : ∀ r, e = .log r → r.tid = m.tid) :
    Joined w₀ m (w.apply e) := by
  obtain ⟨suf, h⟩ := h
  rcases plain_cases w he with ⟨r, rfl, hr⟩ | ⟨hsame, hobj⟩
  · exact (h.apply_log (htid r rfl) (h.undoes.concat hr)).joined
  · exact (h.congr hsame (congrArg ObjectData.current hobj)).joined

/-- The walk of a rollback covers exactly the records since the join. -/
theorem SinceJoin.stretch_eq (hfresh : ∀ r ∈ w₀.log, r.tid ≠ m.tid) (h : SinceJoin w₀ m suf w) :
    stretch w.log m.tid = suf.reverse ++ [w₀.joinRecord m] := by
  rw [h.log]
  exact stretch_since hfresh rfl h.tids

/-- A write of a restoration leaves values that are brought back like those it restores. -/
theorem undoes_apply_restore {x : OldValues × Record} (h : Undoes log base w.objData.current)
    (hx : Undoes log base x.1) (he : e ∈ restore x) : Undoes log base (w.apply e).objData.current := by
  simp only [Worker.restore, List.mem_append, List.mem_cons, List.not_mem_nil, or_false, List.mem_map,
    List.mem_finRange, true_and] at he
  rcases he with ((rfl | rfl | rfl) | ⟨k, rfl⟩) | rfl
  · exact ⟨hx.A, h.B, h.ID⟩
  · exact ⟨h.A, hx.B, h.ID⟩
  · exact ⟨h.A, h.B, hx.ID⟩
  · exact h
  · exact h

/-- Every write of a rollback, from whatever intermediate object, keeps the log in force. -/
theorem SinceJoin.restore (hfresh : ∀ r ∈ w₀.log, r.tid ≠ m.tid) (h : SinceJoin w₀ m suf w)
    (hpage : w.OnPage) (h' : SinceJoin w₀ m suf w') (he : e ∈ w.rollback m.tid) :
    SinceJoin w₀ m suf (w'.apply e) := by
  refine ⟨(log_apply_of_isRestore (mem_rollback he)).trans h'.log, h.tids, ?_⟩
  obtain ⟨x, hx, hex⟩ := List.mem_flatMap.mp he
  rw [readValFromRecord_eq hpage, h.stretch_eq hfresh] at hx
  have hundoes : Undoes suf.reverse.reverse w₀.objData.current w.objData.current := by
    rw [List.reverse_reverse]
    exact h.undoes
  have hvalues := hundoes.of_mem_restorations (by simp) hx
  rw [List.reverse_reverse] at hvalues
  exact undoes_apply_restore h'.undoes hvalues hex

/-- **A complete rollback restores the object of the join.** -/
theorem SinceJoin.exec_rollback (hfresh : ∀ r ∈ w₀.log, r.tid ≠ m.tid) (h : SinceJoin w₀ m suf w)
    (hpage : w.OnPage) (w' : Worker) : (process.exec w' (w.rollback m.tid)).objData = w₀.objData := by
  have hlast : (restorations (stretch w.log m.tid) w.objData.current).getLast? =
      some (w₀.objData.current, w₀.joinRecord m) := by
    rw [h.stretch_eq hfresh, getLast?_restorations rfl (by simp), h.undoes.readAll_eq]
  rw [rollback, readValFromRecord_eq hpage, exec_restorations, hlast]
  simp [withObj, restoredObject, joinRecord, ObjectData.current]

/-! ## Between the effects of a handler -/

/-- An update command of a running transaction. -/
theorem joined_throughout_update {stamp : Bool} {now : Timeval} (h : Joined w₀ m w)
    (hpair : w.UpdatePair undo wr) (htid : w.mem.curTid = m.tid) (hrun : w.mem.isTXRun = true) :
    process.Throughout (Joined w₀ m) w (w.updateObject undo wr stamp now) := by
  obtain ⟨suf, h⟩ := h
  have hundo : undo.tid = m.tid := by
    cases hpair <;> exact htid
  have hlogged := h.apply_log hundo (hpair.concat h.undoes)
  refine throughout_updateObject hrun h.joined hlogged (fun w' h' => ?_) (fun w' w'' h' => h'.congr)
    fun _ => SinceJoin.joined
  exact ⟨hpair.log_apply.trans h'.log, h'.tids, hpair.written (by simp) h'.undoes⟩

/-- A rollback between plain effects. -/
theorem joined_throughout_rollback (hfresh : ∀ r ∈ w₀.log, r.tid ≠ m.tid) {pre post : List WorkerEffect}
    (h : Joined w₀ m w) (hpage : w.OnPage) (hpre : ∀ e ∈ pre, e.isPlain ∧ ∀ r, e ≠ .log r)
    (hpost : ∀ e ∈ post, e.isPlain ∧ ∀ r, e = .log r → r.tid = m.tid) :
    process.Throughout (Joined w₀ m) w (pre ++ w.rollback m.tid ++ post) := by
  obtain ⟨suf, h⟩ := h
  exact throughout_rollback h (fun w' e he h' => h'.quiet (hpre e he).1 (hpre e he).2)
    (fun w' e he h' => h.restore hfresh hpage h' he) (fun _ => SinceJoin.joined)
    fun w' e he h' => h'.plain (hpost e he).1 (hpost e he).2

/-- What the worker is given while `t` is its transaction: commands only while a
    transaction is running, and datagrams about `t`. -/
def Concerns (t : Tid) (w : Worker) : Input → Prop
  | .cmd _ _ => w.mem.isTXRun = true
  | .manager _ m => m.tid = t
  | _ => True

instance (t : Tid) (w : Worker) : ∀ inp, Decidable (w.Concerns t inp)
  | .cmd _ _ | .manager _ _ => inferInstanceAs (Decidable (_ = _))
  | .pollTimeout | .restart => isTrue trivial

/-- The invariant at the inputs. -/
def InTransaction (w₀ : Worker) (m : TxMessage) (w : Worker) : Prop :=
  Joined w₀ m w ∧ (w.mem.control = .down ∨ w.mem.curTid = m.tid)

theorem Joined.recoveredTid (h : Joined w₀ m w) (hpage : w.OnPage) : w.recoveredTid = m.tid := by
  obtain ⟨suf, h⟩ := h
  unfold Worker.recoveredTid
  rw [findStateFromRecord_eq hpage, h.log, List.getLast?_append_of_ne_nil _ (by simp)]
  cases hlast : suf.getLast? with
  | none =>
      rw [List.getLast?_eq_none_iff.mp hlast]
      rfl
  | some r =>
      rw [List.getLast?_cons, hlast]
      exact h.tids r (List.mem_of_getLast? hlast)

theorem InTransaction.rollbackTid (h : InTransaction w₀ m w) (hacc : w.accepts inp)
    (hpage : w.ReadsOnPage inp) : w.rollbackTid inp = m.tid := by
  have hup : w.mem.control ≠ .down → w.mem.curTid = m.tid := h.2.resolve_left
  cases inp with
  | cmd c calls => exact hup (by rw [show w.mem.control = .cmdLoop from hacc]; simp)
  | manager src m' => exact hup hacc
  | pollTimeout => exact hup hacc.1
  | restart => exact h.1.recoveredTid (hpage (Or.inr rfl))

theorem InTransaction.recordTid (h : InTransaction w₀ m w) (hacc : w.accepts inp)
    (hconcerns : w.Concerns m.tid inp) (hpage : w.ReadsOnPage inp) : w.recordTid inp = m.tid := by
  have hroll := h.rollbackTid hacc hpage
  cases inp with
  | manager src m' => exact hconcerns
  | cmd c calls => exact hroll
  | pollTimeout => exact hroll
  | restart => exact hroll

/-- The before-image log stays in force between the effects. -/
theorem InTransaction.throughout (hfresh : ∀ r ∈ w₀.log, r.tid ≠ m.tid) (h : InTransaction w₀ m w)
    (hacc : w.accepts inp) (hconcerns : w.Concerns m.tid inp) (hpage : w.ReadsOnPage inp) :
    process.Throughout (Joined w₀ m) w (w.handle inp) := by
  have hrecord : ∀ r, .log r ∈ w.handle inp → r.tid = m.tid := fun r hr =>
    (accounted_handle hr).1.trans (h.recordTid hacc hconcerns hpage)
  cases shape_handle hacc with
  | plain _ hplain =>
      exact Process.throughout_of_preserved h.1 fun w' e he h' =>
        h'.plain (hplain e he) fun r hr => hrecord r (hr ▸ he)
  | rollback pre post hroll heq hpre hpost =>
      rw [h.rollbackTid hacc hpage] at heq
      rw [heq]
      refine joined_throughout_rollback hfresh h.1 (hpage (Or.inl hroll)) hpre fun e he => ⟨hpost e he, ?_⟩
      rintro r rfl
      exact hrecord r (heq ▸ List.mem_append_right _ he)
  | update c calls undo wr stamp hinp _ hpair heq =>
      subst hinp
      rw [heq]
      exact joined_throughout_update h.1 hpair (h.rollbackTid hacc hpage) hconcerns

/-! ## Runs -/

/-- The current transaction after a handler that does not end the process. -/
theorem curTid_exec_handle {t : Tid} (hexit : .exit ∉ w.handle inp) (hcur : w.rollbackTid inp = t)
    (hjoin : ∀ u, w.JoinsFor inp u → u = t) :
    (process.exec w (w.handle inp)).mem.curTid = t := by
  have hkeep : ∀ w' : Worker, ∀ e ∈ w.handle inp, w'.mem.curTid = t → (w'.apply e).mem.curTid = t := by
    intro w' e he hw'
    have hacc := accounted_handle he
    rw [curTid_apply]
    split
    · exact hjoin _ hacc
    · obtain ⟨rfl, rfl⟩ := hacc
      exact hcur
    · exact absurd he hexit
    · exact hw'
  cases inp with
  | restart =>
      -- `findStateFromRecord` sets the transaction first
      let before : List WorkerEffect := [.clock w.crashInfo.vectorClock,
        .clock (tick w.nodeId w.crashInfo.vectorClock), .saveVectorTime,
        .shiviz (.localEvent .restarted), .curTid w.recoveredTid]
      obtain ⟨rest, hrest⟩ : ∃ rest, w.handle .restart = before ++ rest := ⟨_, rfl⟩
      rw [hrest, Process.exec_append]
      refine Process.exec_invariant (I := fun w' : Worker => w'.mem.curTid = t) hcur fun w' e he hw' => ?_
      exact hkeep w' e (hrest ▸ List.mem_append_right _ he) hw'
  | cmd c calls => exact Process.exec_invariant (I := fun w' : Worker => w'.mem.curTid = t) hcur hkeep
  | manager src m' => exact Process.exec_invariant (I := fun w' : Worker => w'.mem.curTid = t) hcur hkeep
  | pollTimeout => exact Process.exec_invariant (I := fun w' : Worker => w'.mem.curTid = t) hcur hkeep

/-- **Step**: an action about the transaction, crashed or complete. -/
theorem InTransaction.step (hfresh : ∀ r ∈ w₀.log, r.tid ≠ m.tid) {a : Act Input}
    (h : InTransaction w₀ m w) (hacc : w.accepts a.input) (hconcerns : w.Concerns m.tid a.input)
    (hpage : w.ReadsOnPage a.input) : InTransaction w₀ m (process.step w a) := by
  have hmid := h.throughout hfresh hacc hconcerns hpage
  refine ⟨Process.step_invariant hmid hmid.last fun w' h' => h'.plain (e := .exit) rfl (by simp), ?_⟩
  rcases step_cases w a with hmem | ⟨hcut, hexit⟩
  · exact Or.inl (by rw [hmem])
  · refine Or.inr ?_
    rw [Process.step, Process.performed, hcut]
    refine curTid_exec_handle hexit (h.rollbackTid hacc hpage) ?_
    rintro u ⟨-, src, m', hinput, -, rfl⟩
    rw [hinput] at hconcerns
    exact hconcerns

/-- The state right after the `JOIN_SUCCESS`. -/
theorem inTransaction_join (src : SockAddr) (hloop : w₀.mem.control = .cmdLoop)
    (hjoin : m.msgID = .joinSuccess) :
    InTransaction w₀ m (process.step w₀ ⟨.manager src m, none⟩) := by
  have hstep : (process.step w₀ ⟨.manager src m, none⟩).log = w₀.log ++ [w₀.joinRecord m] ∧
      (process.step w₀ ⟨.manager src m, none⟩).objData = w₀.objData ∧
      (process.step w₀ ⟨.manager src m, none⟩).mem.curTid = m.tid := by
    simp [Process.step, Process.performed, handle, hloop, handleManagerMsg, hjoin, receive, apply, withMem]
  obtain ⟨hlog, hobj, hcur⟩ := hstep
  exact ⟨⟨[], hlog, by simp, by rw [hobj]; exact Undoes.nil _⟩, Or.inr hcur⟩

/-- An abort is carried out: its handler runs to the end, or at least writes its record. -/
def Aborts (w : Worker) (a : Act Input) : Prop :=
  w.RollsBack a.input ∧ (a.cut = none ∨ ∃ r, .log r ∈ process.performed w a)

/-- Transaction 1 sets `A` 25 times and aborts. -/
def longTransaction : List (Act Input) := List.replicate 25 (newA 7) ++ [command .abort]

/-- The log goes past the page, and the abort leaves `A` as it is. -/
theorem rollback_past_page :
    let w := process.step worker40 (deliver .joinSuccess 1)
    let w' := process.machine.after w (longTransaction.take 25)
    (∀ r ∈ worker40.log, r.tid ≠ 1) ∧ worker40.mem.control = .cmdLoop ∧
      process.machine.Along (fun w a => w.accepts a.input ∧ w.Concerns 1 a.input) w longTransaction ∧
      w'.Aborts (command .abort) ∧
      (process.machine.after w longTransaction).objData.A = 7 ∧ worker40.objData.A = 1 :=
  ⟨by decide, rfl, by decide +kernel, ⟨by decide, Or.inl rfl⟩, by decide +kernel, rfl⟩

/-- An abort that is carried out performs the whole rollback and only plain effects after it. -/
theorem Aborts.performed_eq {a : Act Input} (h : w.Aborts a) (hacc : w.accepts a.input) :
    ∃ pre post, process.performed w a = pre ++ w.rollback (w.rollbackTid a.input) ++ post ∧
      ∀ e ∈ post, e.isPlain := by
  cases shape_handle hacc with
  | plain hno _ => exact absurd h.1 hno
  | update c calls undo wr stamp hinp hkind hpair _ =>
      have hroll := h.1
      rw [hinp] at hroll
      cases hpair <;> simp [RollsBack, AbortsAlone, hkind] at hroll
  | rollback pre post _ heq hpre hpost =>
      obtain ⟨-, hdone⟩ := h
      cases hcut : a.cut with
      | none => exact ⟨pre, post, by rw [Process.performed, hcut]; exact heq, hpost⟩
      | some k =>
          obtain ⟨r, hr⟩ : ∃ r, .log r ∈ process.performed w a := hdone.resolve_left (by simp [hcut])
          have hperf : process.performed w a =
              (pre ++ w.rollback (w.rollbackTid a.input) ++ post).take k ++ [.exit] := by
            rw [Process.performed, hcut, ← heq]
            rfl
          -- the record comes after the rollback, so the rollback is not cut
          have hlen : (pre ++ w.rollback (w.rollbackTid a.input)).length ≤ k := by
            by_contra hlt
            rw [hperf, List.take_append_of_le_length (by omega)] at hr
            have hmem : WorkerEffect.log r ∈ pre ++ w.rollback (w.rollbackTid a.input) := by
              rcases List.mem_append.mp hr with hr | hr
              · exact List.mem_of_mem_take hr
              · simp at hr
            rcases List.mem_append.mp hmem with hmem | hmem
            · exact (hpre _ hmem).2 r rfl
            · exact absurd (mem_rollback hmem) (by simp [WorkerEffect.isRestore])
          refine ⟨pre, post.take (k - (pre ++ w.rollback (w.rollbackTid a.input)).length) ++ [.exit], ?_, ?_⟩
          · rw [hperf, List.take_append, List.take_of_length_le hlen]
            simp only [List.append_assoc]
          · intro e he
            rcases List.mem_append.mp he with he | he
            · exact hpost e (List.mem_of_mem_take he)
            · rw [List.mem_singleton.mp he]
              rfl

/-- **Rollback is exact**: along every run since the join, each abort that is carried out
    leaves the object of the join, and so does a further rollback. -/
theorem rollback_exact (w : Worker) (src : SockAddr) (m : TxMessage) (as : List (Act Input))
    (hfresh : ∀ r ∈ w.log, r.tid ≠ m.tid) (hloop : w.mem.control = .cmdLoop)
    (hjoin : m.msgID = .joinSuccess)
    (hrun : process.machine.Along
      (fun w' a => w'.accepts a.input ∧ w'.Concerns m.tid a.input ∧ w'.ReadsOnPage a.input)
      (process.step w ⟨.manager src m, none⟩) as) :
    process.machine.Along (fun w' a => w'.Aborts a →
        (process.step w' a).objData = w.objData ∧
          ((process.step w' a).OnPage →
            (process.exec (process.step w' a) ((process.step w' a).rollback m.tid)).objData = w.objData))
      (process.step w ⟨.manager src m, none⟩) as := by
  refine hrun.strengthen (I := InTransaction w m) (inTransaction_join src hloop hjoin)
    (fun w' a h ha => h.step hfresh ha.1 ha.2.1 ha.2.2) fun w' a h ha habort => ?_
  obtain ⟨hacc, hconcerns, hpage⟩ := ha
  obtain ⟨suf, hsince⟩ := h.1
  obtain ⟨pre, post, hperf, hpost⟩ := habort.performed_eq hacc
  obtain ⟨suf', hsince'⟩ := (h.step hfresh hacc hconcerns hpage).1
  refine ⟨?_, fun hpage' => hsince'.exec_rollback hfresh hpage' _⟩
  rw [Process.step, hperf, Process.exec_append, objData_exec hpost, Process.exec_append,
    h.rollbackTid hacc hpage]
  exact hsince.exec_rollback hfresh (hpage (Or.inl habort.1)) _

/-- Two updates, the second one cut off between the undo record and the write, and a restart. -/
def updateCrash : List (Act Input) :=
  [newA 7, ⟨.cmd { msgID := .newA, newValue := 9 } ⟨1, none⟩, some 1⟩, ⟨.restart, none⟩]

/-- The restart rolls both updates back. -/
theorem rollback_exact_crash :
    (process.machine.after (process.step worker40 (deliver .joinSuccess 1)) updateCrash).objData =
      worker40.objData := by
  have hexact := rollback_exact worker40 ⟨1, 7⟩ (managerMsg .joinSuccess 1) updateCrash (by decide)
    rfl rfl (by decide +kernel)
  simp only [updateCrash, Machine.along_cons, Machine.after_cons, Machine.after_nil,
    Process.machine_next] at hexact ⊢
  exact (hexact.2.2.1 ⟨by decide +kernel, Or.inl rfl⟩).1

end Worker

end DistributedSystem.Transaction
