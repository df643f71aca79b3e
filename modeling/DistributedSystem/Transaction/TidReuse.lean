import DistributedSystem.Transaction.Irrevocable
import DistributedSystem.Transaction.WorkerReuse

/-!
# Using a transaction id again

A run from the point where `t` is used for a second transaction, against the run in which
that transaction is called `u`. The logs are never cut, and none of the four backward scans
stops between the two transactions: `isCommit` and the loop of the vote timeout at the
manager, `isLocalAbort` and `readValFromRecord` at a worker. Where none of them needs the
records of the first transaction, the two runs are the same up to the name.
-/

namespace DistributedSystem.Transaction

open DistributedSystem.Library

variable {t u : Tid}

/-- The manager's side of a second transaction `t`: the id is free, every input about it is
    about the second transaction, and the records of the first do not matter. -/
def Manager.SecondRun (t u : Tid) (s : Manager) (as : List (Act Manager.Input)) : Prop :=
  s.Reusable t u ∧ Manager.process.machine.Along (fun s' a => s'.accepts a.input ∧
    Manager.NotAbout u a.input ∧ Manager.PastDoesNotMatter t s.log s' a.input) s as

instance (s : Manager) (as : List (Act Manager.Input)) : Decidable (s.SecondRun t u as) :=
  inferInstanceAs (Decidable (_ ∧ _))

/-- A worker's side: `t` is joined in the state `w`, and the run goes on with `as`. When the
    second transaction is called `u`, the state at the join is `w'`. -/
def Worker.SecondRun (t u : Tid) (w w' : Worker) (join : Worker.Input) (as : List (Act Worker.Input)) :
    Prop :=
  w.Joins t join ∧ (∀ r ∈ w.log, r.tid ≠ u) ∧ Worker.SameButNames t u w w' ∧
    Worker.process.machine.Along (fun v a => v.accepts a.input ∧ Worker.NotAbout u a.input ∧
      Worker.PastDoesNotMatter t w.log v a.input) (Worker.process.step w ⟨join, none⟩) as

/-- **A transaction id can be used again** where the records of the first transaction do not
    matter: all effects of the manager and of every worker, so all replies, decisions, votes
    and rollbacks, are those of the run with a new id, up to the name. -/
theorem tid_reuse_clean (ht : t ≠ 0) (hu : u ≠ 0) (htu : t ≠ u) :
    (∀ s as, Manager.SecondRun t u s as →
      Manager.process.trace s (as.map fun a => a.map (Manager.Input.rename (swapTid t u))) =
        (Manager.process.trace s as).map (ManagerEffect.rename (swapTid t u))) ∧
    ∀ w w' join as, Worker.SecondRun t u w w' join as →
      Worker.process.trace w'
          ((⟨join, none⟩ :: as).map fun a => a.map (Worker.Input.rename (swapTid t u))) =
        (Worker.process.trace w (⟨join, none⟩ :: as)).map (WorkerEffect.rename (swapTid t u)) := by
  refine ⟨fun s as h => ?_, fun w w' join as h => ?_⟩
  · exact Manager.trace_swap ht hu h.1 (h.2.mono fun _ _ hC => hC.2)
  · obtain ⟨hjoin, hfresh, hsame, hrun⟩ := h
    exact Worker.trace_swap ht hu htu hfresh hsame hjoin hrun

/-- A transaction `1` of worker 40 that commits. -/
def Manager.commitRun : List (Act Manager.Input) :=
  [fromWorker .begintx 1, fromWorker .jointx 1, fromWorker .commit 1, fromWorker .voteCommit 1]

/-- One that aborts, and a poll for its decision. -/
def Manager.abortRun : List (Act Manager.Input) :=
  [fromWorker .begintx 1, fromWorker .jointx 1, fromWorker .commit 1, fromWorker .voteAbort 1,
    fromWorker .pollDecision 1]

/-- A transaction `1` at the worker that commits. -/
def Worker.commitRun : List (Act Worker.Input) :=
  [deliver .joinSuccess 1, newA 7, deliver .prepareCommit 1, deliver .decideCommit 1]

/-- Two transactions that commit at the manager, and a poll; and at a worker the second one,
    after a transaction `3`, is rolled back. -/
theorem tid_reuse_clean_commit :
    let s := Manager.process.machine.after (Manager.start 7) Manager.commitRun
    let w := Worker.process.machine.after Worker.worker40
      (Worker.commitRun ++ [Worker.deliver .joinSuccess 3, Worker.deliver .decideCommit 3])
    let second := Manager.commitRun ++ [Manager.fromWorker .pollDecision 1]
    let join := Worker.Input.manager ⟨1, 7⟩ (Worker.managerMsg .joinSuccess 1)
    let aborted := [Worker.newA 9, Worker.command .abort]
    Manager.process.trace s (second.map fun a => a.map (Manager.Input.rename (swapTid 1 2))) =
        (Manager.process.trace s second).map (ManagerEffect.rename (swapTid 1 2)) ∧
      Worker.process.trace w
          ((⟨join, none⟩ :: aborted).map fun a => a.map (Worker.Input.rename (swapTid 1 2))) =
        (Worker.process.trace w (⟨join, none⟩ :: aborted)).map (WorkerEffect.rename (swapTid 1 2)) := by
  intro s w second join aborted
  have h := tid_reuse_clean (t := 1) (u := 2) (by decide) (by decide) (by decide)
  refine ⟨h.1 s second (by decide +kernel), h.2 w w join aborted ⟨by decide +kernel, by decide +kernel, ?_, ?_⟩⟩
  · exact Worker.SameButNames.refl w
  · decide +kernel

/-- The decision in the last message of a run of the manager. -/
def lastReply (es : List ManagerEffect) : Option MsgId :=
  match es.getLast? with
  | some (.send _ m) => some m.msgID
  | _ => none

/-- The first transaction commits and the second one aborts, and a poll about the second one
    is answered with the commit of the first. At a worker, the abort of the second transaction
    also takes back the first, which is committed. With a new id neither happens. -/
theorem first_transaction_shows :
    let s := Manager.process.machine.after (Manager.start 7) Manager.commitRun
    let w := Worker.process.machine.after Worker.worker40 Worker.commitRun
    let second := [Worker.deliver .joinSuccess 1, Worker.newA 9, Worker.command .abort]
    (s.Reusable 1 2 ∧
      Manager.process.machine.Along Manager.process.machine.enabled s Manager.abortRun ∧
      lastReply (Manager.process.trace s Manager.abortRun) = some .decideCommit ∧
      lastReply (Manager.process.trace s
        (Manager.abortRun.map fun a => a.map (Manager.Input.rename (swapTid 1 2)))) =
        some .decideAbort) ∧
    Worker.process.machine.Along Worker.process.machine.enabled w second ∧
      (Worker.process.machine.after w second).objData.A = 1 ∧
      (Worker.process.machine.after w
        (second.map fun a => a.map (Worker.Input.rename (swapTid 1 2)))).objData.A = 7 := by
  decide +kernel

end DistributedSystem.Transaction
