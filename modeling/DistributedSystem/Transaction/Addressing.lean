import DistributedSystem.Transaction.Participants
import DistributedSystem.Transaction.System

/-!
# Who is where

Workers are known by node id and address, and the two always go together: in the table of
the manager, in the messages of the workers, and in the `PREPARE_COMMIT` that a worker
answers under the node id it is given.
-/

namespace DistributedSystem.Transaction

open DistributedSystem.Library

namespace System

/-- An entry is empty, or holds a worker under its own address. -/
def EntryOf (cfg : Config) (w : W) : Prop :=
  w.Empty ∨ w.port ≠ 0 ∧ w.nodeId ≠ 0 ∧ w.workerAddr = cfg.workerAddr w.nodeId

/-- Node ids and addresses agree, in the table and on the net. -/
structure Addressed (cfg : Config) (s : System) : Prop where
  entries : ∀ i j, EntryOf cfg ((s.manager.workerInfo i).workers j)
  senders : ∀ src m, .toManager src m ∈ s.net → m.nodeId ≠ 0 ∧ src = cfg.workerAddr m.nodeId
  prepares : ∀ dst m, .toWorker dst m ∈ s.net → m.msgID = .prepareCommit →
    m.nodeId ≠ 0 ∧ dst = cfg.workerAddr m.nodeId
  nodeIds : ∀ n, (s.workers n).nodeId = n

variable {cfg : Config} {s : System}

theorem addressed_start (cfg : Config) : Addressed cfg (start cfg) where
  entries _ _ := Or.inl ⟨rfl, rfl, rfl⟩
  senders _ _ h := absurd h (by simp [start])
  prepares _ _ h := absurd h (by simp [start])
  nodeIds _ := rfl

/-- A worker sends under its own node id and address, votes included. -/
theorem Addressed.workerStep (h : Addressed cfg s) {n : NodeId} {st : WorkerStimulus}
    {cut : Option ℕ} {input : Worker.Input} (hn : n ≠ 0)
    (hin : workerInput cfg n s.net st = some input) :
    Addressed cfg (workerStep cfg s n ⟨input, cut⟩) where
  entries := h.entries
  senders src m hm := by
    rcases List.mem_append.mp hm with hm | hm
    · exact h.senders src m hm
    obtain ⟨rfl, dst, hsend⟩ := toManager_mem_workerPacket hm
    rcases Worker.accounted_performed hsend with ⟨hid, -⟩ | ⟨src', p, rfl, hp, -, hid, -⟩
    · rw [hid, h.nodeIds]
      exact ⟨hn, rfl⟩
    · -- a vote carries the node id of the PREPARE_COMMIT, which was sent to this worker
      obtain ⟨hp0, haddr⟩ := h.prepares _ p (mem_net_of_workerInput hin) hp
      rw [hid]
      exact ⟨hp0, haddr⟩
  prepares dst m hm := by
    refine h.prepares dst m ?_
    exact (List.mem_append.mp hm).resolve_right toWorker_notMem_workerPacket
  nodeIds n' := by
    by_cases hne : n' = n
    · subst hne
      simp only [System.workerStep, Function.update_self]
      exact (Worker.nodeId_exec _ _).trans (h.nodeIds n')
    · simpa [System.workerStep, Function.update_of_ne hne] using h.nodeIds n'

/-- The manager dies before it handles anything. -/
theorem Addressed.crash (h : Addressed cfg s) (input : Manager.Input) :
    Addressed cfg (s.managerStep ⟨input, some 0⟩) where
  entries := h.entries
  senders src m hm := h.senders src m
    ((List.mem_append.mp hm).resolve_right toManager_notMem_managerPacket)
  prepares dst m hm hk := by
    rcases List.mem_append.mp hm with hm | hm
    · exact h.prepares dst m hm hk
    · simp [Process.performed, managerPacket] at hm
  nodeIds := h.nodeIds

/-- The manager handles an input to its end. -/
theorem Addressed.managerStep (h : Addressed cfg s) {st : ManagerStimulus} {input : Manager.Input}
    (hin : managerInput s.net st = some input) :
    Addressed cfg (s.managerStep ⟨input, none⟩) := by
  have hslot : ∀ k, Manager.SlotStep s.manager input k (System.managerStep s ⟨input, none⟩).manager :=
    Manager.slotStep_handle s.manager input
  have hsender : ∀ {src m u}, input = .message src m u →
      m.nodeId ≠ 0 ∧ src = cfg.workerAddr m.nodeId := by
    rintro src m u rfl
    exact h.senders src m (mem_net_of_managerInput hin)
  refine
    { entries := fun i j => ?_
      senders := fun src m hm => h.senders src m
        ((List.mem_append.mp hm).resolve_right toManager_notMem_managerPacket)
      prepares := fun dst m hm hk => ?_
      nodeIds := h.nodeIds }
  · cases hslot i with
    | cleared hc => exact Or.inl (hc.2 j)
    | begun _ hw => exact (congrFun hw j).symm ▸ h.entries i j
    | kept _ hw =>
        rcases hw j with hsame | ⟨src, m, u, hinput, -, -, -, hw⟩ | ⟨src, m, u, hinput, -, -, hown, hw⟩
        · exact hsame.symm ▸ h.entries i j
        · obtain ⟨hid, hsrc⟩ := hsender hinput
          refine hw.symm ▸ Or.inr ⟨?_, hid, hsrc⟩
          rw [hsrc]
          exact cfg.port_ne_zero _
        · -- the entry that votes is not empty
          obtain ⟨hid, -⟩ := hsender hinput
          have hown := Manager.nodeId_of_ownEntry hown
          rcases h.entries i j with hempty | hfull
          · exact absurd (hown.symm.trans hempty.1) hid
          · exact hw.symm ▸ Or.inr hfull
  · rcases List.mem_append.mp hm with hm | hm
    · exact h.prepares dst m hm hk
    · obtain ⟨src, p, u, -, -, -, w, hw, rfl, hid⟩ :=
        Manager.prepare_mem_handle (toWorker_mem_managerPacket hm) hk
      obtain ⟨i, -, hport, j, rfl⟩ := Manager.mem_targets.mp hw
      rcases h.entries i j with hempty | ⟨-, hne, haddr⟩
      · exact absurd hempty.2.1 hport
      · rw [if_neg hne] at hid
        rw [hid]
        exact ⟨hne, haddr⟩

end System

end DistributedSystem.Transaction
