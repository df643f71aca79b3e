import DistributedSystem.Bully.Group
import DistributedSystem.Bully.Suspicion

/-!
# The thread behind an AYA

The receive timeout of a node that has last sent AYA cancels the thread that `threadPtr`
points to. In a group there always is one: a coordinator is a member above, so the election
that the timeout calls when the thread is gone overwrites `lastSent`.
-/

namespace DistributedSystem.Bully

open DistributedSystem.Library

namespace Group

open Node

/-- The node on a port is one of the group. -/
def IsMember (g : Group) (p : ℕ) : Prop := p ∈ (g.groupMems p).map GroupMem.portno

/-- A node that has last sent AYA has the thread that sent it. -/
def HasThread (n : Node) : Prop := n.control ≠ .exited → n.lastSent = some .aya → n.aya ≠ none

/-- Messages come from members and follow the port order, and the threads are where they
    should be. -/
structure Threaded (g : Group) (s : GroupState) : Prop where
  ordered : Ordered s
  senders : ∀ d ∈ s.net, g.IsMember d.src
  targets : ∀ p target, (s.nodes p).aya = some target → g.IsMember target.port
  threads : ∀ p, HasThread (s.nodes p)

variable {g : Group} {s : GroupState} {p : ℕ} {i : Input} {cut : Option ℕ} {st : Stimulus}

/-- All nodes know the members. -/
theorem exists_mem_of_isMember (h : g.IsMember p) (q : ℕ) : ∃ m ∈ g.groupMems q, m.portno = p := by
  have hmem : p ∈ (g.groupMems q).map GroupMem.portno := ((g.known p q).map GroupMem.portno).subset h
  exact List.mem_map.mp hmem

/-- A message that is handled is one of the net. -/
theorem exists_mem_net_of_input {src : SockAddr} {m : Msg}
    (hin : input s.net p st = some (.message src m)) : ∃ d ∈ s.net, d.src = src.port := by
  cases st with
  | deliver k addr =>
      unfold input at hin
      cases hk : s.net[k]? with
      | none => simp [hk] at hin
      | some d =>
          simp only [hk, Option.ite_none_right_eq_some, Option.some.injEq, Input.message.injEq] at hin
          obtain ⟨-, rfl, -⟩ := hin
          exact ⟨d, List.mem_of_getElem? hk, rfl⟩
  | timeout => exact absurd hin (by simp [input])
  | thread => exact absurd hin (by simp [input])

/-- A node with a thread has a member above it to call. -/
theorem Threaded.higher_ne_nil (h : Threaded g s) (haya : (s.nodes p).aya ≠ none) :
    higher (g.config p) ≠ [] := by
  obtain ⟨target, htarget⟩ := Option.ne_none_iff_exists'.mp haya
  obtain ⟨m, hm, hport⟩ := exists_mem_of_isMember (h.targets p target htarget) p
  have habove : p < m.portno := hport ▸ h.ordered.targets p target htarget
  exact List.ne_nil_of_mem (mem_higher.mpr ⟨hm, habove⟩)

/-- A node that has died is down, whatever it had done before. -/
theorem control_of_cut (k : ℕ) :
    ((process (g.config p)).step (s.nodes p) ⟨i, some k⟩).control = .exited := by
  simp only [Process.step, Process.performed, Process.exec_append]
  rfl

/-- **Step lemma** for the node that acts. -/
theorem hasThread_step (h : Threaded g s) (haccepts : accepts (g.config p) (s.nodes p) i) :
    HasThread ((process (g.config p)).step (s.nodes p) ⟨i, cut⟩) := by
  intro hup hsent
  cases cut with
  | some k => exact absurd (control_of_cut k) hup
  | none =>
      change ((process (g.config p)).exec (s.nodes p) (handle (g.config p) (s.nodes p) i)).control ≠
        .exited at hup
      have hbefore := election_eq (control_of_accepts haccepts)
      have hnext := (election_handle hbefore i).symm.trans (election_eq hup)
      rcases Election.lastSent_aya_next hnext hsent with ⟨-, haya, -⟩ | ⟨hold, hkept⟩
      · exact haya
      · -- the thread was there before, and so was somebody to call
        have hthread := h.threads p (control_of_accepts haccepts) hold
        intro hnone
        rcases hkept hnone with hgone | halone
        · exact hthread hgone
        · exact h.higher_ne_nil hthread halone

/-- A target is an old one, or the sender of a COORD. -/
theorem isMember_of_step (h : Threaded g s) (hin : input s.net p st = some i) {target : SockAddr}
    (htarget : ((process (g.config p)).step (s.nodes p) ⟨i, cut⟩).aya = some target) :
    g.IsMember target.port := by
  cases cut with
  | none =>
      rcases target_of_handle htarget with hold | ⟨m, rfl, -⟩
      · exact h.targets p target hold
      · obtain ⟨d, hd, hport⟩ := exists_mem_net_of_input hin
        exact hport ▸ h.senders d hd
  | some k =>
      -- the thread dies with the process
      simp only [Process.step, Process.performed, Process.exec_append] at htarget
      exact absurd htarget (by simp [process, apply])

theorem threaded_nodeStep (h : Threaded g s) (hmember : g.IsMember p)
    (hin : input s.net p st = some i) (haccepts : accepts (g.config p) (s.nodes p) i) :
    Threaded g (g.nodeStep s p ⟨i, cut⟩) := by
  refine ⟨ordered_nodeStep h.ordered hin, fun d hd => ?_, fun q target htarget => ?_, fun q => ?_⟩
  · rcases List.mem_append.mp hd with hd | hd
    · exact h.senders d hd
    · obtain ⟨rfl, -⟩ := mem_filterMap_datagram.mp hd
      exact hmember
  · by_cases hq : q = p
    · subst hq
      simp only [nodeStep, Function.update_self] at htarget
      exact isMember_of_step h hin htarget
    · simp only [nodeStep, Function.update_of_ne hq] at htarget
      exact h.targets q target htarget
  · by_cases hq : q = p
    · subst hq
      simp only [nodeStep, Function.update_self]
      exact hasThread_step h haccepts
    · simp only [nodeStep, Function.update_of_ne hq]
      exact h.threads q

/-- **Step lemma** for the group. -/
theorem threaded_next (h : Threaded g s) {a : GroupAct} (ha : g.enabled s a) :
    Threaded g (g.next s a) := by
  cases a with
  | run p a =>
      obtain ⟨hmember, i, hin, haccepts⟩ := ha
      simp only [next, Option.mem_def.mp hin]
      exact threaded_nodeStep h hmember hin haccepts
  | restart p =>
      refine ⟨ordered_next h.ordered (.restart p), h.senders, fun q target htarget => ?_, fun q => ?_⟩
      · by_cases hq : q = p
        · subst hq
          simp [next, Node.start] at htarget
        · simp only [next, Function.update_of_ne hq] at htarget
          exact h.targets q target htarget
      · by_cases hq : q = p
        · subst hq
          simp [next, Node.start, HasThread]
        · simp only [next, Function.update_of_ne hq]
          exact h.threads q

theorem threaded_start (g : Group) : Threaded g g.start where
  ordered := ordered_start g
  senders _ hd := absurd hd (by simp [start])
  targets _ _ htarget := absurd htarget (by simp [start, Node.start])
  threads _ := by simp [start, Node.start, HasThread]

/-- **The AYA timeout never cancels a missing thread**: in every state that a run of a group
    reaches, a running node that has last sent AYA has a thread, and its receive timeout
    begins by cancelling it. -/
theorem aya_timeout_has_thread (g : Group) (as : List GroupAct)
    (hrun : g.machine.Along g.enabled g.start as) (p : ℕ)
    (hup : ((g.machine.after g.start as).nodes p).control ≠ .exited)
    (hsent : ((g.machine.after g.start as).nodes p).lastSent = some .aya) :
    ((g.machine.after g.start as).nodes p).aya ≠ none ∧
      (receiveTimeout (g.config p) ((g.machine.after g.start as).nodes p)).head? =
        some .cancelThread := by
  have hthreaded : Threaded g (g.machine.after g.start as) :=
    hrun.invariant (threaded_start g) fun s a h ha => threaded_next h ha
  have haya := hthreaded.threads p hup hsent
  refine ⟨haya, ?_⟩
  obtain ⟨target, htarget⟩ := Option.ne_none_iff_exists'.mp haya
  simp only [receiveTimeout, hsent, htarget, List.head?_cons]

/-- Node 1 follows node 3 and has just asked it. -/
theorem aya_timeout_has_thread_three :
    ((three.machine.after three.start electionOfThree).nodes 1).aya ≠ none ∧
      (receiveTimeout (three.config 1)
        ((three.machine.after three.start electionOfThree).nodes 1)).head? = some .cancelThread :=
  aya_timeout_has_thread three electionOfThree (by decide +kernel) 1 (by decide +kernel)
    (by decide +kernel)

end Group

end DistributedSystem.Bully
