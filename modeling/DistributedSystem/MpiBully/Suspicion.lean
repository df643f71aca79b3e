import DistributedSystem.MpiBully.Runs

/-!
# When a rank suspects its coordinator

A timeout with AYA in `lastSent` takes the coordinator for dead. The IAA does not take AYA
away: the next AYA is counted on to start the wait again. It comes too late when its
interval is longer than the timeout.
-/

namespace DistributedSystem.MpiBully

open DistributedSystem.Library

namespace Node

variable {c : Config} {rank rn : ℕ} {n : Node} {g : Memory} {i : Input} {tested : Status}

/-- The `switch` of the timeout takes the case AYA: "coord is dead". -/
def Suspects (c : Config) (n : Node) : Prop :=
  n.halted = false ∧ n.coordDead = false ∧ c.timeoutValue ≠ 0 ∧ n.TimedOut c ∧
    n.lastSent = some .aya

instance (c : Config) (n : Node) : Decidable (Suspects c n) := by
  unfold Suspects; infer_instance

/-! ## Where AYA comes from -/

theorem lastSent_onMessage (h : (onMessage c rank rn tested n).lastSent = some .aya) :
    n.lastSent = some .aya := by
  unfold onMessage at h
  split at h
  · unfold onElection at h
    simp only at h
    split at h
    · exact h
    · -- the loops leave ELECTION, COORD or nothing
      split at h
      · simp only [sendLoop_lastSent] at h
        split at h
        · split at h
          · exact absurd h (by simp)
          · exact absurd h (by simp)
        · exact absurd h (by simp)
      · simp only [sendLoop_lastSent] at h
        split at h
        · exact absurd h (by simp)
        · exact absurd h (by simp)
  · unfold onAnswer at h
    split at h
    · exact absurd h (by simp)
    · split at h
      · exact absurd h (by simp)
      · exact h
  · exact h
  · unfold onAYA at h
    simp only at h
    split at h
    · exact absurd h (by simp [isend, count])
    · exact absurd h (by simp [count])
  · exact h
  · exact h

/-- AYA is in `lastSent` since before, or a tick has just sent one. -/
theorem lastSent_receive (g : Memory) (h : (receive c rank n i).lastSent = some .aya) :
    n.lastSent = some .aya ∨
      (memoryAt c rank n g i).answered = false ∧ (receive c rank n i).tick ≠ 0 ∧
        (receive c rank n i).halted = n.halted ∧ (receive c rank n i).coordDead = false := by
  cases hdead : n.coordDead with
  | true =>
      cases i with
      | clock rn tested =>
          rw [receive_clock_dead hdead] at h
          exact Or.inl h
      | message m rn tested =>
          rw [receive_message_dead hdead] at h
          exact Or.inl h
      | revive tested => exact absurd h (by simp [receive])
  | false =>
      cases i with
      | clock rn tested =>
          unfold memoryAt
          rw [receive_clock hdead] at h ⊢
          rcases onClock_cases c rank rn tested (n.await ⟨0, .clock⟩) with
            ⟨heq, -⟩ | ⟨heq, -⟩ | ⟨heq, -⟩
          · rw [heq] at h
            exact Or.inl h
          · rw [heq] at h
            exact Or.inl h
          · rw [heq]
            -- this tick sends an AYA, which is not answered yet
            exact Or.inr ⟨rfl, Nat.succ_ne_zero _, rfl, hdead⟩
      | message m rn tested =>
          rw [receive_message hdead] at h
          have haya := lastSent_onMessage h
          exact Or.inl haya
      | revive tested => exact absurd h (by simp [receive])

theorem lastSent_callElection (tested : Status) (hhigher : n.lastSent = some .aya → higher c rank ≠ []) :
    (callElection c rank tested n).lastSent ≠ some .aya := by
  intro h
  simp only [callElection, sendLoop_lastSent] at h
  split at h
  · rename_i hnil
    exact hhigher h hnil
  · exact absurd h (by simp)

theorem lastSent_declare (hne : n.lastSent ≠ some .aya) :
    (declare rank tested n).lastSent ≠ some .aya := by
  intro h
  simp only [declare, sendLoop_lastSent] at h
  split at h
  · exact hne h
  · exact absurd h (by simp)

theorem lastSent_checkTimeout (hne : n.lastSent ≠ some .aya) :
    (checkTimeout c rank tested n).lastSent ≠ some .aya := by
  have hcall : (callElection c rank tested n).lastSent ≠ some .aya :=
    lastSent_callElection tested fun haya => absurd haya hne
  rcases checkTimeout_cases c rank tested n with heq | ⟨heq, -⟩ | ⟨heq, -⟩
  · rw [heq]
    exact hne
  · rw [heq]
    exact hne
  rw [heq]
  rcases onTimeout_cases c rank tested n with ⟨heq, -⟩ | ⟨heq, -⟩ | ⟨heq, -⟩ | heq
  · rw [heq]
    rcases timeoutIdle_cases c rank tested n with ⟨heq, -⟩ | ⟨heq, -⟩ | heq
    · rw [heq]
      exact hcall
    · rw [heq]
      exact lastSent_declare hne
    · rw [heq]
      exact hne
  · rw [heq]
    exact lastSent_declare hne
  · rw [heq]
    exact hcall
  · rw [heq]
    exact hne

/-- At a timeout of one tick, a tick that sends AYA ends in an election. -/
theorem lastSent_handle (hone : c.timeoutValue.natAbs = 1) (hrunning : n.halted = false)
    (hne : n.lastSent ≠ some .aya)
    (hhigher : (receive c rank n i).lastSent = some .aya → higher c rank ≠ []) :
    (handle c rank n i).lastSent ≠ some .aya := by
  unfold handle
  by_cases haya : (receive c rank n i).lastSent = some .aya
  · obtain ⟨-, htick, hhalted, hdead⟩ := (lastSent_receive {} haya).resolve_left hne
    have hdue : (receive c rank n i).TimedOut c := by
      refine ⟨?_, htick⟩
      rw [hone]
      exact Nat.mod_one _
    rw [checkTimeout_of_timedOut (by omega) ⟨hhalted.trans hrunning, hdead⟩ hdue]
    simp only [onTimeout, haya]
    exact lastSent_callElection _ hhigher
  · exact lastSent_checkTimeout haya

/-! ## What is answered -/

theorem answered_sends {ms : List Packet} (h : g.answered = false) : (g.sends ms).answered = false := by
  induction ms generalizing g with
  | nil => exact h
  | cons m ms ih =>
      show ((g.send m).sends ms).answered = false
      refine ih ?_
      unfold Memory.send
      split
      · exact h
      · rfl
      · exact h

theorem answered_hears (h : g.answered = false)
    (hno : ∀ m rn tested, i = .message m rn tested → m.tag ≠ .iaa) :
    (g.hears n i).answered = false := by
  cases i with
  | clock rn tested => exact h
  | message m rn tested =>
      have htag := hno m rn tested rfl
      simp only [Memory.hears]
      split
      · exact h
      · simp [h, htag]
  | revive tested => exact h

/-- With AYA intervals that fit, a rank that is suspected has not answered. -/
theorem not_answered_of_suspects (hfits : Fits c) (h : Steady c rank n) (hw : Heard n g → Window n)
    (hsrc : ∀ m rn tested, i = .message m rn tested → m.src ≠ 0)
    (hs : (receive c rank n i).Suspects c) : (memoryAt c rank n g i).answered = false := by
  obtain ⟨hrunning, -, -, hdue, haya⟩ := hs
  rw [← Bool.not_eq_true]
  intro hanswered
  exact not_window_of_timedOut hfits (steady_receive h hsrc) hdue
    (window_receive h hw hsrc hrunning (Or.inr ⟨hanswered, haya⟩))

end Node

namespace System

/-- If a rank takes its coordinator for dead, its latest AYA has not been answered by an IAA
    that it has processed. -/
def TrueSuspicion (c : Config) (x : System × (ℕ → Memory)) (a : SystemAct) : Prop :=
  ∀ i ∈ input x.1.net a.rank a.stimulus, ((x.1.nodes a.rank).receive c a.rank i).Suspects c →
    ((x.1.nodes a.rank).memoryAt c a.rank (x.2 a.rank) i).answered = false

instance (c : Config) (x : System × (ℕ → Memory)) (a : SystemAct) :
    Decidable (TrueSuspicion c x a) := by
  unfold TrueSuspicion; infer_instance

/-- The parameters that exclude a false suspicion: there is nobody to ask, every tick is a
    timeout or none is, every AYA interval fits into a timeout, or no coordinator answers. -/
def SuspectsTruly (c : Config) : Prop :=
  c.size ≤ 2 ∨ c.timeoutValue.natAbs ≤ 1 ∨ Node.Fits c ∨ 100 ≤ c.sendFailure

/-- No IAA is in flight, and none has been processed. -/
structure Unanswered (x : System × (ℕ → Memory)) : Prop where
  net : ∀ m ∈ x.1.net, m.tag ≠ .iaa
  memory : ∀ rank, (x.2 rank).answered = false

/-- What the ranks keep, for each kind of parameters. -/
structure Asked (c : Config) (x : System × (ℕ → Memory)) : Prop where
  kept : Kept c x
  quick : c.timeoutValue.natAbs = 1 → ∀ rank, (x.1.nodes rank).lastSent ≠ some .aya
  fits : Node.Fits c → Windowed x
  unanswered : 100 ≤ c.sendFailure → Unanswered x

variable {c : Config} {x : System × (ℕ → Memory)} {a : SystemAct} {as : List SystemAct}

theorem not_iaa_of_input {i : Input} (h : Unanswered x)
    (hin : input x.1.net a.rank a.stimulus = some i) :
    ∀ m rn tested, i = .message m rn tested → m.tag ≠ .iaa := by
  rintro m rn tested rfl
  exact h.net m (mem_net_of_input hin).1

/-- **Step lemma**, where no coordinator answers. -/
theorem unanswered_next (hfail : 100 ≤ c.sendFailure) (h : Unanswered x) (ha : enabled c x.1 a) :
    Unanswered ((remembered c).next x a) := by
  obtain ⟨-, -, i, hin, -⟩ := ha
  rw [remembered_next hin]
  refine ⟨fun m hm htag => ?_, fun rank => ?_⟩
  · rcases List.mem_append.mp hm with hm | hm
    · exact h.net m (mem_of_mem_remaining hm) htag
    · have hsends := (Node.sends_handle hm).2
      rw [htag] at hsends
      cases hsends with
      | iaa hi hk hdst hrn => omega
  · by_cases hrank : rank = a.rank
    · subst hrank
      simp only [Function.update_self]
      exact Node.answered_sends (Node.answered_hears (h.memory a.rank) (not_iaa_of_input h hin))
    · simp only [Function.update_of_ne hrank]
      exact h.memory rank

theorem higher_ne_nil_of_asking {i : Input} (h : Kept c x)
    (hin : input x.1.net a.rank a.stimulus = some i)
    (haya : ((x.1.nodes a.rank).receive c a.rank i).lastSent = some .aya) :
    higher c a.rank ≠ [] :=
  Node.higher_ne_nil_of_hasCoord (hasCoord_receive h.ranked hin) ((h.steady_receive hin).asking haya)

/-- **Step lemma**, where every tick is a timeout. -/
theorem quick_next (hone : c.timeoutValue.natAbs = 1) (hkept : Kept c x)
    (h : ∀ rank, (x.1.nodes rank).lastSent ≠ some .aya) (ha : enabled c x.1 a) :
    ∀ rank, (((remembered c).next x a).1.nodes rank).lastSent ≠ some .aya := by
  obtain ⟨-, -, i, hin, haccepts⟩ := ha
  have hrunning := Node.not_halted_of_accepts haccepts
  intro rank
  rw [remembered_next hin]
  by_cases hrank : rank = a.rank
  · subst hrank
    simp only [nodeStep, Function.update_self]
    exact Node.lastSent_handle hone hrunning (h a.rank) (higher_ne_nil_of_asking hkept hin)
  · simp only [nodeStep, Function.update_of_ne hrank]
    exact h rank

/-- **Step lemma** -/
theorem asked_next (h : Asked c x) (ha : enabled c x.1 a) : Asked c ((remembered c).next x a) where
  kept := kept_next h.kept ha
  quick hone := quick_next hone h.kept (h.quick hone) ha
  fits hfits := windowed_next hfits h.kept (h.fits hfits) ha
  unanswered hfail := unanswered_next hfail (h.unanswered hfail) ha

theorem asked_beginning (c : Config) : Asked c (beginning c) where
  kept := kept_beginning c
  quick _ rank haya := (steady_start c rank).asking haya (by
    show (Node.start c rank).coordNode = 0
    unfold Node.start
    split
    · simp
    · rfl)
  fits _ := windowed_beginning c
  unanswered _ := by
    refine ⟨fun m hm htag => ?_, fun _ => rfl⟩
    have hm' : m ∈ Node.packets 1 .election 0 (higher c 1) := by
      have hout : (beginning c).1.net = (Node.start c 1).outbox := rfl
      rw [hout] at hm
      simpa [Node.start] using hm
    exact absurd ((Node.mem_packets hm').2.1.symm.trans htag) (by simp)

theorem trueSuspicion_of_asked (hc : SuspectsTruly c) (h : Asked c x) (ha : enabled c x.1 a) :
    TrueSuspicion c x a := by
  rintro i hin hs
  obtain ⟨hpos, hlt, i', hin', haccepts⟩ := ha
  obtain rfl : i = i' := Option.some.inj (hin.symm.trans hin')
  have haya := hs.2.2.2.2
  rcases hc with hsmall | hquick | hfits | hfail
  · -- rank 1 is the highest
    obtain ⟨hup, hsize⟩ := (hasCoord_receive h.kept.ranked hin).resolve_left
      ((h.kept.steady_receive hin).asking haya)
    omega
  · have hne := hs.2.2.1
    have hone : c.timeoutValue.natAbs = 1 := by omega
    exact ((Node.lastSent_receive (x.2 a.rank) haya).resolve_left (h.quick hone a.rank)).1
  · have hrunning := Node.not_halted_of_accepts haccepts
    exact Node.not_answered_of_suspects hfits (h.kept.steady a.rank)
      (h.fits hfits a.rank hrunning) (h.kept.source hin) hs
  · have hun := h.unanswered hfail
    exact Node.answered_sends (Node.answered_hears (hun.memory a.rank) (not_iaa_of_input hun hin))

/-- **True suspicions**, with parameters that exclude others. -/
theorem trueSuspicion_along (hc : SuspectsTruly c)
    (hrun : (machine c).Along (enabled c) (start c) as) :
    (remembered c).Along (TrueSuspicion c) (beginning c) as := by
  have hall : (remembered c).Along (fun x a => enabled c x.1 a) (beginning c) as :=
    Machine.along_watch.mpr hrun
  exact hall.strengthen (asked_beginning c) (fun x a hx ha => asked_next hx ha)
    fun x a hx ha => trueSuspicion_of_asked hc hx ha

/-! ## Runs with a false suspicion -/

/-- The first AYA of a rank, where the timeout is longer than a tick. -/
theorem Elected.handle_clock {r rn : ℕ} (h : Elected c r x) (htimeout : 1 < c.timeoutValue.natAbs)
    (htwice : twiceAYATime c ≠ 0) (hsize : 1 < c.size) :
    (x.1.nodes r).handle c r (.clock rn ⟨0, .clock⟩) =
      (x.1.nodes r).asked c r rn ⟨0, .clock⟩ := by
  unfold Node.handle
  rw [Node.receive_asked h.running htwice h.AYARate (by rw [h.coordNode]; omega)]
  refine Node.checkTimeout_of_not_timedOut (by omega) fun hdue => ?_
  have hmod : ((x.1.nodes r).tick + 1) % c.timeoutValue.natAbs = 0 := hdue.1
  rw [h.tick, Nat.mod_eq_of_lt (by omega)] at hmod
  omega

/-- An IAA of the coordinator answers. -/
theorem answered_remember {n : Node} {g : Memory} {m : Packet} {rank rn : ℕ} {tested : Status}
    (hne : c.timeoutValue ≠ 0) (hrun : n.Running) (htag : m.tag = .iaa) (hsrc : m.src = g.latestAYA) :
    (n.remember c rank g (.message m rn tested)).answered = true := by
  have htag' : (n.await ⟨m.src, m.tag⟩).status.MPI_TAG = .iaa := htag
  unfold Node.remember
  rw [Node.handle_message rank rn m tested hne hrun]
  simp only [Node.onMessage, htag']
  show (g.hears n (.message m rn tested)).answered = true
  simp [Memory.hears, hrun.2, htag, hsrc]

/-- A rank that has been answered, and whose next AYA comes after the timeout, takes its
    coordinator for dead. -/
theorem canBreak_of_answered {r : ℕ} (hne : c.timeoutValue ≠ 0) (hpos : 0 < r) (hsize : r < c.size)
    (hwait : (x.1.nodes r).Waiting c (some .aya)) (hanswered : (x.2 r).answered = true) :
    CanBreak c (TrueSuspicion c) x := by
  refine canBreak_of_quiet hne hpos hsize (Node.Waiting c (some .aya))
    (fun n hn => ⟨hn.running, hn.quiet, hn.early⟩) (fun n hn hearly => hn.ticked hearly) hwait
    fun y hy hdue _ _ hmemory _ => ?_
  have hreceive : (y.1.nodes r).receive c r (.clock 0 ⟨0, .clock⟩) = (y.1.nodes r).ticked := by
    rw [Node.receive_clock hy.running.2]
    exact Node.onClock_of_quiet hy.quiet
  refine Machine.CanBreak.here (a := ⟨r, .clock 0 ⟨0, .clock⟩⟩) ?_ fun htrue => ?_
  · exact ⟨hpos, hsize, _, rfl, hy.running.1, by decide⟩
  · have hsuspects : ((y.1.nodes r).receive c r (.clock 0 ⟨0, .clock⟩)).Suspects c := by
      rw [hreceive]
      exact ⟨hy.running.1, hy.running.2, hne, Node.timedOut_ticked hdue, hy.lastSent⟩
    have hno : ((y.1.nodes r).memoryAt c r (y.2 r) (.clock 0 ⟨0, .clock⟩)).answered = false :=
      htrue _ rfl hsuspects
    unfold Node.memoryAt at hno
    rw [hreceive, hmemory] at hno
    exact absurd (hanswered.symm.trans hno) (by simp)

/-- From a coordinator to a false suspicion: the first AYA draws an interval longer than the
    timeout, and the coordinator answers it. -/
theorem canBreak_of_unfit (htimeout : 1 < c.timeoutValue.natAbs) (hlong : ¬ Node.Fits c)
    (hsize : 2 < c.size) (hfail : c.sendFailure < 100) (hx : Elected c 1 x) :
    CanBreak c (TrueSuspicion c) x := by
  unfold Node.Fits at hlong
  have hne : c.timeoutValue ≠ 0 := by omega
  have hbound := twiceAYATime_le c
  have hinterval : (c.timeoutValue.natAbs + 1) % (twiceAYATime c).natAbs = c.timeoutValue.natAbs + 1 :=
    Nat.mod_eq_of_lt (by omega)
  have htop : c.size - 1 ≠ 1 := by omega
  -- the AYA
  refine canBreak_of_clock (c.timeoutValue.natAbs + 1) Nat.one_pos (by omega) hx.running
    (by omega) fun x₁ h₁ => ?_
  have hnode₁ := h₁.node
  have hmemory₁ := h₁.memory
  have hsent₁ := h₁.sent
  unfold Node.remember at hmemory₁
  rw [hx.handle_clock htimeout (by omega) (by omega)] at hnode₁ hmemory₁ hsent₁
  have haya := hsent₁ _ (List.mem_singleton.mpr rfl)
  have hlatest : (x₁.2 1).latestAYA = c.size - 1 := by
    rw [hmemory₁]
    exact hx.coordNode
  rw [hx.coordNode] at haya
  -- the coordinator
  have hrunTop : (x₁.1.nodes (c.size - 1)).Running := by
    rw [h₁.others _ htop]
    exact hx.highest.1
  refine canBreak_of_deliver (c.size - 1) 99 haya rfl (by omega) (by omega) hrunTop (by decide)
    fun x₂ h₂ => ?_
  obtain ⟨d, hd⟩ := h₂.aya hne hrunTop rfl (by omega)
  have hnode₂ : x₂.1.nodes 1 = x₁.1.nodes 1 := h₂.others 1 htop.symm
  have hmemory₂ : x₂.2 1 = x₁.2 1 := h₂.unheard 1 htop.symm
  have hrun₂ : (x₂.1.nodes 1).Running := by
    rw [hnode₂, hnode₁]
    exact hx.running
  -- its answer
  refine canBreak_of_deliver 1 0 hd rfl Nat.one_pos (by omega) hrun₂ (by decide) fun x₃ h₃ => ?_
  obtain ⟨hrestarted₃, hsent₃, hcoord₃⟩ := h₃.iaa hne hrun₂ rfl
  rw [hnode₂, hnode₁] at hrestarted₃ hsent₃ hcoord₃
  refine canBreak_of_answered (r := 1) hne Nat.one_pos (by omega) ?_ ?_
  · refine Node.waiting_of_restarted hne hrestarted₃ hsent₃ ?_ hinterval ?_
    · rw [hcoord₃]
      show (x.1.nodes 1).coordNode ≠ 0
      rw [hx.coordNode]
      omega
    · show ((x.1.nodes 1).AYATick + 1) % _ = 0
      rw [hx.AYATick, Nat.mod_self]
  · rw [h₃.memory]
    refine answered_remember hne hrun₂ rfl ?_
    rw [hmemory₂]
    exact hlatest.symm

/-- Rank 1 of 2 draws an AYA interval of 6 ticks at a timeout of 5, and rank 2 answers. -/
def suspectingRun : List SystemAct :=
  [⟨2, .deliver 0 0 ⟨0, .clock⟩⟩] ++ List.replicate 5 ⟨1, .clock 0 ⟨0, .clock⟩⟩ ++
    [⟨1, .deliver 1 0 ⟨0, .clock⟩⟩, ⟨1, .clock 6 ⟨0, .clock⟩⟩, ⟨2, .deliver 1 99 ⟨0, .clock⟩⟩,
      ⟨1, .deliver 1 0 ⟨0, .clock⟩⟩] ++
    List.replicate 5 ⟨1, .clock 0 ⟨0, .clock⟩⟩

end System

end DistributedSystem.MpiBully
