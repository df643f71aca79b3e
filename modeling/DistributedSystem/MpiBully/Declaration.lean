import DistributedSystem.MpiBully.Runs

/-!
# When a rank declares itself coordinator

A rank that is not the highest sends COORD in a timeout with ELECTION in `lastSent`. An
ANSWER takes ELECTION away, a COORD does not: it counts on the next AYA to do so. The next
AYA comes too late when its interval, left from an earlier election, is longer than the
timeout.
-/

namespace DistributedSystem.MpiBully

open DistributedSystem.Library

namespace Node

variable {c : Config} {rank : ℕ} {n : Node} {g : Memory} {i : Input} {m : Packet}

/-- The only way for a rank that is not the highest to send COORD. -/
theorem timedOut_of_coord (hsize : rank + 1 < c.size) (hsteady : Steady c rank (receive c rank n i))
    (h : m ∈ (handle c rank n i).outbox) (hk : m.tag = .coord) :
    (receive c rank n i).halted = false ∧ (receive c rank n i).coordDead = false ∧
      c.timeoutValue ≠ 0 ∧ (receive c rank n i).TimedOut c ∧
        (receive c rank n i).lastSent = some .election := by
  have hhigher := higher_ne_nil hsize
  have hbefore : m ∉ (receive c rank n i).outbox := fun hmem =>
    hhigher ((mem_outbox_receive hmem).2 hk)
  have hcall : m ∉ (callElection c rank i.tested (receive c rank n i)).outbox := by
    intro hmem
    rw [callElection_outbox] at hmem
    rcases List.mem_append.mp hmem with hmem | hmem
    · exact hbefore hmem
    · exact absurd ((mem_packets hmem).2.1.symm.trans hk) (by simp)
  unfold handle at h
  rcases checkTimeout_cases c rank i.tested (receive c rank n i) with
    heq | ⟨heq, -⟩ | ⟨heq, hrunning, hdead, hne, hdue⟩
  · rw [heq] at h
    exact absurd h hbefore
  · rw [heq] at h
    exact absurd h hbefore
  rw [heq] at h
  rcases onTimeout_cases c rank i.tested (receive c rank n i) with
    ⟨heq, hs⟩ | ⟨-, hs⟩ | ⟨heq, hs⟩ | heq
  · rw [heq] at h
    rcases timeoutIdle_cases c rank i.tested (receive c rank n i) with ⟨heq, -⟩ | ⟨-, hr⟩ | heq
    · rw [heq] at h
      exact absurd h hcall
    · exact absurd hr (hsteady.idle hsize hs)
    · rw [heq] at h
      exact absurd h hbefore
  · exact ⟨hrunning, hdead, hne, hdue, hs⟩
  · rw [heq] at h
    exact absurd h hcall
  · rw [heq] at h
    exact absurd h hbefore

/-- A timeout is due after a tick only. -/
theorem clock_of_timedOut (hdead : (receive c rank n i).coordDead = false)
    (hdue : (receive c rank n i).TimedOut c) (hs : (receive c rank n i).lastSent ≠ none) :
    ∃ rn tested, i = .clock rn tested ∧ n.coordDead = false := by
  cases i with
  | clock rn tested =>
      refine ⟨rn, tested, rfl, ?_⟩
      cases hn : n.coordDead with
      | true =>
          rw [receive_clock_dead hn] at hdead
          exact absurd (hn.symm.trans hdead) (by simp)
      | false => rfl
  | message m rn tested =>
      cases hn : n.coordDead with
      | true =>
          rw [receive_message_dead hn] at hdead
          exact absurd (hn.symm.trans hdead) (by simp)
      | false =>
          rw [receive_message hn] at hdue
          -- a message sets the count to 0, and then no timeout is due
          exact absurd tick_onMessage hdue.2
  | revive tested => exact absurd rfl hs

/-- A timeout with ELECTION in `lastSent` finds the memory as it was before the tick. -/
theorem memoryAt_of_timedOut (hrunning : (receive c rank n i).halted = false)
    (hdead : (receive c rank n i).coordDead = false) (hdue : (receive c rank n i).TimedOut c)
    (hs : (receive c rank n i).lastSent = some .election) :
    memoryAt c rank n g i = g.hears n i := by
  obtain ⟨rn, tested, rfl, hn⟩ := clock_of_timedOut hdead hdue (by rw [hs]; simp)
  unfold memoryAt
  rw [receive_clock hn] at hrunning hs ⊢
  rcases onClock_cases c rank rn tested (n.await ⟨0, .clock⟩) with ⟨heq, -⟩ | ⟨heq, -⟩ | ⟨heq, -⟩
  · rw [heq]
    rfl
  · rw [heq] at hrunning
    exact absurd hrunning (by simp)
  · rw [heq] at hs
    exact absurd hs (by simp)

/-- With AYA intervals that fit, a rank that declares itself has heard nothing. -/
theorem not_settled_of_coord (hfits : Fits c) (hsize : rank + 1 < c.size) (h : Steady c rank n)
    (hw : Heard n g → Window n) (hsrc : ∀ m rn tested, i = .message m rn tested → m.src ≠ 0)
    (hm : m ∈ (handle c rank n i).outbox) (hk : m.tag = .coord) :
    (g.hears n i).settled = false := by
  have hsteady := steady_receive h hsrc
  obtain ⟨hrunning, hdead, -, hdue, hs⟩ := timedOut_of_coord hsize hsteady hm hk
  rw [← Bool.not_eq_true]
  intro hsettled
  rw [← memoryAt_of_timedOut hrunning hdead hdue hs] at hsettled
  exact not_window_of_timedOut hfits hsteady hdue
    (window_receive h hw hsrc hrunning (Or.inl ⟨hsettled, hs⟩))

end Node

namespace System

/-- If a rank below the highest sends COORD, it has processed neither an ANSWER nor a COORD
    since its latest call for an election. -/
def SafeDeclaration (c : Config) (x : System × (ℕ → Memory)) (a : SystemAct) : Prop :=
  ∀ i ∈ input x.1.net a.rank a.stimulus, a.rank + 1 < c.size →
    (∃ m ∈ ((x.1.nodes a.rank).handle c a.rank i).outbox, m.tag = .coord) →
      ((x.2 a.rank).hears (x.1.nodes a.rank) i).settled = false

instance (c : Config) (x : System × (ℕ → Memory)) (a : SystemAct) :
    Decidable (SafeDeclaration c x a) := by
  unfold SafeDeclaration; infer_instance

/-- The parameters that exclude an unsafe declaration: nobody but the highest rank has ranks
    below to send COORD to, there is no timeout, or every AYA interval fits into one. -/
def DeclaresSafely (c : Config) : Prop := c.size ≤ 3 ∨ c.timeoutValue = 0 ∨ Node.Fits c

variable {c : Config} {x : System × (ℕ → Memory)} {a : SystemAct} {as : List SystemAct}

theorem safeDeclaration_of_kept (hc : DeclaresSafely c) (h : Kept c x)
    (hw : Node.Fits c → Windowed x) (ha : enabled c x.1 a) : SafeDeclaration c x a := by
  rintro i hin hsize ⟨m, hm, hk⟩
  obtain ⟨hpos, -, i', hin', haccepts⟩ := ha
  obtain rfl : i = i' := Option.some.inj (hin.symm.trans hin')
  have hsteady := h.steady_receive hin
  rcases hc with hsmall | hzero | hfits
  · -- rank 1 has nobody below
    obtain ⟨hsrc, hsends⟩ := Node.sends_handle hm
    rw [hk] at hsends
    cases hsends with
    | coord hdst =>
        obtain ⟨hdstPos, hdstLt⟩ := mem_lower.mp hdst
        omega
  · obtain ⟨-, -, hne, -, -⟩ := Node.timedOut_of_coord hsize hsteady hm hk
    exact absurd hzero hne
  · have hrunning := Node.not_halted_of_accepts haccepts
    exact Node.not_settled_of_coord hfits hsize (h.steady a.rank) (hw hfits a.rank hrunning)
      (h.source hin) hm hk

/-- **Safe declarations**, with parameters that exclude others. -/
theorem safeDeclaration_along (hc : DeclaresSafely c)
    (hrun : (machine c).Along (enabled c) (start c) as) :
    (remembered c).Along (SafeDeclaration c) (beginning c) as := by
  have hall : (remembered c).Along (fun x a => enabled c x.1 a) (beginning c) as :=
    Machine.along_watch.mpr hrun
  refine hall.strengthen (I := fun x => Kept c x ∧ (Node.Fits c → Windowed x))
    ⟨kept_beginning c, fun _ => windowed_beginning c⟩ (fun x a hx ha => ?_) fun x a hx ha => ?_
  · exact ⟨kept_next hx.1 ha, fun hfits => windowed_next hfits hx.1 (hx.2 hfits) ha⟩
  · exact safeDeclaration_of_kept hc hx.1 hx.2 ha

/-! ## Runs with an unsafe declaration -/

/-- A COORD settles the election. -/
theorem settled_remember {n : Node} {g : Memory} {m : Packet} {rank rn : ℕ} {tested : Status}
    (hne : c.timeoutValue ≠ 0) (hrun : n.Running) (htag : m.tag = .coord) :
    (n.remember c rank g (.message m rn tested)).settled = true := by
  have htag' : (n.await ⟨m.src, m.tag⟩).status.MPI_TAG = .coord := htag
  unfold Node.remember
  rw [Node.handle_message rank rn m tested hne hrun]
  simp only [Node.onMessage, htag']
  show (g.hears n (.message m rn tested)).settled = true
  simp [Memory.hears, hrun.2, htag]

/-- A rank whose election is settled, and whose next AYA comes after the timeout, declares
    itself. -/
theorem canBreak_of_settled {r : ℕ} (hne : c.timeoutValue ≠ 0) (hpos : 1 < r)
    (hsize : r + 1 < c.size) (hwait : (x.1.nodes r).Waiting c (some .election))
    (hsettled : (x.2 r).settled = true) : CanBreak c (SafeDeclaration c) x := by
  refine canBreak_of_quiet hne (by omega) (by omega) (Node.Waiting c (some .election))
    (fun n hn => ⟨hn.running, hn.quiet, hn.early⟩) (fun n hn hearly => hn.ticked hearly) hwait
    fun y hy hdue _ _ hmemory _ => ?_
  refine Machine.CanBreak.here (a := ⟨r, .clock 0 ⟨0, .clock⟩⟩) ?_ fun hsafe => ?_
  · exact ⟨by show 0 < r; omega, by show r < c.size; omega, _, rfl, hy.running.1, by decide⟩
  · have hcoord : ∃ m ∈ ((y.1.nodes r).handle c r (.clock 0 ⟨0, .clock⟩)).outbox, m.tag = .coord := by
      have hs : (y.1.nodes r).ticked.lastSent = some .election := hy.lastSent
      rw [Node.handle_due hne hy.running hy.quiet hdue]
      simp only [Node.onTimeout, hs, Node.declare_outbox]
      obtain ⟨d, hd⟩ := Node.exists_mem_packets r .coord (y.1.nodes r).ticked.dlcTime
        (mem_lower.mpr ⟨Nat.one_pos, hpos⟩)
      exact ⟨_, List.mem_append_right _ hd, rfl⟩
    have hno := hsafe _ rfl hsize hcoord
    rw [← hmemory] at hsettled
    exact absurd (hsettled.symm.trans hno) (by simp)

/-- From a coordinator to an unsafe declaration: the first AYA draws an interval longer than
    the timeout, another ELECTION of rank 1 makes ELECTION the last message again, and the
    coordinator answers the election of rank 2 with a second COORD. -/
theorem canBreak_of_long (hne : c.timeoutValue ≠ 0) (hlong : ¬ Node.Fits c) (hsize : 3 < c.size)
    (hx : Elected c 2 x) (hbound : c.timeoutValue.natAbs + 1 < Node.randomBound) :
    CanBreak c (SafeDeclaration c) x := by
  unfold Node.Fits at hlong
  have hinterval : (c.timeoutValue.natAbs + 1) % (twiceAYATime c).natAbs = c.timeoutValue.natAbs + 1 :=
    Nat.mod_eq_of_lt (by omega)
  have hhigher : higher c 2 ≠ [] := Node.higher_ne_nil hsize
  have hhighest := higher_highest (c := c) (by omega)
  have htop : c.size - 1 ≠ 2 := by omega
  obtain ⟨⟨d, hd⟩, e, he⟩ := hx.elections (by omega)
  -- the first AYA
  refine canBreak_of_clock (c.timeoutValue.natAbs + 1) Nat.two_pos (by omega) hx.running hbound
    fun x₁ h₁ => ?_
  obtain ⟨hrun₁, hrate₁, hticks₁⟩ := h₁.first_aya hne hx.running (by omega) hx.AYARate
    (by rw [hx.coordNode]; omega)
  rw [hinterval] at hrate₁
  rw [hx.AYATick] at hticks₁
  -- the ELECTION of rank 1
  have hd₁ := h₁.kept _ hd (by simp)
  refine canBreak_of_deliver 2 0 hd₁ rfl Nat.two_pos (by omega) hrun₁ (by decide) fun x₂ h₂ => ?_
  obtain ⟨hrestarted₂, hsent₂⟩ := h₂.election hne hrun₁ rfl hhigher
  -- the ELECTION of rank 2 reaches the highest rank
  have he₂ : ⟨2, c.size - 1, .election, e⟩ ∈ x₂.1.net := by
    refine h₂.kept _ (h₁.kept _ he (by simp)) ?_
    simp
  have hhighest₂ : x₂.1.nodes (c.size - 1) = x.1.nodes (c.size - 1) :=
    (h₂.others _ htop).trans (h₁.others _ htop)
  have hrunTop : (x₂.1.nodes (c.size - 1)).Running := by
    rw [hhighest₂]
    exact hx.highest.1
  have hsentTop : (x₂.1.nodes (c.size - 1)).lastSent ≠ some .election := by
    rw [hhighest₂]
    exact hx.highest.2
  refine canBreak_of_deliver (c.size - 1) 0 he₂ rfl (by omega) (by omega) hrunTop (by decide)
    fun x₃ h₃ => ?_
  obtain ⟨-, -, hcoords⟩ := h₃.election_highest hne hrunTop rfl hhighest hsentTop
  obtain ⟨f, hf⟩ := hcoords 2 (mem_lower.mpr ⟨Nat.two_pos, by omega⟩)
  have hnode₃ : x₃.1.nodes 2 = x₂.1.nodes 2 := h₃.others 2 htop.symm
  have hrun₃ : (x₃.1.nodes 2).Running := by
    rw [hnode₃]
    exact hrestarted₂.running
  -- the second COORD
  refine canBreak_of_deliver 2 0 hf rfl Nat.two_pos (by omega) hrun₃ (by decide) fun x₄ h₄ => ?_
  obtain ⟨hrestarted₄, hsent₄, hsrc₄⟩ := h₄.coord hne hrun₃ rfl
  refine canBreak_of_settled (r := 2) hne (by omega) hsize ?_ ?_
  · refine Node.waiting_of_restarted hne hrestarted₄ ?_ ?_ ?_ ?_
    · rw [hsent₄, hnode₃]
      exact hsent₂
    · rw [hsrc₄]
      show c.size - 1 ≠ 0
      omega
    · rw [hnode₃, hrestarted₂.AYARate]
      exact hrate₁
    · rw [hnode₃, hrestarted₂.AYATick, hticks₁, Nat.mod_self]
  · rw [h₄.memory]
    exact settled_remember hne hrun₃ rfl

/-- Rank 2 of 3 draws an AYA interval of 6 ticks at a timeout of 5, and is told twice that
    rank 3 is the coordinator. -/
def declaringRun : List SystemAct :=
  [⟨3, .deliver 1 0 ⟨0, .clock⟩⟩] ++ List.replicate 5 ⟨2, .clock 0 ⟨0, .clock⟩⟩ ++
    [⟨2, .deliver 3 0 ⟨0, .clock⟩⟩, ⟨2, .clock 6 ⟨0, .clock⟩⟩, ⟨2, .deliver 0 0 ⟨0, .clock⟩⟩,
      ⟨3, .deliver 2 0 ⟨0, .clock⟩⟩, ⟨2, .deliver 7 0 ⟨0, .clock⟩⟩] ++
    List.replicate 5 ⟨2, .clock 0 ⟨0, .clock⟩⟩

end System

end DistributedSystem.MpiBully
