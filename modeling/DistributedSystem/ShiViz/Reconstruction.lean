import DistributedSystem.ShiViz.LogFile

/-!
# What the log files tell about a run

The files of the manager and of its workers are read back event by event. The clocks in them,
compared entry by entry, give the causal order of the events of the run, and nothing else is
needed for it: a reader that has only the files finds the order that is not written in them.
-/

namespace DistributedSystem.ShiViz

open Library
open Library.Text
open DistributedSystem.LogFiles
open DistributedSystem.Transaction

/-- The place of an entry among the entries of its kind. -/
theorem getElem?_filter_place {α : Type} {p : α → Bool} {l : List α} {i : ℕ} {a : α}
    (ha : l[i]? = some a) (hp : p a) : (l.filter p)[((l.take i).filter p).length]? = some a := by
  obtain ⟨hi, rfl⟩ := List.getElem?_eq_some_iff.mp ha
  have hsplit : l.filter p = (l.take i).filter p ++ (l[i] :: l.drop (i + 1)).filter p := by
    rw [← List.filter_append, ← List.drop_eq_getElem_cons hi, List.take_append_drop]
  rw [hsplit, List.getElem?_append_right (Nat.le_refl _), Nat.sub_self, List.filter_cons_of_pos hp]
  rfl

/-- The number of earlier events of the same node: the place of event `i` in the log of `p`. -/
def place (t : Trace) (p : NodeId) (i : ℕ) : ℕ := ((t.events.take i).filter fun e => e.proc = p).length

theorem log_place {t : Trace} {i : ℕ} {e : LoggedEvent} (he : t.events[i]? = some e) :
    (t.log e.proc)[place t e.proc i]? = some e.stamp := by
  rw [Trace.log, List.getElem?_map, place, getElem?_filter_place he (by simp)]
  rfl

variable {cfg : Transaction.Config} {ws : List NodeId} {s : System} {t : Trace} {p : NodeId}

/-- The program of a node. -/
def programOf (cfg : Transaction.Config) (p : NodeId) : Program :=
  if p = cfg.managerAddr.port then Manager.program else Worker.program

/-- The ShiViz log of a node. -/
def logOf (cfg : Transaction.Config) (s : System) (p : NodeId) : List (ShiVizEvent × VClock) :=
  if p = cfg.managerAddr.port then s.manager.shiviz else (s.workers p).shiviz

/-- The files contain what the nodes print for their events, in order. -/
def Printed (cfg : Transaction.Config) (ws : List NodeId) (s : System) (files : NodeId → List Char) :
    Prop :=
  ∀ p ∈ System.nodes cfg ws, ∃ blocks,
    List.Forall₂ ((programOf cfg p).Prints p) (logOf cfg s p) blocks ∧ files p = blocks.flatten

/-- The files are read as the logs of the nodes, which make up the history `t`, and an event
    happened before another one exactly when its line has no greater time for any node, and
    another time for some node. -/
def ShowCausality (cfg : Transaction.Config) (ws : List NodeId) (s : System) (t : Trace)
    (files : NodeId → List Char) : Prop :=
  ∃ ls : NodeId → List Line,
    (∀ p ∈ System.nodes cfg ws, t.log p = logOf cfg s p ∧ readLog (files p) = some (ls p) ∧
      List.Forall₂ ((programOf cfg p).Tells p) (logOf cfg s p) (ls p)) ∧
    ∀ i j e f, t.events[i]? = some e → t.events[j]? = some f →
      ∃ l ∈ (ls e.proc)[place t e.proc i]?, ∃ l' ∈ (ls f.proc)[place t f.proc j]?,
        (HappenedBefore t.events i j ↔ (∀ p ∈ System.nodes cfg ws, l.time p ≤ l'.time p) ∧
          ∃ p ∈ System.nodes cfg ws, l.time p ≠ l'.time p)

/-! ## The lines of a run -/

theorem log_eq_logOf (h : System.CausalInv cfg ws (s, t)) (hp : p ∈ System.nodes cfg ws) :
    t.log p = logOf cfg s p := by
  unfold logOf
  split
  · rename_i hmgr
    rw [hmgr, ← h.port]
    exact h.managerLog
  · rename_i hmgr
    exact h.workerLogs p ((List.mem_cons.mp hp).resolve_left hmgr)

/-- Every node has texts for the lines of its log. -/
theorem covers_logOf (h : System.Kinded cfg s) (p : NodeId) : ∃ kinds locals received,
    (programOf cfg p).Covers kinds locals received ∧
      ∀ x ∈ logOf cfg s p, LineOf kinds locals received p x := by
  unfold programOf logOf
  split
  · rename_i hmgr
    exact ⟨_, _, _, Manager.covers, hmgr ▸ h.managerLines⟩
  · exact ⟨_, _, _, Worker.covers, h.workerLines p⟩

/-- The clock of a line shows its own event. -/
theorem time_log_ne_zero (h : System.CausalInv cfg ws (s, t)) {x : ShiVizEvent × VClock}
    (hx : x ∈ t.log p) : Packed x.2 ∧ ∃ i, (x.2 i).time ≠ 0 := by
  obtain ⟨e, he, rfl⟩ := List.mem_map.mp hx
  have hmem := (List.mem_filter.mp he).1
  obtain ⟨i, hi⟩ := List.mem_iff_getElem?.mp hmem
  refine ⟨(h.sound.fits e hmem).packed, ?_⟩
  have hown : timeOf e.stamp.2 e.proc ≠ 0 := (h.sound.stamped.own_pos hi).ne'
  by_contra hzero
  simp only [not_exists, not_not] at hzero
  refine hown ?_
  unfold timeOf
  split
  · exact hzero _
  · rfl

/-- The file of a node is read as its log. -/
theorem readLog_file (h : System.CausalInv cfg ws (s, t)) (hkinds : System.Kinded cfg s)
    (hp : p ∈ System.nodes cfg ws) (hid : p < 2 ^ 32) {files : NodeId → List Char}
    (hprinted : Printed cfg ws s files) : ∃ ls, readLog (files p) = some ls ∧
      List.Forall₂ ((programOf cfg p).Tells p) (logOf cfg s p) ls := by
  obtain ⟨blocks, hblocks, hfile⟩ := hprinted p hp
  obtain ⟨kinds, locals, received, hcovers, hlines⟩ := covers_logOf hkinds p
  rw [hfile]
  have hshown : ∀ x ∈ logOf cfg s p, Packed x.2 ∧ ∃ i, (x.2 i).time ≠ 0 := by
    rw [← log_eq_logOf h hp]
    exact fun x hx => time_log_ne_zero h hx
  have hall := (List.forall₂_and_left _ _).mpr
    ⟨fun x hx => And.intro (hlines x hx) (hshown x hx), hblocks⟩
  refine readLog_flatten (hall.imp fun x block hx => ?_)
  exact hcovers.reads hid hx.1.1 hx.1.2.1 hx.1.2.2 hx.2

/-- The line of an event, in what was read from the file of its node. -/
theorem exists_line (h : System.CausalInv cfg ws (s, t)) (h0 : 0 ∉ System.nodes cfg ws)
    {ls : NodeId → List Line} (hls : ∀ p ∈ System.nodes cfg ws,
      List.Forall₂ ((programOf cfg p).Tells p) (logOf cfg s p) (ls p))
    {i : ℕ} {e : LoggedEvent} (he : t.events[i]? = some e) :
    ∃ l ∈ (ls e.proc)[place t e.proc i]?, (∀ p ∈ System.nodes cfg ws, l.time p = timeOf e.stamp.2 p) ∧
      ∀ p ∉ System.nodes cfg ws, timeOf e.stamp.2 p = 0 := by
  have hmem := List.mem_of_getElem? he
  have hids : ∀ p ∉ System.nodes cfg ws, p ∉ ids e.stamp.2 := fun p hp hid =>
    hp (List.mem_toFinset.mp ((h.sound.fits e hmem).subset hid))
  have hproc : e.proc ∈ System.nodes cfg ws := by
    by_contra hp
    exact (h.sound.stamped.own_pos he).ne' (timeOf_of_notMem (hids _ hp))
  have hplace : (logOf cfg s e.proc)[place t e.proc i]? = some e.stamp := by
    rw [← log_eq_logOf h hproc]
    exact log_place he
  obtain ⟨hlen, hget⟩ := List.forall₂_iff_get.mp (hls e.proc hproc)
  obtain ⟨hlt, hstamp⟩ := List.getElem?_eq_some_iff.mp hplace
  have htells := hget _ hlt (hlen ▸ hlt)
  rw [List.get_eq_getElem, hstamp] at htells
  refine ⟨_, List.getElem?_eq_getElem (hlen ▸ hlt), fun p hp => htells.time p ?_, fun p hp =>
    timeOf_of_notMem (hids p hp)⟩
  rintro rfl
  exact h0 hp

/-- **The log files show the causal order**: the files that a run of at most `MAX_NODES` nodes
    leaves behind are enough to find it, until a node has written `2 ^ 32` lines. The manager
    stays up, the workers may crash. -/
theorem log_files_show_causality (cfg : Transaction.Config) (ws : List NodeId) (as : List SystemAct)
    (hnodup : (System.nodes cfg ws).Nodup) (h0 : 0 ∉ System.nodes cfg ws)
    (hroom : (System.nodes cfg ws).length ≤ maxNodes) (hids : ∀ p ∈ System.nodes cfg ws, p < 2 ^ 32)
    (hrun : (System.machine cfg).Along (System.enabled cfg) (System.start cfg) as)
    (hup : (System.machine cfg).Along (System.StaysUp cfg) (System.start cfg) as)
    (hws : (System.machine cfg).Along (System.AmongWorkers ws) (System.start cfg) as)
    (hfew : System.FewLines ws ((System.machine cfg).after (System.start cfg) as))
    (files : NodeId → List Char)
    (hprinted : Printed cfg ws ((System.machine cfg).after (System.start cfg) as) files) :
    let x := (System.observed cfg).after (System.start cfg, Trace.start (System.nodes cfg ws)) as
    ShowCausality cfg ws x.1 x.2 files := by
  intro x
  have hinv : System.CausalInv cfg ws x :=
    System.causalInv_after hnodup h0 hroom hrun hup hws hfew
  have hsame : x.1 = (System.machine cfg).after (System.start cfg) as := Machine.watch_after_fst as
  have hkinds : System.Kinded cfg x.1 := hsame ▸ System.kinded_after cfg as
  rw [← hsame] at hprinted
  choose! ls hls using fun p hp => readLog_file hinv hkinds hp (hids p hp) hprinted
  refine ⟨ls, fun p hp => ⟨log_eq_logOf hinv hp, hls p hp⟩, fun i j e f he hf => ?_⟩
  obtain ⟨l, hl, htime, hzero⟩ := exists_line hinv h0 (fun p hp => (hls p hp).2) he
  obtain ⟨l', hl', htime', hzero'⟩ := exists_line hinv h0 (fun p hp => (hls p hp).2) hf
  refine ⟨l, hl, l', hl', ?_⟩
  rw [hinv.sound.stamped.happenedBefore_iff he hf, Function.ne_iff]
  constructor
  · rintro ⟨hle, p, hne⟩
    refine ⟨fun q hq => ?_, p, ?_⟩
    · rw [htime q hq, htime' q hq]
      exact hle q
    · have hp : p ∈ System.nodes cfg ws := by
        by_contra hp
        exact hne ((hzero p hp).trans (hzero' p hp).symm)
      refine ⟨hp, ?_⟩
      rw [htime p hp, htime' p hp]
      exact hne
  · rintro ⟨hle, p, hp, hne⟩
    refine ⟨fun q => ?_, p, ?_⟩
    · by_cases hq : q ∈ System.nodes cfg ws
      · have hle := hle q hq
        rwa [htime q hq, htime' q hq] at hle
      · exact (hzero q hq).trans_le (Nat.zero_le _)
    · rwa [htime p hp, htime' p hp] at hne

/-! ### A transaction begins -/

/-- Worker 40 begins transaction 1. -/
def beginRun : List SystemAct := [System.command 40 .begintx, System.toManager 0]

/-- A clock array that begins with these entries. -/
def entries (cs : List WireFormats.Clock) : Fin MAX_NODES → WireFormats.Clock := fun i => cs.getD i ⟨0, 0⟩

/-- The kind as the message has it, for transaction 1. -/
def message (msgID : UInt32) : WireFormats.Transaction.TxMessage := ⟨msgID, 1, 0, 0, entries []⟩

/-- What the nodes print in that run. -/
def beginBlocks (p : NodeId) : List (List Char) :=
  if p = 7 then
    [writeStartToLog 7 1,
      Manager.writeEventToLog ⟨[], 0⟩ (message 1000) (entries [⟨7, 2⟩, ⟨40, 2⟩]) 7 false 40,
      Manager.writeEventToLog ⟨[], 0⟩ (message 1016) (entries [⟨7, 3⟩, ⟨40, 2⟩]) 7 true 40]
  else
    [writeStartToLog 40 1, Worker.writeEventToLog ⟨[], 0⟩ (message 1000) (entries [⟨40, 2⟩]) 40 true 7]

theorem log_files_show_causality_begin :
    let x := (System.observed System.smallConfig).after (System.start System.smallConfig, Trace.start [7, 40])
      beginRun
    ShowCausality System.smallConfig [40] x.1 x.2 fun p => (beginBlocks p).flatten := by
  refine log_files_show_causality System.smallConfig [40] beginRun (by decide) (by decide) (by decide)
    (by decide) (by decide +kernel) (by decide +kernel) (by decide +kernel) (by decide +kernel) _
    fun p hp => ?_
  rcases List.mem_cons.mp hp with rfl | hp
  · have hlog : logOf System.smallConfig ((System.machine System.smallConfig).after
        (System.start System.smallConfig) beginRun) 7 =
        [(.start, startClock 7), (.message .begintx 1 false 40, clockView (entries [⟨7, 2⟩, ⟨40, 2⟩])),
          (.message .beginSuccess 1 true 40, clockView (entries [⟨7, 3⟩, ⟨40, 2⟩]))] := by
      decide +kernel
    refine ⟨beginBlocks 7, ?_, rfl⟩
    show List.Forall₂ _ (logOf System.smallConfig _ 7) _
    rw [hlog]
    exact .cons rfl (.cons ⟨⟨[], 0⟩, message 1000, _, 40, rfl, rfl, rfl, rfl, rfl⟩
      (.cons ⟨⟨[], 0⟩, message 1016, _, 40, rfl, rfl, rfl, rfl, rfl⟩ .nil))
  · obtain rfl := List.mem_singleton.mp hp
    have hlog : logOf System.smallConfig ((System.machine System.smallConfig).after
        (System.start System.smallConfig) beginRun) 40 =
        [(.start, startClock 40), (.message .begintx 1 true 7, clockView (entries [⟨40, 2⟩]))] := by
      decide +kernel
    refine ⟨beginBlocks 40, ?_, rfl⟩
    rw [hlog]
    exact .cons rfl (.cons ⟨⟨[], 0⟩, message 1000, _, 7, rfl, rfl, rfl, rfl, rfl⟩ .nil)

end DistributedSystem.ShiViz
