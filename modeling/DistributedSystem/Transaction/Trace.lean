import DistributedSystem.Library.Causality
import DistributedSystem.Transaction.ClockMap
import DistributedSystem.Transaction.System

/-!
# The history of logged events

A ghost collects the lines of all ShiViz logs in the order in which they are written, with
the causal facts that the logs leave out: which node wrote the line and, for a receive
line, which line belongs to the send of that datagram.

`Disciplined` says how the handlers use their clock: they tick, log one line, and only then
send on that clock; and they save the clock before they wait or die. `Trace.record_spec`
turns it into the rule of vector clocks.
-/

namespace DistributedSystem.Transaction

open DistributedSystem.Library

/-- What an effect does to the clock, the ShiViz log and the net. -/
inductive Obs where
  | clock (vc : VClock)
  | save
  | event (e : ShiVizEvent)
  | send (m : TxMessage)
  | exit
  | other

def ManagerEffect.obs : ManagerEffect → Obs
  | .clock vc => .clock vc
  | .saveVectorTime => .save
  | .shiviz e => .event e
  | .send _ m => .send m
  | .exit => .exit
  | _ => .other

def WorkerEffect.obs : WorkerEffect → Obs
  | .clock vc => .clock vc
  | .saveVectorTime => .save
  | .shiviz e => .event e
  | .send _ m => .send m
  | .exit => .exit
  | _ => .other

/-- The line is about a datagram that was received. -/
def ShiVizEvent.isReceive : ShiVizEvent → Bool
  | .message _ _ isSend _ => !isSend
  | _ => false

/-- A line of a ShiViz log, with its node and the line of the send it answers to. -/
abbrev LoggedEvent := Event NodeId (ShiVizEvent × VClock)

/-- The logged events of all nodes, and for every datagram of the net the place of the
    event that was logged when it was sent. -/
structure Trace where
  events : List LoggedEvent := []
  origins : List ℕ := []

namespace Trace

/-- What the effects of node `p` add, from clock `vc` on; `cause` is the origin of the
    datagram that is handled. -/
def record (p : NodeId) (cause : Option ℕ) : VClock → List Obs → Trace → Trace
  | _, [], t => t
  | _, .clock vc :: os, t => record p cause vc os t
  | vc, .event e :: os, t =>
      record p cause vc os
        { t with events := t.events ++ [⟨p, if e.isReceive then cause else none, (e, vc)⟩] }
  | vc, .send _ :: os, t => record p cause vc os { t with origins := t.origins ++ [t.events.length - 1] }
  | _, .exit :: os, t => record p cause emptyClock os t
  | vc, .save :: os, t => record p cause vc os t
  | vc, .other :: os, t => record p cause vc os t

/-- The lines of node `p`, in order. -/
def log (t : Trace) (p : NodeId) : List (ShiVizEvent × VClock) :=
  (t.events.filter fun e => e.proc = p).map Event.stamp

/-- The start lines of the nodes `ps`. -/
def start (ps : List NodeId) : Trace where
  events := ps.map fun p => ⟨p, none, (.start, startClock p)⟩

end Trace

namespace System

/-- The origin of the datagram that the manager is given. -/
def managerCause (t : Trace) : ManagerStimulus → Option ℕ
  | .deliver k _ => t.origins[k]?
  | _ => none

/-- The origin of the datagram that a worker is given. -/
def workerCause (t : Trace) : WorkerStimulus → Option ℕ
  | .deliver k => t.origins[k]?
  | _ => none

/-- What a step of the system adds to the history. -/
def observe (cfg : Config) (s : System) (a : SystemAct) (t : Trace) : Trace :=
  match a with
  | .manager a =>
      match managerInput s.net a.input with
      | some input =>
          t.record s.manager.port (managerCause t a.input) s.manager.mem.myVectorClock
            ((Manager.process.performed s.manager { a with input }).map ManagerEffect.obs)
      | none => t
  | .worker n a =>
      match workerInput cfg n s.net a.input with
      | some input =>
          t.record n (workerCause t a.input) (s.workers n).mem.myVectorClock
            ((Worker.process.performed (s.workers n) { a with input }).map WorkerEffect.obs)
      | none => t

/-- The system with the history of its logged events. -/
def observed (cfg : Config) : Machine (System × Trace) SystemAct := (machine cfg).watch (observe cfg)

end System

/-! ## The discipline of the handlers -/

/-- Where a handler is between two uses of its clock. -/
inductive Phase where
  | idle
  /-- the clock has been advanced -/
  | ticked
  /-- and its event is logged -/
  | logged
  deriving DecidableEq

/-- Node `p`, with the given clock in memory and on disk, ticks and logs in turn, sends only
    what it has just logged, and ends, waiting or dead, with the clock on disk. -/
def Disciplined (p : NodeId) : Phase → VClock → VClock → List Obs → Prop
  | ph, live, saved, [] => ph ≠ .ticked ∧ saved = live
  | ph, live, saved, .clock vc :: os =>
      ph ≠ .ticked ∧ vc = tick p live ∧ Disciplined p .ticked vc saved os
  | ph, live, _, .save :: os => Disciplined p ph live live os
  | ph, live, saved, .event e :: os =>
      ph = .ticked ∧ e.isReceive = false ∧ Disciplined p .logged live saved os
  | ph, live, saved, .send m :: os =>
      ph = .logged ∧ m.vectorClock = live ∧ Disciplined p ph live saved os
  | ph, live, saved, .exit :: os => ph ≠ .ticked ∧ saved = live ∧ os = []
  | ph, live, saved, .other :: os => Disciplined p ph live saved os

/-- The clock the observations end with. -/
def lastClock : VClock → List Obs → VClock
  | vc, [] => vc
  | _, .clock vc :: os => lastClock vc os
  | vc, _ :: os => lastClock vc os

/-- The messages the observations send. -/
def sent (os : List Obs) : List TxMessage :=
  os.filterMap fun
    | .send m => some m
    | _ => none

variable {p q : NodeId} {ph : Phase} {live saved : VClock} {os os' : List Obs} {t : Trace}

/-- Effects that are not about clocks, events or datagrams do not matter. -/
theorem disciplined_append_of_other (h : ∀ o ∈ os, o = .other) :
    Disciplined p ph live saved (os ++ os') ↔ Disciplined p ph live saved os' := by
  induction os with
  | nil => rfl
  | cons o os ih =>
      have ho : o = .other := h o (by simp)
      subst ho
      exact ih fun o' ho' => h o' (List.mem_cons_of_mem _ ho')

/-! ## The history is made of the ShiViz logs -/

/-- The lines the observations add to the log of their node. -/
def logged : VClock → List Obs → List (ShiVizEvent × VClock)
  | _, [] => []
  | _, .clock vc :: os => logged vc os
  | vc, .event e :: os => (e, vc) :: logged vc os
  | _, .exit :: os => logged emptyClock os
  | vc, _ :: os => logged vc os

theorem Trace.log_record {cause : Option ℕ} :
    (t.record p cause live os).log q =
      t.log q ++ if q = p then logged live os else [] := by
  induction os generalizing t live with
  | nil => simp [record, logged]
  | cons o os ih =>
      cases o with
      | event e =>
          rw [record, ih]
          by_cases hq : q = p
          · subst hq
            simp [Trace.log, logged]
          · simp [Trace.log, hq, Ne.symm hq]
      | _ => exact ih

/-- A tick is logged before the handler ends. -/
theorem Disciplined.logged_pos (h : Disciplined p .ticked live saved os) :
    0 < (logged live os).length := by
  induction os generalizing live saved with
  | nil => exact absurd rfl h.1
  | cons o os ih =>
      cases o with
      | clock vc => exact absurd rfl h.1
      | event e => exact Nat.succ_pos _
      | send m => exact absurd h.1 (by simp)
      | exit => exact absurd rfl h.1
      | _ => exact ih h

/-! ## Stamps -/

/-- The time an event gives to a node. -/
def stampTime (x : ShiVizEvent × VClock) : NodeId → ℕ := timeOf x.2

/-- A packed clock of the nodes `S`. -/
structure Fits (S : Finset NodeId) (vc : VClock) : Prop where
  packed : Packed vc
  subset : ids vc ⊆ S

/-- The history obeys the rule of vector clocks, and its clocks are packed. -/
structure Trace.Sound (S : Finset NodeId) (t : Trace) : Prop where
  stamped : Stamped stampTime t.events
  fits : ∀ e ∈ t.events, Fits S e.stamp.2

/-- The message carries the clock of the event at place `o`. -/
def Carries (t : Trace) (m : TxMessage) (o : ℕ) : Prop :=
  ∃ e, t.events[o]? = some e ∧ e.stamp.2 = m.vectorClock

/-- The clock of node `p`, which has an entry, with `extra` ticks not yet logged. -/
structure Holds (S : Finset NodeId) (p : NodeId) (extra : ℕ) (vc : VClock) (t : Trace) : Prop where
  fits : Fits S vc
  own : p ∈ ids vc
  time : ∀ q, timeOf vc q = known stampTime t.events p q + if q = p then extra else 0

/-- The clock of node `p` between two handlers: what the last event of `p` says. -/
abbrev Current (S : Finset NodeId) (p : NodeId) (vc : VClock) (t : Trace) : Prop := Holds S p 0 vc t

/-- What the history knows of the clock of `p` in a phase of a handler. -/
def AtPhase (S : Finset NodeId) (p : NodeId) (vc : VClock) (t : Trace) : Phase → Prop
  | .idle => Current S p vc t
  | .ticked => Holds S p 1 vc t
  | .logged => Current S p vc t ∧ ∃ e, t.events[t.events.length - 1]? = some e ∧ e.stamp.2 = vc

variable {S : Finset NodeId} {t' : Trace} {m : TxMessage} {o : ℕ} {vc : VClock}

theorem Carries.mono {es : List LoggedEvent} (h : Carries t m o) (hes : t'.events = t.events ++ es) :
    Carries t' m o := by
  obtain ⟨e, he, hclock⟩ := h
  refine ⟨e, ?_, hclock⟩
  rw [hes, List.getElem?_append_left (List.getElem?_eq_some_iff.mp he).1]
  exact he

theorem AtPhase.current (h : AtPhase S p vc t ph) (hph : ph ≠ .ticked) : Current S p vc t := by
  cases ph with
  | idle => exact h
  | ticked => exact absurd rfl hph
  | logged => exact h.1

theorem Fits.tick (h : Fits S vc) (hp : p ∈ ids vc) : Fits S (tick p vc) where
  packed := h.packed.tick hp
  subset := by
    rw [ids_tick h.packed hp]
    exact h.subset

/-- The own time is the number of lines. -/
theorem Trace.Sound.known_own (h : t.Sound S) (p : NodeId) :
    known stampTime t.events p p = (t.log p).length := by
  rw [h.stamped.known_own, Trace.log, List.length_map]

theorem Holds.tick (h : Current S p vc t) (hsound : t.Sound S)
    (hfew : (t.log p).length + 1 < 2 ^ 32) : Holds S p 1 (tick p vc) t where
  fits := h.fits.tick h.own
  own := by
    rw [ids_tick h.fits.packed h.own]
    exact h.own
  time q := by
    have hword : timeOf vc p + 1 < 2 ^ 32 := by
      rw [h.time, hsound.known_own]
      simpa using hfew
    rw [timeOf_tick h.fits.packed h.own hword, h.time]
    simp

/-- The trace with one more event. -/
def Trace.concat (t : Trace) (e : LoggedEvent) : Trace := { t with events := t.events ++ [e] }

/-- Logging on a clock that obeys the rule. -/
theorem Trace.Sound.concat {e : LoggedEvent} (h : t.Sound S)
    (hcause : ∀ i, e.cause = some i → i < t.events.length) (hfits : Fits S e.stamp.2)
    (hown : e.proc ∈ ids e.stamp.2)
    (htime : ∀ q, timeOf e.stamp.2 q = max (known stampTime t.events e.proc q)
      (received stampTime t.events e.cause q) + if q = e.proc then 1 else 0) :
    (t.concat e).Sound S ∧ AtPhase S e.proc e.stamp.2 (t.concat e) .logged := by
  refine ⟨⟨Stamped.concat h.stamped hcause htime, ?_⟩, ⟨hfits, hown, fun q => ?_⟩, e, ?_, rfl⟩
  · intro e' he'
    rcases List.mem_append.mp he' with he' | he'
    · exact h.fits e' he'
    · exact List.mem_singleton.mp he' ▸ hfits
  · rw [Trace.concat, known_concat, if_pos rfl]
    simp [stampTime]
  · simp [Trace.concat]

/-- What a handler leaves behind: a sound history in which its own node has a current
    clock, the other nodes are as before, and the new datagrams carry their events. -/
structure Recorded (S : Finset NodeId) (p : NodeId) (vc : VClock) (ms : List TxMessage)
    (t t' : Trace) : Prop where
  sound : t'.Sound S
  current : Current S p vc t'
  others : ∀ q, q ≠ p → ∀ r, known stampTime t'.events q r = known stampTime t.events q r
  grows : ∃ es, t'.events = t.events ++ es
  origins : ∃ new, t'.origins = t.origins ++ new ∧ List.Forall₂ (Carries t') ms new

/-- A logged event, and then the rest. -/
theorem Recorded.concat {e : LoggedEvent} {ms : List TxMessage} (he : e.proc = p)
    (h : Recorded S p vc ms (t.concat e) t') : Recorded S p vc ms t t' where
  sound := h.sound
  current := h.current
  others q hq r := by
    rw [h.others q hq r, Trace.concat, known_concat, he, if_neg (Ne.symm hq)]
  grows := by
    obtain ⟨es, hes⟩ := h.grows
    exact ⟨e :: es, by rw [hes, Trace.concat, List.append_assoc, List.singleton_append]⟩
  origins := h.origins

/-- The other nodes do not notice a handler. -/
theorem Recorded.current_of_ne {vc' : VClock} {ms : List TxMessage} (h : Recorded S p vc ms t t')
    (hq : q ≠ p) (hcurrent : Current S q vc' t) : Current S q vc' t' where
  fits := hcurrent.fits
  own := hcurrent.own
  time r := by rw [hcurrent.time, h.others q hq r]

/-- Old and new datagrams carry the clocks of their events. -/
theorem Recorded.carried {old ms : List TxMessage} (h : Recorded S p vc ms t t')
    (hold : List.Forall₂ (Carries t) old t.origins) :
    List.Forall₂ (Carries t') (old ++ ms) t'.origins := by
  obtain ⟨es, hes⟩ := h.grows
  obtain ⟨new, horigins, hnew⟩ := h.origins
  rw [horigins]
  exact List.rel_append (hold.imp fun m o hc => hc.mono hes) hnew

/-- **A disciplined handler obeys the rule of vector clocks** until its node has `2 ^ 32`
    lines. -/
theorem Trace.record_spec {cause : Option ℕ} (hd : Disciplined p ph live saved os)
    (h : t.Sound S) (hph : AtPhase S p live t ph)
    (hfew : ((t.record p cause live os).log p).length < 2 ^ 32) :
    Recorded S p (lastClock live os) (sent os) t (t.record p cause live os) := by
  induction os generalizing ph live saved t with
  | nil =>
      exact ⟨h, hph.current hd.1, fun _ _ _ => rfl, ⟨[], by simp [record]⟩, [], by simp [record], .nil⟩
  | cons o os ih =>
      cases o with
      | clock vc =>
          -- a new clock; no event has it yet
          obtain ⟨hne, rfl, hd⟩ := hd
          have hroom : (t.log p).length + 1 < 2 ^ 32 := by
            have hpos := hd.logged_pos
            rw [record, log_record, if_pos rfl, List.length_append] at hfew
            omega
          exact ih hd h ((hph.current hne).tick h hroom) hfew
      | save => exact ih hd h hph hfew
      | event e =>
          -- the line is an event, and its cause is none
          obtain ⟨rfl, hsend, hd⟩ := hd
          have hevent := h.concat (e := ⟨p, none, (e, live)⟩) (by simp) hph.fits hph.own fun q => by
            rw [hph.time]
            simp [received]
          have hrecord : t.record p cause live (.event e :: os) =
              (t.concat ⟨p, none, (e, live)⟩).record p cause live os := by
            simp [record, hsend, Trace.concat]
          rw [hrecord] at hfew ⊢
          exact (ih hd hevent.1 hevent.2 hfew).concat rfl
      | send m =>
          -- the datagram comes from the last event, whose clock it carries
          obtain ⟨rfl, hm, hd⟩ := hd
          have hrest := ih hd (t := { t with origins := t.origins ++ [t.events.length - 1] })
            ⟨h.stamped, h.fits⟩ ⟨⟨hph.1.fits, hph.1.own, hph.1.time⟩, hph.2⟩ hfew
          obtain ⟨new, horigins, hcarries⟩ := hrest.origins
          obtain ⟨es, hes⟩ := hrest.grows
          obtain ⟨e, he, hclock⟩ := hph.2
          refine ⟨hrest.sound, hrest.current, hrest.others, hrest.grows,
            (t.events.length - 1) :: new, ?_, ?_⟩
          · rw [record, horigins, List.append_assoc, List.singleton_append]
          · have hsent : Carries t m (t.events.length - 1) := ⟨e, he, hclock.trans hm.symm⟩
            exact .cons (hsent.mono hes) hcarries
      | exit =>
          obtain ⟨hne, rfl, rfl⟩ := hd
          exact ⟨h, hph.current hne, fun _ _ _ => rfl, ⟨[], by simp [record]⟩, [], by simp [record],
            .nil⟩
      | other => exact ih hd h hph hfew

/-- The line of a receipt has room in the log. -/
theorem Trace.log_received {cause : Option ℕ} {e : ShiVizEvent} {mid : VClock}
    (hfew : ((t.record p cause live ([.clock mid, .clock vc, .save, .event e] ++ os)).log
      p).length < 2 ^ 32) : (t.log p).length + 1 < 2 ^ 32 := by
  rw [log_record, if_pos rfl, List.length_append] at hfew
  have hline : 1 ≤ (logged live ([.clock mid, .clock vc, .save, .event e] ++ os)).length :=
    Nat.succ_pos _
  omega

/-- A datagram is received: the clock takes the maximum and one tick. -/
theorem Trace.record_receive {e : ShiVizEvent} {cause : ℕ} {sender : LoggedEvent} {mid : VClock}
    (hreceive : e.isReceive) (h : t.Sound S) (hsender : t.events[cause]? = some sender)
    (hfits : Fits S vc) (hown : p ∈ ids vc)
    (htime : ∀ q, timeOf vc q = max (known stampTime t.events p q) (timeOf sender.stamp.2 q) +
      if q = p then 1 else 0)
    (hd : Disciplined p .logged vc vc os)
    (hfew : ((t.record p (some cause) live ([.clock mid, .clock vc, .save, .event e] ++ os)).log
      p).length < 2 ^ 32) :
    Recorded S p (lastClock vc os) (sent os) t
      (t.record p (some cause) live ([.clock mid, .clock vc, .save, .event e] ++ os)) := by
  have hevent := h.concat (e := ⟨p, some cause, (e, vc)⟩)
    (by
      intro i hi
      cases hi
      exact (List.getElem?_eq_some_iff.mp hsender).1)
    hfits hown fun q => by
      rw [received_of_cause rfl hsender]
      exact htime q
  -- two clock writes, the file and the line make one event
  have hrecord : t.record p (some cause) live ([.clock mid, .clock vc, .save, .event e] ++ os) =
      (t.concat ⟨p, some cause, (e, vc)⟩).record p (some cause) vc os := by
    simp [record, hreceive, Trace.concat]
  rw [hrecord] at hfew ⊢
  exact (record_spec hd hevent.1 hevent.2 hfew).concat rfl

end DistributedSystem.Transaction
