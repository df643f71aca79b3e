import Mathlib.Data.List.Induction
import Mathlib.Logic.Relation
import Mathlib.Order.Basic
import Mathlib.Order.MinMax

/-!
# Causality in a history of events

A history lists the events of all processes in the order in which they took place. An
event belongs to a process, and one that receives a message names the event that sent it.
One event happened before another when a chain of program order and messages leads from
the first to the second.

`Stamped` is the rule of vector clocks: an event knows what its process and the message
it receives knew, and one more event of its own process. Under this rule the stamps
decide the happened-before relation (`happenedBefore_iff`). For scalar clocks that only
count on sending there is `lt_of_happenedBefore`.
-/

namespace DistributedSystem.Library

/-- An event of process `proc` with a stamp of type `κ`. `cause` is the place in the
    history of the event whose message it receives. -/
structure Event (π κ : Type*) where
  proc : π
  cause : Option ℕ
  stamp : κ
  deriving DecidableEq

variable {π κ : Type*}

/-- Program order and messages, between places of a history. -/
inductive Edge (h : List (Event π κ)) : ℕ → ℕ → Prop
  | program {i j : ℕ} {e f : Event π κ} (he : h[i]? = some e) (hf : h[j]? = some f) (hij : i < j)
      (hproc : e.proc = f.proc) : Edge h i j
  | message {i j : ℕ} {f : Event π κ} (hf : h[j]? = some f) (hcause : f.cause = some i) : Edge h i j

/-- The event at place `i` happened before the event at place `j`. -/
def HappenedBefore (h : List (Event π κ)) : ℕ → ℕ → Prop := Relation.TransGen (Edge h)

/-- Messages are received after they were sent. -/
def Ordered (h : List (Event π κ)) : Prop :=
  ∀ (j : ℕ) (f : Event π κ) (i : ℕ), h[j]? = some f → f.cause = some i → i < j

variable {h h' : List (Event π κ)} {e f : Event π κ} {i j : ℕ} {p q : π}

/-! ## Places of a history -/

/-- A place of a history with one more event is an old one or that of the new event. -/
theorem concat_cases (hf : (h ++ [e])[j]? = some f) :
    j < h.length ∧ h[j]? = some f ∨ j = h.length ∧ f = e := by
  rcases lt_or_ge j h.length with hj | hj
  · rw [List.getElem?_append_left hj] at hf
    exact Or.inl ⟨hj, hf⟩
  · have hlen := (List.getElem?_eq_some_iff.mp hf).1
    rw [List.length_append, List.length_singleton] at hlen
    obtain rfl : j = h.length := by omega
    rw [List.getElem?_concat_length] at hf
    exact Or.inr ⟨rfl, (Option.some.inj hf).symm⟩

theorem Edge.lt (hord : Ordered h) (hij : Edge h i j) : i < j := by
  cases hij with
  | program _ _ hlt _ => exact hlt
  | message hf hcause => exact hord j _ i hf hcause

theorem HappenedBefore.lt (hord : Ordered h) (hij : HappenedBefore h i j) : i < j := by
  induction hij with
  | single hedge => exact hedge.lt hord
  | tail _ hedge ih => exact ih.trans (hedge.lt hord)

theorem Edge.lt_length (hij : Edge h i j) : j < h.length := by
  cases hij with
  | program _ hf _ _ => exact (List.getElem?_eq_some_iff.mp hf).1
  | message hf _ => exact (List.getElem?_eq_some_iff.mp hf).1

theorem HappenedBefore.lt_length (hij : HappenedBefore h i j) : j < h.length := by
  cases hij with
  | single hedge => exact hedge.lt_length
  | tail _ hedge => exact hedge.lt_length

/-- The last edge of a chain. -/
theorem happenedBefore_iff_last :
    HappenedBefore h i j ↔ ∃ k, (i = k ∨ HappenedBefore h i k) ∧ Edge h k j := by
  constructor
  · intro hij
    cases hij with
    | single hedge => exact ⟨i, Or.inl rfl, hedge⟩
    | tail hchain hedge => exact ⟨_, Or.inr hchain, hedge⟩
  · rintro ⟨k, rfl | hchain, hedge⟩
    · exact Relation.TransGen.single hedge
    · exact Relation.TransGen.tail hchain hedge

/-- Later events add no edge between earlier ones. -/
theorem edge_append (hj : j < h.length) (hord : Ordered (h ++ h')) :
    Edge (h ++ h') i j ↔ Edge h i j := by
  constructor
  · intro hij
    -- an edge points forward, so both ends lie in the first part
    have hi : i < h.length := (hij.lt hord).trans hj
    cases hij with
    | program he hf hlt hproc =>
        rw [List.getElem?_append_left hi] at he
        rw [List.getElem?_append_left hj] at hf
        exact Edge.program he hf hlt hproc
    | message hf hcause =>
        rw [List.getElem?_append_left hj] at hf
        exact Edge.message hf hcause
  · intro hij
    cases hij with
    | program he hf hlt hproc =>
        have hi : i < h.length := hlt.trans hj
        exact Edge.program (by rwa [List.getElem?_append_left hi])
          (by rwa [List.getElem?_append_left hj]) hlt hproc
    | message hf hcause =>
        exact Edge.message (by rwa [List.getElem?_append_left hj]) hcause

theorem happenedBefore_append (hj : j < h.length) (hord : Ordered (h ++ h')) :
    HappenedBefore (h ++ h') i j ↔ HappenedBefore h i j := by
  constructor
  · intro hij
    induction hij with
    | single hedge => exact Relation.TransGen.single ((edge_append hj hord).mp hedge)
    | tail _ hedge ih =>
        have hk := (hedge.lt hord).trans hj
        exact (ih hk).tail ((edge_append hj hord).mp hedge)
  · intro hij
    induction hij with
    | single hedge => exact Relation.TransGen.single ((edge_append hj hord).mpr hedge)
    | tail hchain hedge ih =>
        have hk : _ < h.length := HappenedBefore.lt_length hchain
        exact (ih hk).tail ((edge_append hj hord).mpr hedge)

/-! ## Vector clocks -/

section Vector

variable [DecidableEq π] {time : κ → π → ℕ}

/-- What process `p` knows of process `q` after the history: the entry of its last stamp. -/
def known (time : κ → π → ℕ) (h : List (Event π κ)) (p q : π) : ℕ :=
  match (h.filter fun e => e.proc = p).getLast? with
  | some e => time e.stamp q
  | none => 0

/-- What a message knows of process `q`: the entry of the stamp it was sent with. -/
def received (time : κ → π → ℕ) (h : List (Event π κ)) (cause : Option ℕ) (q : π) : ℕ :=
  match cause.bind (h[·]?) with
  | some e => time e.stamp q
  | none => 0

/-- Every event of the history is stamped by the rule of vector clocks. -/
inductive Stamped (time : κ → π → ℕ) : List (Event π κ) → Prop
  | nil : Stamped time []
  | concat {h : List (Event π κ)} {e : Event π κ} (hh : Stamped time h)
      (hcause : ∀ i, e.cause = some i → i < h.length)
      (hstamp : ∀ q, time e.stamp q =
        max (known time h e.proc q) (received time h e.cause q) + if q = e.proc then 1 else 0) :
      Stamped time (h ++ [e])

theorem known_concat : known time (h ++ [e]) p q =
    if e.proc = p then time e.stamp q else known time h p q := by
  unfold known
  rw [List.filter_append]
  by_cases hp : e.proc = p
  · simp [hp]
  · simp [hp]

theorem known_eq_zero (hnone : ∀ e ∈ h, e.proc ≠ p) : known time h p q = 0 := by
  have hfilter : h.filter (fun e => e.proc = p) = [] := by
    rw [List.filter_eq_nil_iff]
    intro e he
    simpa using hnone e he
  rw [known, hfilter]
  rfl

/-- A process that has an event has a last one, and knows what it says. -/
theorem exists_last (time : κ → π → ℕ) (he : h[i]? = some e) :
    ∃ l f, h[l]? = some f ∧ f.proc = e.proc ∧ i ≤ l ∧
      ∀ q, known time h e.proc q = time f.stamp q := by
  induction h using List.reverseRecOn with
  | nil => simp at he
  | append_singleton h g ih =>
      simp only [known_concat]
      -- the new event is the last one of its process, and changes nothing for the others
      by_cases hg : g.proc = e.proc
      · refine ⟨h.length, g, List.getElem?_concat_length, hg, ?_, fun q => if_pos hg⟩
        rcases concat_cases he with ⟨hi, -⟩ | ⟨hi, -⟩
        · exact hi.le
        · exact hi.le
      · rcases concat_cases he with ⟨-, he⟩ | ⟨-, rfl⟩
        · obtain ⟨l, f, hf, hproc, hle, hknown⟩ := ih he
          have hl := (List.getElem?_eq_some_iff.mp hf).1
          refine ⟨l, f, ?_, hproc, hle, fun q => ?_⟩
          · rwa [List.getElem?_append_left hl]
          · rw [if_neg hg]
            exact hknown q
        · exact absurd rfl hg

omit [DecidableEq π] in
theorem received_of_cause {cause : Option ℕ} (hcause : cause = some i) (hf : h[i]? = some f) :
    received time h cause q = time f.stamp q := by
  rw [received, hcause]
  simp [hf]

/-- Knowledge that is not trivial comes from an event. -/
theorem known_pos (hpos : 0 < known time h p q) :
    ∃ (l : ℕ) (f : Event π κ), h[l]? = some f ∧ f.proc = p ∧
      ∀ q, known time h p q = time f.stamp q := by
  by_cases hsome : ∃ e ∈ h, e.proc = p
  · obtain ⟨e, he, rfl⟩ := hsome
    obtain ⟨i, hi⟩ := List.getElem?_of_mem he
    obtain ⟨l, f, hf, hproc, -, hlast⟩ := exists_last time hi
    exact ⟨l, f, hf, hproc, hlast⟩
  · push Not at hsome
    rw [known_eq_zero hsome] at hpos
    exact absurd hpos (Nat.lt_irrefl 0)

omit [DecidableEq π] in
theorem received_pos {cause : Option ℕ} (hpos : 0 < received time h cause q) :
    ∃ (i : ℕ) (e : Event π κ), cause = some i ∧ h[i]? = some e := by
  cases hbind : cause.bind (h[·]?) with
  | none => simp [received, hbind] at hpos
  | some e =>
      obtain ⟨i, hi, he⟩ := Option.bind_eq_some_iff.mp hbind
      exact ⟨i, e, hi, he⟩

/-- One first event of each process, which counts only itself. -/
theorem stamped_of_starts {ps : List π} {stamp : π → κ} (hps : ps.Nodup)
    (htime : ∀ p ∈ ps, ∀ q, time (stamp p) q = if q = p then 1 else 0) :
    Stamped time (ps.map fun p => ⟨p, none, stamp p⟩) ∧
      ∀ p ∈ ps, ∀ q, known time (ps.map fun p => ⟨p, none, stamp p⟩) p q = if q = p then 1 else 0 := by
  induction ps using List.reverseRecOn with
  | nil => exact ⟨.nil, by simp⟩
  | append_singleton ps r ih =>
      obtain ⟨hnodup, -, hdisjoint⟩ := List.nodup_append.mp hps
      obtain ⟨hstamped, hknown⟩ := ih hnodup fun p hp => htime p (List.mem_append_left _ hp)
      have hr := htime r (by simp)
      -- the new process has had no event
      have hnone : ∀ e ∈ ps.map (fun p => (⟨p, none, stamp p⟩ : Event π κ)), e.proc ≠ r := by
        intro e he
        obtain ⟨p, hp, rfl⟩ := List.mem_map.mp he
        exact hdisjoint p hp r (by simp)
      rw [List.map_append, List.map_singleton]
      refine ⟨.concat hstamped (by simp) fun q => ?_, fun p hp q => ?_⟩
      · rw [known_eq_zero hnone, hr]
        simp [received]
      · rw [known_concat]
        by_cases hpr : r = p
        · subst hpr
          rw [if_pos rfl]
          exact hr q
        · rw [if_neg hpr]
          refine hknown p ?_ q
          exact (List.mem_append.mp hp).resolve_right fun hmem => hpr (List.mem_singleton.mp hmem).symm

theorem Stamped.ordered (hs : Stamped time h) : Ordered h := by
  induction hs with
  | nil => simp [Ordered]
  | concat hh hcause _ ih =>
      intro j f i hf hi
      rcases concat_cases hf with ⟨-, hf⟩ | ⟨rfl, rfl⟩
      · exact ih j f i hf hi
      · exact hcause i hi

/-- Every event counts itself. -/
theorem Stamped.own_pos (hs : Stamped time h) (he : h[i]? = some e) : 0 < time e.stamp e.proc := by
  induction hs with
  | nil => simp at he
  | concat hh hcause hstamp ih =>
      rcases concat_cases he with ⟨-, he⟩ | ⟨-, rfl⟩
      · exact ih he
      · rw [hstamp, if_pos rfl]
        exact Nat.succ_pos _

/-- Nobody knows more events of a process than the process itself. -/
theorem Stamped.le_known (hs : Stamped time h) (hf : h[j]? = some f) (p : π) :
    time f.stamp p ≤ known time h p p := by
  induction hs generalizing j f with
  | nil => simp at hf
  | @concat h g hh hcause hstamp ih =>
      -- what the process of the new event and the message knew, p knew before
      have hknown : known time h g.proc p ≤ known time h p p := by
        rcases Nat.eq_zero_or_pos (known time h g.proc p) with hzero | hpos
        · omega
        · obtain ⟨l, k, hk, -, hlast⟩ := known_pos hpos
          rw [hlast]
          exact ih hk
      have hreceived : received time h g.cause p ≤ known time h p p := by
        rcases Nat.eq_zero_or_pos (received time h g.cause p) with hzero | hpos
        · omega
        · obtain ⟨i, e, hi, he⟩ := received_pos hpos
          rw [received_of_cause hi he]
          exact ih he
      have hnew := hstamp p
      rw [known_concat]
      by_cases hp : g.proc = p
      · rw [if_pos hp]
        rw [if_pos hp.symm] at hnew
        rcases concat_cases hf with ⟨-, hf⟩ | ⟨-, rfl⟩
        · have hold := ih hf
          subst hp
          omega
        · exact le_refl _
      · rw [if_neg hp]
        rw [if_neg (Ne.symm hp)] at hnew
        rcases concat_cases hf with ⟨-, hf⟩ | ⟨-, rfl⟩
        · exact ih hf
        · omega

/-- A process knows the number of its own events. -/
theorem Stamped.known_own (hs : Stamped time h) (p : π) :
    known time h p p = (h.filter fun e => e.proc = p).length := by
  induction hs with
  | nil => rfl
  | @concat h g hh hcause hstamp ih =>
      rw [known_concat, List.filter_append, List.length_append]
      by_cases hp : g.proc = p
      · -- the message that the new event receives knows no more
        have hreceived : received time h g.cause p ≤ known time h p p := by
          rcases Nat.eq_zero_or_pos (received time h g.cause p) with hzero | hpos
          · omega
          · obtain ⟨i, e, hi, he⟩ := received_pos hpos
            rw [received_of_cause hi he]
            exact hh.le_known he p
        rw [if_pos hp, hstamp, hp, max_eq_left hreceived, ih]
        simp [hp]
      · rw [if_neg hp, ih]
        simp [hp]

/-- What a process knows is known to its new event. -/
theorem Stamped.le_of_edge (hs : Stamped time h) (hij : Edge h i j) (he : h[i]? = some e)
    (hf : h[j]? = some f) (q : π) : time e.stamp q ≤ time f.stamp q := by
  have hord := hs.ordered
  induction hs generalizing i j e f with
  | nil => simp at hf
  | @concat h g hh hcause hstamp ih =>
      have hlt := hij.lt hord
      rcases concat_cases hf with ⟨hj, hf⟩ | ⟨rfl, rfl⟩
      · rw [edge_append hj hord] at hij
        rw [List.getElem?_append_left (hlt.trans hj)] at he
        exact ih hij he hf hh.ordered
      · have hold := he
        rw [List.getElem?_append_left hlt] at hold
        have hnew := hstamp q
        suffices hle : time e.stamp q ≤ max (known time h f.proc q) (received time h f.cause q) by
          omega
        cases hij with
        | program he' hf' _ hproc =>
            -- the last event of the process knows at least as much as e
            rw [he] at he'
            rw [hf] at hf'
            cases he'
            cases hf'
            obtain ⟨l, k, hk, hkproc, hle, hlast⟩ := exists_last time hold
            rw [← hproc, hlast]
            refine le_trans ?_ (le_max_left _ _)
            rcases Nat.eq_or_lt_of_le hle with rfl | hil
            · rw [hold] at hk
              cases hk
              exact le_refl _
            · exact ih (Edge.program hold hk hil hkproc.symm) hold hk hh.ordered
        | message hf' hcause' =>
            rw [hf] at hf'
            cases hf'
            rw [received_of_cause hcause' hold]
            exact le_max_right _ _

/-- Along a chain knowledge only grows. -/
theorem Stamped.le_of_happenedBefore (hs : Stamped time h) (hij : HappenedBefore h i j)
    (he : h[i]? = some e) (hf : h[j]? = some f) (q : π) : time e.stamp q ≤ time f.stamp q := by
  induction hij generalizing f with
  | single hedge => exact hs.le_of_edge hedge he hf q
  | @tail k l hchain hedge ih =>
      have hk := List.getElem?_eq_getElem (HappenedBefore.lt_length hchain)
      exact (ih hk).trans (hs.le_of_edge hedge hk hf q)

/-- **Knowledge is causality**: an event counts in the stamp of another one exactly when
    it is that event or happened before it. -/
theorem Stamped.time_le_iff (hs : Stamped time h) (he : h[i]? = some e) (hf : h[j]? = some f) :
    time e.stamp e.proc ≤ time f.stamp e.proc ↔ i = j ∨ HappenedBefore h i j := by
  constructor
  swap
  · rintro (rfl | hij)
    · rw [he] at hf
      cases hf
      exact le_refl _
    · exact hs.le_of_happenedBefore hij he hf _
  intro hle
  have hord := hs.ordered
  induction hs generalizing i j e f with
  | nil => simp at hf
  | @concat h g hh hcause hstamp ih =>
      have hnew := hstamp e.proc
      rcases concat_cases he with ⟨hi, hold⟩ | ⟨rfl, rfl⟩
      · rcases concat_cases hf with ⟨hj, hf⟩ | ⟨rfl, rfl⟩
        · rw [happenedBefore_append hj hord]
          exact ih hold hf hle hh.ordered
        · -- an old event counts in the new stamp
          refine Or.inr (happenedBefore_iff_last.mpr ?_)
          by_cases hproc : e.proc = f.proc
          · exact ⟨i, Or.inl rfl, Edge.program he hf hi hproc⟩
          rw [if_neg hproc, Nat.add_zero] at hnew
          rw [hnew, le_max_iff] at hle
          have hpos := hh.own_pos hold
          -- it was known to the last event of the process or to the sender
          rcases hle with hle | hle
          · obtain ⟨l, c, hc, hcproc, hlast⟩ := known_pos (hpos.trans_le hle)
            have hl := (List.getElem?_eq_some_iff.mp hc).1
            rw [hlast] at hle
            refine ⟨l, ?_, Edge.program ?_ hf hl hcproc⟩
            · rw [happenedBefore_append hl hord]
              exact ih hold hc hle hh.ordered
            · rwa [List.getElem?_append_left hl]
          · obtain ⟨k, d, hk, hd⟩ := received_pos (hpos.trans_le hle)
            have hl := (List.getElem?_eq_some_iff.mp hd).1
            rw [received_of_cause hk hd] at hle
            refine ⟨k, ?_, Edge.message hf hk⟩
            rw [happenedBefore_append hl hord]
            exact ih hold hd hle hh.ordered
      · rcases concat_cases hf with ⟨-, hf⟩ | ⟨rfl, rfl⟩
        · -- nobody knows the new event yet
          have hbound := hh.le_known hf e.proc
          rw [if_pos rfl] at hnew
          omega
        · exact Or.inl rfl

/-- **Vector clocks characterise causality.** -/
theorem Stamped.happenedBefore_iff (hs : Stamped time h) (he : h[i]? = some e)
    (hf : h[j]? = some f) :
    HappenedBefore h i j ↔ (∀ q, time e.stamp q ≤ time f.stamp q) ∧ time e.stamp ≠ time f.stamp := by
  constructor
  · intro hij
    have hlt := hij.lt hs.ordered
    refine ⟨hs.le_of_happenedBefore hij he hf, fun heq => ?_⟩
    -- f counts itself, and e cannot count it
    have hback := (hs.time_le_iff hf he).mp (heq ▸ le_refl _)
    rcases hback with rfl | hback
    · exact absurd hlt (lt_irrefl _)
    · exact absurd (hback.lt hs.ordered) hlt.asymm
  · rintro ⟨hle, hne⟩
    rcases (hs.time_le_iff he hf).mp (hle _) with rfl | hij
    · rw [he] at hf
      cases hf
      exact absurd rfl hne
    · exact hij

end Vector

/-! ## Scalar clocks -/

/-- **Clock condition**: when a scalar clock never decreases along an edge and grows along
    every edge into an event that satisfies `P`, it grows along every chain into one. -/
theorem lt_of_happenedBefore {P : Event π κ → Prop} {time : κ → ℕ}
    (hle : ∀ i j e f, Edge h i j → h[i]? = some e → h[j]? = some f → time e.stamp ≤ time f.stamp)
    (hlt : ∀ i j e f, Edge h i j → h[i]? = some e → h[j]? = some f → P f →
      time e.stamp < time f.stamp)
    (hij : HappenedBefore h i j) (he : h[i]? = some e) (hf : h[j]? = some f) (hP : P f) :
    time e.stamp < time f.stamp := by
  have hmono : ∀ j f, HappenedBefore h i j → h[j]? = some f → time e.stamp ≤ time f.stamp := by
    intro j f hij hf
    induction hij generalizing f with
    | single hedge => exact hle _ _ _ _ hedge he hf
    | @tail k l hchain hedge ih =>
        have hk := List.getElem?_eq_getElem (HappenedBefore.lt_length hchain)
        exact (ih _ hk).trans (hle _ _ _ _ hedge hk hf)
  cases hij with
  | single hedge => exact hlt _ _ _ _ hedge he hf hP
  | @tail k l hchain hedge =>
      have hk := List.getElem?_eq_getElem (HappenedBefore.lt_length hchain)
      exact (hmono _ _ hchain hk).trans_lt (hlt _ _ _ _ hedge hk hf hP)

/-- Every event of the history is stamped by the rule of scalar clocks: no earlier than what
    its process and the message it receives knew, and later when it satisfies `P`. -/
inductive Counted (time : κ → ℕ) (P : Event π κ → Prop) : List (Event π κ) → Prop
  | nil : Counted time P []
  | concat {h : List (Event π κ)} {e : Event π κ} (hh : Counted time P h)
      (hprogram : ∀ d ∈ h, d.proc = e.proc →
        time d.stamp ≤ time e.stamp ∧ (P e → time d.stamp < time e.stamp))
      (hmessage : ∀ i, e.cause = some i → ∃ d, h[i]? = some d ∧ time d.stamp ≤ time e.stamp ∧
        (P e → time d.stamp < time e.stamp)) :
      Counted time P (h ++ [e])

theorem Counted.ordered {time : κ → ℕ} {P : Event π κ → Prop} (hs : Counted time P h) :
    Ordered h := by
  induction hs with
  | nil => simp [Ordered]
  | concat hh _ hmessage ih =>
      intro j f i hf hi
      rcases concat_cases hf with ⟨-, hf⟩ | ⟨rfl, rfl⟩
      · exact ih j f i hf hi
      · obtain ⟨d, hd, -⟩ := hmessage i hi
        exact (List.getElem?_eq_some_iff.mp hd).1

theorem Counted.of_edge {time : κ → ℕ} {P : Event π κ → Prop} (hs : Counted time P h)
    (hij : Edge h i j) (he : h[i]? = some e) (hf : h[j]? = some f) :
    time e.stamp ≤ time f.stamp ∧ (P f → time e.stamp < time f.stamp) := by
  induction hs generalizing i j e f with
  | nil => simp at hf
  | @concat h g hh hprogram hmessage ih =>
      have hord := (hh.concat hprogram hmessage).ordered
      have hlt := hij.lt hord
      -- the edge ends before the new event, or in it
      rcases concat_cases hf with ⟨hj, hf⟩ | ⟨rfl, rfl⟩
      · rw [edge_append hj hord] at hij
        rw [List.getElem?_append_left (hlt.trans hj)] at he
        exact ih hij he hf
      · have hold := he
        rw [List.getElem?_append_left hlt] at hold
        cases hij with
        | program he' hf' _ hproc =>
            rw [he] at he'
            rw [hf] at hf'
            cases he'
            cases hf'
            exact hprogram e (List.mem_of_getElem? hold) hproc
        | message hf' hcause =>
            rw [hf] at hf'
            cases hf'
            obtain ⟨d, hd, hle⟩ := hmessage i hcause
            rw [hold] at hd
            cases hd
            exact hle

/-- **Scalar clocks respect causality.** -/
theorem Counted.lt_of_happenedBefore {time : κ → ℕ} {P : Event π κ → Prop} (hs : Counted time P h)
    (hij : HappenedBefore h i j) (he : h[i]? = some e) (hf : h[j]? = some f) (hP : P f) :
    time e.stamp < time f.stamp :=
  Library.lt_of_happenedBefore (fun _ _ _ _ hedge he hf => (hs.of_edge hedge he hf).1)
    (fun _ _ _ _ hedge he hf => (hs.of_edge hedge he hf).2) hij he hf hP

end DistributedSystem.Library
