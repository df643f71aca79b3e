import DistributedSystem.CommandServer.Requests

/-!
# The events of a connection

Every event of a run is what one verdict on an unfinished command leaves. The counter of
invalid replies is a function of the events: it counts the invalid replies at their end, and
the handler returns when it comes to three. A byte that the server keeps as a part of a
command breaks the row just as a valid reply does.
-/

namespace DistributedSystem.CommandServer

open Library

/-! ## Where events come from -/

/-- The event of a verdict on an unfinished command. -/
def FromVerdict (e : Event) : Prop :=
  ∃ p b rest n, Partial p ∧ e = ((verdict p b).turn p b rest n).event

/-- What a turn leaves behind `my_char` is unfinished again. -/
theorem turn_unfinished {p : List Byte} (hp : Partial p) (b : Byte) (rest : List Byte) (n : ℕ)
    (hret : ¬ ((verdict p b).turn p b rest n).returned = true) :
    ∃ q w, ((verdict p b).turn p b rest n).myBuffer = q ++ w ∧
      ((verdict p b).turn p b rest n).my_char = q.length ∧ Partial q := by
  cases h : verdict p b with
  | wait =>
    refine ⟨p ++ [b], rest, ?_, ?_, partial_of_wait hp h⟩
    · simp [Verdict.turn]
    · simp [Verdict.turn]
  | exit =>
    rw [h] at hret
    exact absurd rfl hret
  | _ => exact ⟨[], _, rfl, rfl, partial_nil⟩

/-- Every event of the loop comes from a verdict. -/
theorem scanLoop_events (p w : List Byte) (n : ℕ) (hp : Partial p) :
    ∀ e ∈ (scanLoop (p ++ w) p.length n).2, FromVerdict e := by
  -- the loop's own recursion; the buffer is split at the scanned bytes
  have hmain : ∀ buf i n, (∃ q w, buf = q ++ w ∧ i = q.length ∧ Partial q) →
      ∀ e ∈ (scanLoop buf i n).2, FromVerdict e := by
    intro buf i n
    induction buf, i, n using scanLoop.induct with
    | case1 buf i n hlt t hret =>
      rintro ⟨q, w, rfl, rfl, hq⟩ e he
      obtain ⟨b, rest, rfl⟩ := List.exists_cons_of_ne_nil (l := w) (by rintro rfl; simp at hlt)
      simp only [t, iteration_scanned] at hret
      simp only [scanLoop_scanned] at he
      rw [if_pos hret, List.mem_singleton] at he
      exact ⟨q, b, rest, n, hq, he⟩
    | case2 buf i n hlt t hret ih =>
      rintro ⟨q, w, rfl, rfl, hq⟩ e he
      obtain ⟨b, rest, rfl⟩ := List.exists_cons_of_ne_nil (l := w) (by rintro rfl; simp at hlt)
      simp only [t, iteration_scanned] at hret ih
      simp only [scanLoop_scanned] at he
      rw [if_neg hret, List.mem_cons] at he
      rcases he with he | he
      · exact ⟨q, b, rest, n, hq, he⟩
      · exact ih (turn_unfinished hq b rest n hret) e he
    | case3 buf i n hlt =>
      intro _ e he
      rw [scanLoop, if_neg hlt] at he
      simp at he
  exact hmain _ _ n ⟨p, w, rfl, rfl, hp⟩

/-- Every event of a run comes from a verdict. -/
theorem HandleTCPClient_events {s : Conn} {cs : List Chunk} {r : Conn × List Event}
    (h : HandleTCPClient s cs = some r) : ∀ e ∈ r.2, FromVerdict e := by
  induction cs generalizing s r with
  | nil =>
    have hr : r = (s, []) := by
      cases s <;> simpa [HandleTCPClient] using h.symm
    rw [hr]
    simp
  | cons c cs ih =>
    cases s with
    | returned =>
      have hr : r = (.returned, []) := by simpa [HandleTCPClient] using h.symm
      rw [hr]
      simp
    | reading p n =>
      simp only [HandleTCPClient, Option.bind_eq_bind, Option.bind_eq_some_iff,
        Option.some.injEq] at h
      obtain ⟨r₁, h₁, r₂, h₂, rfl⟩ := h
      simp only [receive, Option.bind_eq_bind, Option.bind_eq_some_iff, Option.some.injEq] at h₁
      obtain ⟨buf, -, rfl⟩ := h₁
      intro e he
      rcases List.mem_append.mp he with he | he
      · exact scanLoop_events [] buf n partial_nil e he
      · exact ih h₂ e he

/-- The server waits with an unfinished command that is not empty. -/
theorem waiting_partial {q : List Byte} (h : FromVerdict (.waiting q)) :
    Partial q ∧ q ≠ [] := by
  obtain ⟨p, b, rest, n, hp, he⟩ := h
  cases hv : verdict p b with
  | wait =>
    rw [hv] at he
    obtain rfl : q = p ++ [b] := by simpa [Verdict.turn] using he
    exact ⟨partial_of_wait hp hv, by simp⟩
  | _ => simp [hv, Verdict.turn] at he

/-! ## The counter -/

/-- The number of invalid replies in a row, after one more event. -/
def Event.bump (n : ℕ) : Event → ℕ
  | .answer _ .invalid => n + 1
  | _ => 0

/-- The number of invalid replies at the end of a list of events that follows `n` of them. -/
def streak (n : ℕ) (evs : List Event) : ℕ := evs.foldl Event.bump n

/-- The reply to `exit`. -/
def Event.isExit : Event → Bool
  | .answer _ .exit => true
  | _ => false

/-- The law of the counter, for events that follow `n` invalid replies: it stays below three
    until the last event, and the handler returns with three in a row or with `exit`. -/
structure Counted (n : ℕ) (r : Conn × List Event) : Prop where
  below : ∀ front, front <+: r.2 → front ≠ r.2 → streak n front < 3
  counter : ∀ p m, r.1 = .reading p m → m = streak n r.2 ∧ m < 3 ∧ ∀ e ∈ r.2, e.isExit = false
  returned : r.1 = .returned → streak n r.2 = 3 ∨ r.2.getLast?.any Event.isExit = true

/-- What one iteration does to the counter, and when it returns. -/
theorem iteration_counter (buf : List Byte) (k n : ℕ) :
    (iteration buf k n).numInvalid = (iteration buf k n).event.bump n ∧
      ((iteration buf k n).returned = true ↔
        2 < (iteration buf k n).numInvalid ∨ (iteration buf k n).event.isExit = true) := by
  -- all invalid replies are counted and tested alike
  have hinvalid : ∀ d, (invalidTurn buf d n).numInvalid = (invalidTurn buf d n).event.bump n ∧
      ((invalidTurn buf d n).returned = true ↔
        2 < (invalidTurn buf d n).numInvalid ∨ (invalidTurn buf d n).event.isExit = true) := by
    intro d
    simp [invalidTurn, Event.bump, Event.isExit]
  unfold iteration
  split
  · unfold wordTurn
    split <;> simp [Event.bump, Event.isExit]
  split
  · unfold wordTurn
    split <;> simp [Event.bump, Event.isExit]
  split
  · simp [Event.bump, Event.isExit]
  split
  · unfold numberTurn
    split
    · exact hinvalid _
    split <;> simp [Event.bump, Event.isExit]
  · exact hinvalid _

/-! ### One loop, then all chunks -/

theorem streak_append (n : ℕ) (es es' : List Event) :
    streak n (es ++ es') = streak (streak n es) es' := List.foldl_append

/-- Nothing has happened yet. -/
theorem counted_nil {p : List Byte} {n : ℕ} (hn : n < 3) : Counted n (.reading p n, []) where
  below front hpre hne := absurd (List.prefix_nil.mp hpre) hne
  counter := by
    rintro p' m ⟨⟩
    exact ⟨rfl, hn, by simp⟩
  returned h := by cases h

theorem below_singleton {n : ℕ} (hn : n < 3) {e : Event} (front : List Event)
    (hpre : front <+: [e]) (hne : front ≠ [e]) : streak n front < 3 := by
  rcases List.prefix_cons_iff.mp hpre with rfl | ⟨t, rfl, ht⟩
  · exact hn
  · exact absurd (by rw [List.prefix_nil.mp ht]) hne

/-- The last event of a handler that returns. -/
theorem counted_last {n : ℕ} (hn : n < 3) {e : Event}
    (he : e.bump n = 3 ∨ e.isExit = true) : Counted n (.returned, [e]) where
  below := below_singleton hn
  counter p m h := by cases h
  returned _ := by simpa [streak] using he

/-- An event after which the handler goes on. -/
theorem counted_one {p : List Byte} {n : ℕ} (hn : n < 3) {e : Event} (hlt : e.bump n < 3)
    (hexit : e.isExit = false) : Counted n (.reading p (e.bump n), [e]) where
  below := below_singleton hn
  counter := by
    rintro p' m ⟨⟩
    exact ⟨rfl, hlt, by simpa using hexit⟩
  returned h := by cases h

/-- Events that leave the handler running, then more. -/
theorem Counted.append {n m : ℕ} {p : List Byte} {es : List Event} {r : Conn × List Event}
    (h : Counted n (.reading p m, es)) (hr : Counted m r) : Counted n (r.1, es ++ r.2) where
  below front hpre hne := by
    obtain ⟨hm, hlt, -⟩ := h.counter p m rfl
    -- the front ends within the first events, or behind them
    rcases List.prefix_or_prefix_of_prefix hpre (List.prefix_append es r.2) with hf | hf
    · by_cases heq : front = es
      · rw [heq, ← hm]
        exact hlt
      · exact h.below front hf heq
    · obtain ⟨tail, rfl⟩ := hf
      rw [streak_append, ← hm]
      refine hr.below tail ((List.prefix_append_right_inj es).mp hpre) ?_
      rintro rfl
      exact hne rfl
  counter q k hq := by
    obtain ⟨hm, -, hes⟩ := h.counter p m rfl
    obtain ⟨hk, hlt, hex⟩ := hr.counter q k hq
    refine ⟨by rw [streak_append, ← hm, hk], hlt, ?_⟩
    intro e he
    rcases List.mem_append.mp he with he | he
    · exact hes e he
    · exact hex e he
  returned hq := by
    obtain ⟨hm, -, -⟩ := h.counter p m rfl
    rw [streak_append, ← hm]
    refine (hr.returned hq).imp id fun hlast => ?_
    cases hl : r.2.getLast? with
    | none => simp [hl] at hlast
    | some e => simpa [List.getLast?_append, hl] using hlast

/-- The law of the counter for one loop. -/
theorem counted_scanLoop (buf : List Byte) (i n : ℕ) (hn : n < 3) :
    Counted n (scanLoop buf i n) := by
  induction buf, i, n using scanLoop.induct with
  | case1 buf i n hlt t hret =>
    obtain ⟨hnum, hiff⟩ := iteration_counter buf (i + 1) n
    rw [scanLoop, if_pos hlt]
    simp only [t] at hret
    simp only [hret, if_true]
    refine counted_last hn ?_
    rcases hiff.mp hret with h3 | hexit
    · left
      -- one event adds at most one
      have hle : ∀ e : Event, e.bump n ≤ n + 1 := by
        intro e
        cases e with
        | waiting q => simp [Event.bump]
        | answer q r => cases r <;> simp [Event.bump]
      have := hle (iteration buf (i + 1) n).event
      omega
    · exact Or.inr hexit
  | case2 buf i n hlt t hret ih =>
    obtain ⟨hnum, hiff⟩ := iteration_counter buf (i + 1) n
    rw [scanLoop, if_pos hlt]
    simp only [t] at hret ih
    simp only [hret]
    -- a turn that does not return has counted less than three and no `exit`
    obtain ⟨hle, hexit⟩ := not_or.mp (mt hiff.mpr hret)
    have hlt3 : (iteration buf (i + 1) n).event.bump n < 3 := by omega
    have hone := counted_one (p := (iteration buf (i + 1) n).myBuffer) hn hlt3
      (by simpa using hexit)
    rw [← hnum] at hone hlt3
    exact hone.append (ih hlt3)
  | case3 buf i n hlt =>
    rw [scanLoop, if_neg hlt]
    exact counted_nil hn

/-- The law of the counter for a run. -/
theorem counted_HandleTCPClient {cs : List Chunk} {p : List Byte} {n : ℕ} (hn : n < 3)
    {r : Conn × List Event} (h : HandleTCPClient (.reading p n) cs = some r) : Counted n r := by
  induction cs generalizing p n r with
  | nil =>
    obtain rfl : (Conn.reading p n, []) = r := by simpa [HandleTCPClient] using h
    exact counted_nil hn
  | cons c cs ih =>
    simp only [HandleTCPClient, Option.bind_eq_bind, Option.bind_eq_some_iff,
      Option.some.injEq] at h
    obtain ⟨r₁, h₁, r₂, h₂, rfl⟩ := h
    simp only [receive, Option.bind_eq_bind, Option.bind_eq_some_iff, Option.some.injEq] at h₁
    -- the law does not depend on what `strcat` has left in the buffer
    obtain ⟨buf, -, rfl⟩ := h₁
    have hfirst := counted_scanLoop buf 0 n hn
    cases hs : scanLoop buf 0 n with
    | mk s es =>
      rw [hs] at hfirst h₂
      cases s with
      | returned =>
        obtain rfl : r₂ = (.returned, []) := by cases cs <;> simpa [HandleTCPClient] using h₂.symm
        simpa using hfirst
      | reading q m => exact hfirst.append (ih (hfirst.counter q m rfl).2.1 h₂)

/-! ## Three invalid replies in a row -/

/-- The connection closes with the third invalid reply that no valid reply separates from the
    two before it, and not before that unless `exit` was answered. -/
structure ClosesAtThird (r : Conn × List Event) : Prop where
  closes : ∀ front, front <+: replies r.2 → List.replicate 3 .invalid <:+ front →
    front = replies r.2 ∧ r.1 = .returned
  never_before : r.1 = .returned →
    List.replicate 3 .invalid <:+ replies r.2 ∨ (replies r.2).getLast? = some .exit

/-- A beginning of `uptime` between two bad bytes starts the count again: three invalid
    replies, and the server goes on. -/
theorem not_closesAtThird : ¬ ∀ cs r, Serves cs r → ClosesAtThird r := by
  intro hall
  obtain ⟨r, h⟩ := exists_serves [.ofChars ['x', 'u', 'x']] (by decide) (by decide)
  -- `u` is bad only when the second `x` follows it, and it waits before that
  have hread : scanner.read .init (sent [.ofChars ['x', 'u', 'x']]) =
      (.reading [] 2, [.invalid, .invalid, .invalid]) := by decide
  obtain ⟨hconn, hreplies⟩ := Prod.ext_iff.mp (h.observed_eq.trans hread)
  simp only [observed] at hconn hreplies
  have hclosed := ((hall _ r h).closes _ (List.prefix_refl _) (by rw [hreplies]; exact ⟨[], rfl⟩)).2
  rw [hconn] at hclosed
  cases hclosed

/-- The connection closes right after the third invalid reply in a row, and never before that
    because of invalid input, where a row is broken by a valid reply and by every byte that
    leaves the server waiting with an unfinished command. -/
theorem closes_at_third_in_a_row {cs : List Chunk} {r : Conn × List Event}
    (h : HandleTCPClient .init cs = some r) :
    (∀ front, front <+: r.2 → front ≠ r.2 → streak 0 front < 3) ∧
      (r.1 = .returned ↔ streak 0 r.2 = 3 ∨ r.2.getLast?.any Event.isExit = true) ∧
      ∀ q, .waiting q ∈ r.2 → Partial q ∧ q ≠ [] := by
  have hcount : Counted 0 r := counted_HandleTCPClient (by decide) h
  refine ⟨hcount.below, ⟨hcount.returned, ?_⟩, ?_⟩
  · intro hlast
    cases hconn : r.1 with
    | returned => rfl
    | reading p m =>
      obtain ⟨hm, hlt, hex⟩ := hcount.counter p m hconn
      rcases hlast with h3 | hexit
      · omega
      · -- a running handler has not answered `exit`
        cases hl : r.2.getLast? with
        | none => simp [hl] at hexit
        | some e => simp [hl, hex e (List.mem_of_getLast? hl)] at hexit
  · intro q hq
    exact waiting_partial (HandleTCPClient_events h _ hq)

/-- Three bad bytes in two chunks. -/
theorem closes_at_third_xxx :
    ∃ r, HandleTCPClient .init [.ofChars ['x'], .ofChars ['x', 'x']] = some r ∧
      (r.1 = .returned ↔ streak 0 r.2 = 3 ∨ r.2.getLast?.any Event.isExit = true) := by
  obtain ⟨r, h⟩ := exists_serves [.ofChars ['x'], .ofChars ['x', 'x']]
    (by decide) (by decide)
  exact ⟨r, h.run, (closes_at_third_in_a_row h.run).2.1⟩

end DistributedSystem.CommandServer
