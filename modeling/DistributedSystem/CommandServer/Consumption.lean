import DistributedSystem.CommandServer.Requests
import DistributedSystem.Library.Search

/-!
# What the replies consume

The `for` loop over the buffer sets its own counter back whenever it consumes bytes, and
sometimes it keeps the byte it has just looked at. It ends all the same: every turn shortens
the buffer or goes one byte further in it. What the replies of a connection consume, put
together in order, is the beginning of what was received.
-/

namespace DistributedSystem.CommandServer

open Library

/-! ## The loop ends -/

/-- The locals of the `for` loop before its test, where `my_char` is `i + 1`. -/
structure Scan where
  myBuffer : List Byte
  i : ℕ
  numInvalid : ℕ

namespace Scan

/-- A turn of the loop; `none` where its test fails or its body returns. -/
def turn (s : Scan) : Option Scan :=
  if s.i < s.myBuffer.length then
    let t := iteration s.myBuffer (s.i + 1) s.numInvalid
    if t.returned then none else some ⟨t.myBuffer, t.my_char, t.numInvalid⟩
  else none

/-- A shorter buffer counts for more than the place in the buffer. -/
def measure (s : Scan) : ℕ :=
  s.myBuffer.length * (s.myBuffer.length + 1) + (s.myBuffer.length - s.i)

theorem measure_lt {s s' : Scan} (h : s.turn = some s') : s'.measure < s.measure := by
  unfold turn at h
  split at h
  · next hi =>
    simp only [Option.ite_none_left_eq_some, Option.some.injEq] at h
    obtain ⟨hret, rfl⟩ := h
    unfold measure
    rcases iteration_progress s.myBuffer s.i s.numInvalid hi hret with hlt | ⟨hbuf, hchar⟩
    · -- the buffer is shorter, and the place in it is any
      generalize (iteration s.myBuffer (s.i + 1) s.numInvalid).myBuffer.length = l at hlt
      have hsquare : (l + 1) * (l + 1) ≤ s.myBuffer.length * (s.myBuffer.length + 1) :=
        Nat.mul_le_mul hlt (by omega)
      rw [Nat.add_mul, Nat.one_mul] at hsquare
      show l * (l + 1) + (l - _) < _
      omega
    · show (iteration s.myBuffer (s.i + 1) s.numInvalid).myBuffer.length *
        ((iteration s.myBuffer (s.i + 1) s.numInvalid).myBuffer.length + 1) +
          ((iteration s.myBuffer (s.i + 1) s.numInvalid).myBuffer.length -
            (iteration s.myBuffer (s.i + 1) s.numInvalid).my_char) < _
      rw [hbuf, hchar]
      omega
  · cases h

/-- `scanLoop` takes these turns. -/
theorem scanLoop_turn {s s' : Scan} (h : s.turn = some s') :
    scanLoop s.myBuffer s.i s.numInvalid =
      ((scanLoop s'.myBuffer s'.i s'.numInvalid).1,
        (iteration s.myBuffer (s.i + 1) s.numInvalid).event ::
          (scanLoop s'.myBuffer s'.i s'.numInvalid).2) := by
  unfold turn at h
  split at h
  · next hi =>
    simp only [Option.ite_none_left_eq_some, Option.some.injEq] at h
    obtain ⟨hret, rfl⟩ := h
    rw [scanLoop, if_pos hi]
    simp only [if_neg hret]
  · cases h

/-- In its last turn the body returns, or the test fails before it. -/
theorem scanLoop_last {s : Scan} (h : s.turn = none) :
    (scanLoop s.myBuffer s.i s.numInvalid).2.length ≤ 1 := by
  rw [scanLoop]
  unfold turn at h
  split
  · next hi =>
    rw [if_pos hi] at h
    simp only [ite_eq_left_iff, reduceCtorEq, imp_false, Bool.not_eq_true, Bool.not_eq_false] at h
    simp [h]
  · simp

/-- Of a loop that has been left, `scanLoop` has the events of all turns. -/
theorem length_events_le {k : ℕ} {s : Scan} (h : loopState turn k s = none) :
    (scanLoop s.myBuffer s.i s.numInvalid).2.length ≤ k := by
  induction k generalizing s with
  | zero => cases h
  | succ k ih =>
    cases hs : s.turn with
    | none =>
      have := scanLoop_last hs
      omega
    | some s' =>
      rw [loopState, hs] at h
      have hrest := ih h
      rw [scanLoop_turn hs, List.length_cons]
      omega

end Scan

/-! ## The bytes of the replies -/

/-- The bytes that go with a reply. -/
def Event.consumed : Event → List Byte
  | .waiting _ => []
  | .answer q _ => q

/-- The bytes that the replies of a list of events consume, in order. -/
def consumed (evs : List Event) : List Byte := evs.flatMap Event.consumed

/-- An iteration consumes the beginning of the buffer and leaves the rest. -/
theorem consumed_iteration (buf : List Byte) (k n : ℕ) :
    (iteration buf k n).event.consumed ++ (iteration buf k n).myBuffer = buf := by
  have hinvalid : ∀ d, (invalidTurn buf d n).event.consumed ++ (invalidTurn buf d n).myBuffer =
      buf := fun d => List.take_append_drop d buf
  have hword : ∀ w r, (wordTurn buf w k r).event.consumed ++ (wordTurn buf w k r).myBuffer =
      buf := by
    intro w r
    unfold wordTurn
    split
    · exact List.take_append_drop k buf
    · rfl
  unfold iteration
  split
  · exact hword _ _
  split
  · exact hword _ _
  split
  · exact List.append_nil buf
  split
  · unfold numberTurn
    split
    · exact hinvalid k
    split
    · exact List.take_append_drop k buf
    · rfl
  · exact hinvalid _

/-- A reply consumes something. -/
theorem consumed_ne_nil {buf : List Byte} {i n : ℕ} (hi : i < buf.length) {q : List Byte} {r : Reply}
    (h : (iteration buf (i + 1) n).event = .answer q r) : q ≠ [] := by
  have htake : ∀ d, 0 < d → buf.take d ≠ [] := by
    intro d hd hnil
    rcases List.take_eq_nil_iff.mp hnil with hzero | hbuf
    · omega
    · simp [hbuf] at hi
  have hword : ∀ w s, (wordTurn buf w (i + 1) s).event = .answer q r → q ≠ [] := by
    intro w s hs
    unfold wordTurn at hs
    split at hs
    · cases hs
      exact htake _ (Nat.succ_pos i)
    · cases hs
  unfold iteration at h
  split at h
  · exact hword _ _ h
  split at h
  · exact hword _ _ h
  split at h
  · -- the whole buffer goes with `exit`
    cases h
    rintro rfl
    simp at hi
  split at h
  · unfold numberTurn at h
    split at h
    · cases h
      exact htake _ (Nat.succ_pos i)
    split at h
    · cases h
      exact htake _ (Nat.succ_pos i)
    · cases h
  · -- the byte that stays is not the first one
    cases h
    refine htake _ ?_
    split <;> omega

/-- What a connection holds of the bytes it has received. -/
def Conn.pending : Conn → List Byte
  | .reading p _ => p
  | .returned => []

/-- The law of a list of events: every reply consumes something, and all they consume, with
    the bytes that wait, is a beginning of what was there, or all of it while the connection
    is open. -/
structure Consumes (before : List Byte) (r : Conn × List Event) : Prop where
  nonempty : ∀ q s, .answer q s ∈ r.2 → q ≠ []
  upTo : consumed r.2 ++ r.1.pending <+: before
  all : r.1 ≠ .returned → consumed r.2 ++ r.1.pending = before

theorem consumes_nil (s : Conn) : Consumes s.pending (s, []) where
  nonempty _ _ hq := absurd hq List.not_mem_nil
  upTo := List.prefix_rfl
  all _ := rfl

/-- Events that follow others, when `w` comes in behind the bytes that wait. -/
theorem Consumes.append {before w : List Byte} {r r' : Conn × List Event} (h : Consumes before r)
    (h' : Consumes (r.1.pending ++ w) r') (hclosed : r.1 = .returned → r' = (.returned, [])) :
    Consumes (before ++ w) (r'.1, r.2 ++ r'.2) := by
  have hconsumed : consumed (r.2 ++ r'.2) = consumed r.2 ++ consumed r'.2 := List.flatMap_append
  refine ⟨fun q s hq => ?_, ?_, fun hopen => ?_⟩
  · rcases List.mem_append.mp hq with hq | hq
    · exact h.nonempty q s hq
    · exact h'.nonempty q s hq
  · rw [hconsumed, List.append_assoc]
    by_cases hret : r.1 = .returned
    · -- nothing is read behind a closed connection
      have hprefix := h.upTo
      rw [hret] at hprefix
      rw [hclosed hret]
      exact hprefix.trans (List.prefix_append before w)
    · rw [← h.all hret, List.append_assoc, List.prefix_append_right_inj]
      exact h'.upTo
  · have hret : r.1 ≠ .returned := by
      intro hret
      rw [hclosed hret] at hopen
      exact hopen rfl
    rw [hconsumed, List.append_assoc, h'.all hopen, ← List.append_assoc, h.all hret]

theorem consumes_scanLoop (buf : List Byte) (i n : ℕ) : Consumes buf (scanLoop buf i n) := by
  induction buf, i, n using scanLoop.induct with
  | case1 buf i n hlt t hret =>
    rw [scanLoop, if_pos hlt]
    simp only [t] at hret
    simp only [hret, if_true]
    refine ⟨fun q s hq => ?_, ?_, fun hopen => absurd rfl hopen⟩
    · exact consumed_ne_nil hlt (List.mem_singleton.mp hq).symm
    · have hbuf := consumed_iteration buf (i + 1) n
      exact ⟨(iteration buf (i + 1) n).myBuffer, by simpa [consumed, Conn.pending] using hbuf⟩
  | case2 buf i n hlt t hret ih =>
    rw [scanLoop, if_pos hlt]
    simp only [t] at hret ih
    simp only [if_neg hret]
    -- the rest of the loop works on what this turn leaves
    have hturn : Consumes buf (.reading (iteration buf (i + 1) n).myBuffer 0,
        [(iteration buf (i + 1) n).event]) := by
      have hbuf : consumed [(iteration buf (i + 1) n).event] ++
          (iteration buf (i + 1) n).myBuffer = buf := by
        simpa [consumed] using consumed_iteration buf (i + 1) n
      refine ⟨fun q s hq => ?_, ?_, fun _ => hbuf⟩
      · exact consumed_ne_nil hlt (List.mem_singleton.mp hq).symm
      · exact ⟨[], by rw [List.append_nil]; exact hbuf⟩
    have hrest := hturn.append (w := []) (by simpa [Conn.pending] using ih) (by simp)
    simpa using hrest
  | case3 buf i n hlt =>
    rw [scanLoop, if_neg hlt]
    exact consumes_nil (.reading buf n)

/-- **Run lemma**: over a connection, what was there are the bytes of the chunks. -/
theorem consumes_HandleTCPClient {s : Conn} {cs : List Chunk} {r : Conn × List Event}
    (h : HandleTCPClient s cs = some r) : Consumes (s.pending ++ stream cs) r := by
  induction cs generalizing s r with
  | nil =>
    obtain rfl : r = (s, []) := by
      cases s <;> simpa [HandleTCPClient] using h.symm
    simpa [stream] using consumes_nil s
  | cons c cs ih =>
    cases s with
    | returned =>
      obtain rfl : r = (.returned, []) := by simpa [HandleTCPClient] using h.symm
      refine ⟨fun q s hq => absurd hq List.not_mem_nil, List.nil_prefix, fun hopen => ?_⟩
      exact absurd rfl hopen
    | reading p n =>
      simp only [HandleTCPClient, Option.bind_eq_bind, Option.bind_eq_some_iff,
        Option.some.injEq] at h
      obtain ⟨r₁, h₁, r₂, h₂, rfl⟩ := h
      rw [receive, strcat_echoBuffer] at h₁
      split at h₁
      · simp only [Option.bind_eq_bind, Option.bind_some, Option.some.injEq] at h₁
        have hchunk := consumes_scanLoop (p ++ c.text) 0 n
        rw [h₁] at hchunk
        have hboth := hchunk.append (ih h₂) fun hret => by
          rw [hret] at h₂
          cases cs <;> simpa [HandleTCPClient] using h₂.symm
        rw [List.append_assoc] at hboth
        exact hboth
      · simp at h₁

/-- There are no more replies than bytes they consume. -/
theorem length_replies_le {evs : List Event} (h : ∀ q s, .answer q s ∈ evs → q ≠ []) :
    (replies evs).length ≤ (consumed evs).length := by
  induction evs with
  | nil => rfl
  | cons e evs ih =>
    have hrest := ih fun q s hq => h q s (List.mem_cons_of_mem e hq)
    cases e with
    | waiting q => exact hrest
    | answer q s =>
      have hpos := List.length_pos_of_ne_nil (h q s List.mem_cons_self)
      have hreplies : replies (.answer q s :: evs) = s :: replies evs := rfl
      have hconsumed : consumed (.answer q s :: evs) = q ++ consumed evs := rfl
      rw [hreplies, hconsumed, List.length_cons, List.length_append]
      omega

theorem length_stream_le (cs : List Chunk) : (stream cs).length ≤ (sent cs).length := by
  induction cs with
  | nil => rfl
  | cons c cs ih =>
    have htext : c.text.length ≤ c.bytes.length := (List.takeWhile_prefix _).length_le
    have hstream : stream (c :: cs) = c.text ++ stream cs := rfl
    have hsent : sent (c :: cs) = c.bytes ++ sent cs := rfl
    rw [hstream, hsent, List.length_append, List.length_append]
    omega

/-- **The scan ends and every reply consumes input**: the loop is left after a number of turns
    that only the length of the buffer bounds, from any place in it and for any content; and
    over a connection every reply consumes bytes of its own, which in order are a beginning of
    those received. -/
theorem scan_ends_and_consumes :
    (∀ (myBuffer : List Byte) (i numInvalid : ℕ),
      ∃ k ≤ myBuffer.length * (myBuffer.length + 2) + 1,
        loopState Scan.turn k ⟨myBuffer, i, numInvalid⟩ = none ∧
          (scanLoop myBuffer i numInvalid).2.length ≤ k) ∧
      ∀ cs r, HandleTCPClient .init cs = some r →
        (∀ q s, .answer q s ∈ r.2 → q ≠ []) ∧ consumed r.2 <+: stream cs ∧
          (replies r.2).length ≤ (sent cs).length := by
  constructor
  · intro myBuffer i numInvalid
    have hends : loopState Scan.turn (Scan.measure ⟨myBuffer, i, numInvalid⟩ + 1)
        ⟨myBuffer, i, numInvalid⟩ = none :=
      loopState_eq_none Scan.measure (fun _ _ => Scan.measure_lt) (Nat.lt_succ_self _)
    refine ⟨_, ?_, hends, Scan.length_events_le hends⟩
    show myBuffer.length * (myBuffer.length + 1) + (myBuffer.length - i) + 1 ≤ _
    rw [Nat.mul_add, Nat.mul_add]
    omega
  · intro cs r h
    obtain ⟨hne, hprefix, -⟩ := consumes_HandleTCPClient h
    have hstream : consumed r.2 <+: stream cs := (List.prefix_append _ _).trans hprefix
    refine ⟨hne, hstream, ?_⟩
    calc (replies r.2).length ≤ (consumed r.2).length := length_replies_le hne
      _ ≤ (stream cs).length := hstream.length_le
      _ ≤ (sent cs).length := length_stream_le cs

/-- Three bad bytes end a connection with three replies. -/
theorem scan_ends_and_consumes_invalid :
    ∃ r, HandleTCPClient .init [.ofChars ['u', '!', '!', 'x']] = some r ∧
      (replies r.2).length ≤ (sent [.ofChars ['u', '!', '!', 'x']]).length := by
  obtain ⟨r, h⟩ := exists_serves [.ofChars ['u', '!', '!', 'x']] (by decide) (by decide)
  exact ⟨r, h.run, (scan_ends_and_consumes.2 _ r h.run).2.2⟩

end DistributedSystem.CommandServer
