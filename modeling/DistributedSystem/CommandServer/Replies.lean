import DistributedSystem.CommandServer.Events
import DistributedSystem.CommandServer.Pending

/-!
# Replies and complete commands

`Spells` says which bytes are a complete command with which reply. Every event of a run agrees
with it, except for the reply to `exit`: its branch does not look at the length, so the reply
goes out at the `e`. It agrees exactly when each `e` that starts a command has the rest of the
word behind it in the same chunk.
-/

namespace DistributedSystem.CommandServer

open Library

/-! ## Complete commands -/

/-- The bytes are a complete command with the given reply. What follows `exit` in the buffer is
    thrown away with the connection. -/
def Spells (bytes : List Byte) : Reply → Prop
  | .uptime => bytes = uptimeWord
  | .load => bytes = loadWord
  | .exit => exitWord <+: bytes
  | .sum n => ∃ ds, ds ≠ [] ∧ Digits ds ∧ bytes = ds ++ [space] ∧ n = digitSum ds
  | .invalid => False

/-- A valid reply is for a complete command, and carries its value; an invalid reply, or none,
    is for bytes that are no complete command. -/
def Event.Sound : Event → Prop
  | .waiting bytes => ∀ r, ¬ Spells bytes r
  | .answer bytes .invalid => ∀ r, ¬ Spells bytes r
  | .answer bytes r => Spells bytes r

/-- No unfinished command is complete. -/
theorem not_spells_of_partial {p : List Byte} (hp : Partial p) (r : Reply) : ¬ Spells p r := by
  intro h
  cases r with
  | uptime =>
    obtain rfl : p = uptimeWord := h
    exact absurd hp (by decide)
  | load =>
    obtain rfl : p = loadWord := h
    exact absurd hp (by decide)
  | exit => exact absurd (hp.of_prefix h) (by decide)
  | sum n =>
    obtain ⟨ds, -, -, rfl, -⟩ := h
    -- a number ends in a blank, which no unfinished command has
    have hmem : space ∈ ds ++ [space] := by simp
    rcases hp with hp | hp | hp
    · exact (not_number_of_mem uptimeWord (by simp [words]) (hp.1.subset hmem)).2 rfl
    · exact (not_number_of_mem loadWord (by simp [words]) (hp.1.subset hmem)).2 rfl
    · have := hp space (by simp)
      rw [isdigit_space] at this
      cases this
  | invalid => exact h

/-- A complete command other than `exit` is told by its last byte. -/
theorem verdict_of_spells {p : List Byte} (hp : Partial p) {b : Byte} {r : Reply}
    (h : Spells (p ++ [b]) r) : verdict p b = .done r := by
  have hsplit : ∀ word : List Byte, word ≠ [] → p ++ [b] = word →
      p = word.dropLast ∧ some b = word.getLast? := by
    rintro word - rfl
    simp
  cases r with
  | uptime =>
    obtain ⟨rfl, hb⟩ := hsplit uptimeWord (by decide) h
    obtain rfl : b = 101 := Option.some.inj (hb.trans (by decide))
    decide
  | load =>
    obtain ⟨rfl, hb⟩ := hsplit loadWord (by decide) h
    obtain rfl : b = 100 := Option.some.inj (hb.trans (by decide))
    decide
  | exit =>
    -- the word is longer than one byte, so an unfinished command would start with `e`
    exfalso
    cases p with
    | nil =>
      have hlen := h.length_le
      simp [exitWord] at hlen
    | cons c p =>
      have hc : (101 : Byte) = c := (List.cons_prefix_cons.mp h).1
      have hstart : Partial [c] := hp.of_prefix ⟨p, rfl⟩
      rw [← hc] at hstart
      exact absurd hstart (by decide)
  | sum n =>
    obtain ⟨ds, hne, hd, heq, rfl⟩ := h
    obtain ⟨rfl, hb⟩ := List.append_inj' heq rfl
    obtain rfl : b = space := List.singleton_inj.mp hb
    exact verdict_space hd hne
  | invalid => exact h.elim

/-- Every event but the reply to `exit` is sound. -/
theorem sound_of_not_exit {e : Event} (h : FromVerdict e) (hexit : e.isExit = false) :
    e.Sound := by
  obtain ⟨p, b, rest, n, hp, rfl⟩ := h
  have hspec := verdict_holds hp b
  cases hv : verdict p b with
  | wait =>
    rw [hv] at hspec
    exact not_spells_of_partial hspec
  | done r =>
    rw [hv] at hspec
    cases r with
    | uptime => exact hspec
    | load => exact hspec
    | sum n =>
      obtain ⟨hd, hne, hb, hn⟩ := hspec
      exact ⟨p, hne, hd, by rw [hb], hn⟩
    | exit => exact hspec.elim
    | invalid => exact hspec.elim
  | exit =>
    rw [hv] at hexit
    cases hexit
  | swallow =>
    -- had the byte completed a command, the verdict would have been another
    intro r hr
    rw [verdict_of_spells hp hr] at hv
    cases hv
  | reject => exact not_spells_of_partial hp

/-! ## Where `exit` is answered -/

/-- An unfinished command other than `uptim` cannot go on with `e`. -/
theorem verdict_e {p : List Byte} (hp : Partial p) (hnil : p ≠ [])
    (hne : p ≠ uptimeWord.dropLast) : verdict p 101 = .reject := by
  -- there are eight beginnings to look at
  have hword : p ∈ beginnings → verdict p 101 = .reject := by
    have hall : ∀ q ∈ beginnings, q ≠ uptimeWord.dropLast → verdict q 101 = .reject := by decide
    exact fun hmem => hall p hmem hne
  rcases hp with hp | hp | hp
  · exact hword (mem_beginnings_iff.mpr ⟨hnil, Or.inl hp⟩)
  · exact hword (mem_beginnings_iff.mpr ⟨hnil, Or.inr hp⟩)
  · -- a digit stands in none of the words
    obtain ⟨d, hd⟩ := List.exists_mem_of_ne_nil p hnil
    have hno : ∀ word ∈ words, ¬ p ++ [101] <+: word := fun word hw =>
      digit_not_prefix (hp d hd) (List.mem_append_left _ hd) hw
    unfold verdict
    rw [if_neg (hno _ (by simp [words])), if_neg (hno _ (by simp [words])),
      if_neg (hno _ (by simp [words])), if_neg (by decide), if_neg hnil]

theorem feedFresh_e (n : ℕ) : feedFresh n 101 = (.returned, [.exit]) := by
  have hv : verdict [] 101 = .exit := by decide
  simp [feedFresh, hv]

/-- The byte `e` completes `uptime`, or it ends the connection. -/
theorem feed_e {p : List Byte} {n : ℕ} (hs : Settled (.reading p n)) :
    (feed (.reading p n) 101).1 =
      if p = uptimeWord.dropLast then .reading [] 0 else .returned := by
  obtain ⟨hp, hzero⟩ := hs
  split
  · next heq =>
    have hv : verdict uptimeWord.dropLast 101 = .done .uptime := by decide
    simp [heq, feed, hv]
  next hne =>
  -- otherwise `e` is looked at again on an empty buffer, where it is `exit`
  by_cases hnil : p = []
  · rw [hnil, feed_reading_nil, feedFresh_e]
  · simp [feed, verdict_e hp hnil hne, hzero hnil, refuse, feedFresh_e]

/-- The events of the loop behind a connection that has been fed a byte: those of the loop that
    goes on, or the reply to `exit`. -/
def eventsAfter (s : Conn) (b : Byte) (w : List Byte) : List Event :=
  match s with
  | .reading p n => (scanLoop (p ++ w) p.length n).2
  | .returned => if b = 101 then [.answer (b :: w) .exit] else []

/-- The loop on a byte that it does not look at twice. -/
theorem scanLoop_events_once {p : List Byte} {n : ℕ} (hp : Partial p) {b : Byte}
    (hv : verdict p b ≠ .reject) (w : List Byte) :
    ∃ es, (∀ e ∈ es, e.isExit = false) ∧
      (scanLoop (p ++ b :: w) p.length n).2 = es ++ eventsAfter (feed (.reading p n) b).1 b w := by
  rw [scanLoop_scanned]
  cases h : verdict p b with
  | wait =>
    refine ⟨[.waiting (p ++ [b])], by simp [Event.isExit], ?_⟩
    simp [feed, h, eventsAfter, Verdict.turn]
  | done r =>
    -- only the branch of `exit` replies to it
    have hr : r ≠ .exit := by
      rintro rfl
      have hspec := verdict_holds hp b
      rw [h] at hspec
      exact hspec
    refine ⟨[.answer (p ++ [b]) r], ?_, ?_⟩
    · cases r <;> simp_all [Event.isExit]
    · simp [feed, h, eventsAfter, Verdict.turn]
  | exit =>
    obtain ⟨rfl, rfl⟩ := exit_of_verdict hp h
    refine ⟨[], by simp, ?_⟩
    simp [feed, h, eventsAfter, Verdict.turn]
  | swallow =>
    -- `e` is no blank and no digit, and on an empty buffer it is `exit`
    have hb : b ≠ 101 := by
      rintro rfl
      have hspec := verdict_holds hp 101
      rw [h] at hspec
      rcases hspec with ⟨hnum, -⟩ | ⟨rfl, -⟩
      · exact absurd hnum (by decide)
      · exact absurd h (by decide)
    refine ⟨[.answer (p ++ [b]) .invalid], by simp [Event.isExit], ?_⟩
    by_cases hn : 2 < n + 1
    · simp [feed, h, refuse, hn, eventsAfter, Verdict.turn, hb]
    · simp [feed, h, refuse, hn, eventsAfter, Verdict.turn]
  | reject => exact absurd h hv

/-- The loop on a byte, in any settled state. -/
theorem scanLoop_events_cons {p : List Byte} {n : ℕ} (hs : Settled (.reading p n)) (b : Byte)
    (w : List Byte) :
    ∃ es, (∀ e ∈ es, e.isExit = false) ∧
      (scanLoop (p ++ b :: w) p.length n).2 = es ++ eventsAfter (feed (.reading p n) b).1 b w := by
  obtain ⟨hp, hzero⟩ := hs
  by_cases hv : verdict p b = .reject
  · have hspec := verdict_holds hp b
    rw [hv] at hspec
    -- the byte is scanned again behind one invalid reply
    obtain ⟨es, hes, heq⟩ :=
      scanLoop_events_once (n := 1) partial_nil (verdict_nil_ne_reject b) w
    refine ⟨.answer p .invalid :: es, ?_, ?_⟩
    · intro e he
      rcases List.mem_cons.mp he with rfl | he
      · rfl
      · exact hes e he
    · rw [scanLoop_scanned, hzero hspec.1]
      rw [feed_reading_nil] at heq
      simp only [List.nil_append, List.length_nil] at heq
      simp [hv, feed, refuse, Verdict.turn, heq]
  · exact scanLoop_events_once hp hv w

/-- `e` is read in the state that the bytes `x` lead to, and does not complete `uptime`. -/
def ExitAt (s : Conn) (x : List Byte) : Prop :=
  ∃ p n, (scanner.read s x).1 = .reading p n ∧ p ≠ uptimeWord.dropLast

/-- The loop answers `exit` at the first `e` that does not complete `uptime`. -/
theorem exit_mem_scanLoop {q : List Byte} (w : List Byte) :
    ∀ {p n}, Settled (.reading p n) →
      (.answer q .exit ∈ (scanLoop (p ++ w) p.length n).2 ↔
        ∃ x y, w = x ++ 101 :: y ∧ q = 101 :: y ∧ ExitAt (.reading p n) x) := by
  induction w with
  | nil =>
    intro p n _
    rw [List.append_nil, scanLoop_end]
    simp
  | cons b w ih =>
    intro p n hs
    obtain ⟨es, hes, heq⟩ := scanLoop_events_cons hs b w
    have hnext := settled_feed _ b hs
    -- what comes before the rest of the loop holds no reply to `exit`
    have hmem : .answer q .exit ∈ (scanLoop (p ++ b :: w) p.length n).2 ↔
        .answer q .exit ∈ eventsAfter (feed (.reading p n) b).1 b w := by
      rw [heq, List.mem_append]
      refine or_iff_right fun h => ?_
      have := hes _ h
      cases this
    rw [hmem]
    -- the first byte is the `e`, or the state goes on
    have hsplit : (∃ x y, b :: w = x ++ 101 :: y ∧ q = 101 :: y ∧ ExitAt (.reading p n) x) ↔
        (b = 101 ∧ q = 101 :: w ∧ p ≠ uptimeWord.dropLast) ∨
          ∃ x y, w = x ++ 101 :: y ∧ q = 101 :: y ∧ ExitAt (feed (.reading p n) b).1 x := by
      constructor
      · rintro ⟨x, y, hw, hq, p', n', hread, hne⟩
        cases x with
        | nil =>
          obtain ⟨rfl, rfl⟩ := List.cons.inj hw
          cases hread
          exact Or.inl ⟨rfl, hq, hne⟩
        | cons c x =>
          obtain ⟨rfl, htail⟩ := List.cons.inj hw
          exact Or.inr ⟨x, y, htail, hq, p', n', hread, hne⟩
      · rintro (⟨rfl, hq, hne⟩ | ⟨x, y, rfl, hq, p', n', hread, hne⟩)
        · exact ⟨[], w, rfl, hq, p, n, rfl, hne⟩
        · exact ⟨b :: x, y, rfl, hq, p', n', hread, hne⟩
    rw [hsplit]
    cases hf : (feed (.reading p n) b).1 with
    | reading p' n' =>
      rw [hf] at hnext
      show .answer q .exit ∈ (scanLoop (p' ++ w) p'.length n').2 ↔ _
      rw [ih hnext]
      -- the server is still running, so the byte was no such `e`
      refine (or_iff_right ?_).symm
      rintro ⟨rfl, -, hne⟩
      rw [feed_e hs, if_neg hne] at hf
      cases hf
    | returned =>
      -- a closed connection reads no further `e`
      have hno : ¬ ∃ x y, w = x ++ 101 :: y ∧ q = 101 :: y ∧ ExitAt .returned x := by
        rintro ⟨x, y, -, -, p', n', hread, -⟩
        rw [read_returned] at hread
        cases hread
      rw [or_iff_left hno]
      show Event.answer q .exit ∈ (if b = 101 then [Event.answer (b :: w) .exit] else []) ↔ _
      by_cases hb : b = 101
      · subst hb
        have hne : p ≠ uptimeWord.dropLast := by
          intro h
          rw [feed_e hs, if_pos h] at hf
          cases hf
        simp [hne]
      · simp [hb]

/-! ## Over the chunks -/

/-- `e` stands in no unfinished command. -/
theorem e_notMem_of_unfinished {p : List Byte} (hp : Partial p) : 101 ∉ p := by
  intro hmem
  obtain ⟨x, y, rfl⟩ := List.append_of_mem hmem
  have hx : Partial (x ++ [101]) := hp.of_prefix ⟨y, by simp⟩
  have hwait : (feed (.reading x 0) 101).1 = .reading (x ++ [101]) 0 := by
    simp [feed, verdict_wait hx]
  rw [feed_e (settled_wait (hx.of_prefix (List.prefix_append x [101])))] at hwait
  split at hwait
  · simp at hwait
  · cases hwait

/-- One chunk: the unfinished command that is scanned again plays no part. -/
theorem exit_mem_receive {p : List Byte} {n : ℕ} (hs : Settled (.reading p n)) {c : Chunk}
    {r : Conn × List Event} (h : receive p n c = some r) (q : List Byte) :
    .answer q .exit ∈ r.2 ↔
      ∃ x y, c.text = x ++ 101 :: y ∧ q = 101 :: y ∧ ExitAt (.reading p n) x := by
  rw [receive, strcat_echoBuffer] at h
  split at h
  · simp only [Option.bind_eq_bind, Option.bind_some, Option.some.injEq] at h
    rw [← h]
    have hloop := exit_mem_scanLoop (q := q) (p ++ c.text) (settled_empty n)
    simp only [List.nil_append, List.length_nil] at hloop
    rw [hloop]
    obtain ⟨hp, hzero⟩ := id hs
    -- the pending bytes lead from the empty buffer to where the chunk begins
    have hread : ∀ x, scanner.read (.reading [] n) (p ++ x) = scanner.read (.reading p n) x := by
      intro x
      rw [Reader.read_append, read_partial hp]
      by_cases hnil : p = []
      · simp [hnil]
      · simp [hnil, hzero hnil]
    constructor
    · rintro ⟨x, y, heq, hq, hexit⟩
      rcases List.append_eq_append_iff.mp heq with ⟨z, rfl, htext⟩ | ⟨z, hpz, hz⟩
      · refine ⟨z, y, htext, hq, ?_⟩
        unfold ExitAt at hexit ⊢
        rwa [hread] at hexit
      · -- the `e` would stand in the unfinished command
        cases z with
        | nil =>
          rw [List.append_nil] at hpz
          subst hpz
          refine ⟨[], y, hz.symm, hq, ?_⟩
          have := hread []
          rw [List.append_nil] at this
          unfold ExitAt at hexit ⊢
          rwa [this] at hexit
        | cons d z =>
          obtain ⟨rfl, -⟩ := List.cons.inj hz
          exact absurd (by rw [hpz]; simp) (e_notMem_of_unfinished hp)
    · rintro ⟨x, y, htext, hq, hexit⟩
      refine ⟨p ++ x, y, by rw [htext, List.append_assoc], hq, ?_⟩
      unfold ExitAt at hexit ⊢
      rwa [hread]
  · simp at h

/-- The stream ends in `uptim` exactly when that is the unfinished command. -/
theorem unfinished_eq_uptim (w : List Byte) :
    unfinished w = uptimeWord.dropLast ↔ uptimeWord.dropLast <:+ w := by
  have hmem : uptimeWord.dropLast ∈ beginnings := by decide
  constructor
  · intro h
    by_cases hnil : w.rtakeWhile isdigit = []
    · rw [unfinished_of_letter hnil] at h
      rcases unfinishedWord_cases w with ⟨-, hsuf⟩ | ⟨hempty, -⟩
      · rwa [← h]
      · rw [h] at hempty
        exact absurd hempty (by decide)
    · -- behind digits only digits are pending
      have hd := digits_unfinished hnil
      rw [h] at hd
      exact absurd hd (by decide)
  · intro h
    -- the stream ends in `m`, which is no digit
    have hlast : w.getLast? = some 109 := by
      rw [← getLast?_of_suffix h (by decide)]
      decide
    have hnil : w.rtakeWhile isdigit = [] := by
      obtain ⟨v, rfl⟩ := List.getLast?_eq_some_iff.mp hlast
      exact List.rtakeWhile_concat_neg _ _ _ (by decide)
    rw [unfinished_of_letter hnil, unfinishedWord_of_suffix hmem h]

/-- `e` starts a command behind the stream `w`. -/
theorem exitAt_of_stream {w : List Byte} {p : List Byte} {n : ℕ}
    (hw : (scanner.read .init w).1 = .reading p n) (x : List Byte) :
    ExitAt (.reading p n) x ↔ Open (w ++ x) ∧ ¬ uptimeWord.dropLast <:+ w ++ x := by
  have hread : (scanner.read .init (w ++ x)).1 = (scanner.read (.reading p n) x).1 := by
    rw [Reader.read_append, hw]
  unfold ExitAt Open
  rw [← hread, ← unfinished_eq_uptim]
  cases hx : (scanner.read .init (w ++ x)).1 with
  | returned => simp
  | reading p' n' => simp [← pending_eq_unfinished _ hx]

/-- The `e` that is answered as `exit` and what stands behind it in its chunk. -/
def ExitStarts (before : List Chunk) (c : Chunk) (y : List Byte) : Prop :=
  ∃ x, c.text = x ++ 101 :: y ∧ Open (stream before ++ x) ∧
    ¬ uptimeWord.dropLast <:+ stream before ++ x

/-- Where a run answers `exit`, by induction on the chunks still to come. -/
theorem exit_mem_from {q : List Byte} (cs : List Chunk) :
    ∀ before r, HandleTCPClient (scanner.read .init (stream before)).1 cs = some r →
      (.answer q .exit ∈ r.2 ↔
        ∃ mid c after y, cs = mid ++ c :: after ∧ q = 101 :: y ∧
          ExitStarts (before ++ mid) c y) := by
  induction cs with
  | nil =>
    intro before r h
    have hr : r.2 = [] := by
      cases hs : (scanner.read .init (stream before)).1 <;>
        · rw [hs] at h
          cases h
          rfl
    simp [hr]
  | cons c cs ih =>
    intro before r h
    cases hs : (scanner.read .init (stream before)).1 with
    | returned =>
      rw [hs] at h
      cases h
      -- a closed connection has no events, and none of its bytes is open
      refine iff_of_false (by simp) ?_
      rintro ⟨mid, c', after, y, -, -, x, -, hopen, -⟩
      rw [stream_append, List.append_assoc] at hopen
      exact not_open_append hs _ hopen
    | reading p n =>
      have hset := settled_read settled_init (stream before)
      rw [hs] at h hset
      simp only [HandleTCPClient, Option.bind_eq_bind, Option.bind_eq_some_iff,
        Option.some.injEq] at h
      obtain ⟨r₁, h₁, r₂, h₂, rfl⟩ := h
      have hconn := ((receive_of_stream hs c).1 r₁ h₁).2
      rw [← stream_singleton, ← stream_append] at hconn
      rw [hconn] at h₂
      rw [List.mem_append, exit_mem_receive hset h₁, ih _ _ h₂]
      -- the `e` is in this chunk, or in one that comes after it
      constructor
      · rintro (⟨x, y, htext, hq, hexit⟩ | ⟨mid, c', after, y, rfl, hq, hstarts⟩)
        · refine ⟨[], c, cs, y, rfl, hq, x, htext, ?_⟩
          rw [List.append_nil]
          exact (exitAt_of_stream hs x).mp hexit
        · refine ⟨c :: mid, c', after, y, rfl, hq, ?_⟩
          rwa [List.append_assoc] at hstarts
      · rintro ⟨mid, c', after, y, heq, hq, hstarts⟩
        cases mid with
        | nil =>
          obtain ⟨rfl, -⟩ := List.cons.inj heq
          obtain ⟨x, htext, hx⟩ := hstarts
          rw [List.append_nil] at hx
          exact Or.inl ⟨x, y, htext, hq, (exitAt_of_stream hs x).mpr hx⟩
        | cons d mid =>
          obtain ⟨rfl, htail⟩ := List.cons.inj heq
          refine Or.inr ⟨mid, c', after, y, htail, hq, ?_⟩
          rwa [List.append_assoc]

/-! ## The law and its condition -/

/-- In every event of a run the reply fits the bytes. -/
def RepliesSound (r : Conn × List Event) : Prop := ∀ e ∈ r.2, e.Sound

/-- Whenever an open connection reads an `e` that does not complete `uptime`, the rest of
    `exit` is behind it in the same chunk. -/
def ExitWhole (cs : List Chunk) : Prop :=
  ∀ before c after x y, cs = before ++ c :: after → c.bytes = x ++ 101 :: y →
    Open (sent before ++ x) → ¬ uptimeWord.dropLast <:+ sent before ++ x → exitWord.tail <+: y

/-- The reply to `exit` goes out at the first letter. -/
theorem not_repliesSound : ¬ ∀ cs r, Serves cs r → RepliesSound r := by
  intro hall
  obtain ⟨r, h⟩ := exists_serves [.ofChars ['e']] (by decide) (by decide)
  have hrun : HandleTCPClient (scanner.read .init (stream [])).1 [.ofChars ['e']] = some r :=
    h.run
  have hmem : .answer [101] .exit ∈ r.2 :=
    (exit_mem_from _ [] r hrun).mpr
      ⟨[], _, [], [], rfl, rfl, [], by decide, by decide, by decide⟩
  have hsound : exitWord <+: [101] := hall _ r h _ hmem
  revert hsound
  decide

/-- The replies of a run are sound exactly when `exit` is never cut. -/
theorem repliesSound_iff {cs : List Chunk} {r : Conn × List Event} (h : Serves cs r) :
    RepliesSound r ↔ ExitWhole cs := by
  have hword : ∀ y : List Byte, exitWord <+: 101 :: y ↔ exitWord.tail <+: y := by
    intro y
    show (101 : Byte) :: exitWord.tail <+: 101 :: y ↔ _
    rw [List.cons_prefix_cons]
    simp
  -- without NUL bytes, what is appended is what is sent
  have htext : ∀ before c after, cs = before ++ c :: after →
      c.text = c.bytes ∧ stream before = sent before := by
    rintro before c after rfl
    refine ⟨Chunk.text_eq_bytes (h.noNul c (by simp)), ?_⟩
    exact stream_eq_sent fun c' hc' => h.noNul c' (List.mem_append_left _ hc')
  have hexit : ∀ q, .answer q .exit ∈ r.2 ↔
      ∃ mid c after y, cs = mid ++ c :: after ∧ q = 101 :: y ∧ ExitStarts mid c y := by
    intro q
    simpa using exit_mem_from (q := q) cs [] r h.run
  constructor
  · intro hsound before c after x y heq hbytes hopen hup
    obtain ⟨hc, hb⟩ := htext before c after heq
    have hmem : .answer (101 :: y) .exit ∈ r.2 :=
      (hexit _).mpr ⟨before, c, after, y, heq, rfl, x, by rw [hc, hbytes], by rwa [hb], by rwa [hb]⟩
    exact (hword y).mp (hsound _ hmem)
  · intro hwhole e he
    by_cases hex : e.isExit = true
    · -- only a reply to `exit` can be wrong, and its bytes start at an `e`
      obtain ⟨q, rfl⟩ : ∃ q, e = .answer q .exit := by
        cases e with
        | waiting q => cases hex
        | answer q s => cases s <;> first | exact ⟨q, rfl⟩ | cases hex
      obtain ⟨before, c, after, y, heq, rfl, x, hx, hopen, hup⟩ := (hexit q).mp he
      obtain ⟨hc, hb⟩ := htext before c after heq
      rw [hc] at hx
      rw [hb] at hopen hup
      exact (hword y).mpr (hwhole before c after x y heq hx hopen hup)
    · exact sound_of_not_exit (HandleTCPClient_events h.run e he) (by simpa using hex)

/-- A number, and `exit` in one chunk. -/
theorem repliesSound_iff_exit :
    ∃ r, Serves [.ofChars ['7'], .ofChars [' ', 'e', 'x', 'i', 't']] r ∧
      (RepliesSound r ↔ ExitWhole [.ofChars ['7'], .ofChars [' ', 'e', 'x', 'i', 't']]) := by
  obtain ⟨r, h⟩ := exists_serves [.ofChars ['7'], .ofChars [' ', 'e', 'x', 'i', 't']]
    (by decide) (by decide)
  exact ⟨r, h, repliesSound_iff h⟩

end DistributedSystem.CommandServer
