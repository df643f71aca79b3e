import DistributedSystem.CommandServer.Server
import DistributedSystem.Library.Stream
import Mathlib.Data.List.Induction
import Mathlib.Data.List.TakeWhile

/-!
# The scanner, a byte at a time

The loop over the buffer scans the unfinished command again after every chunk and after every
reply. Its meaning is simpler: `verdict` says what a byte does behind an unfinished command,
and `scanner` is the reader that follows the verdicts. `scanLoop_read` shows that the loop is
that reader, so `HandleTCPClient` reads the stream and not its chunks.
-/

namespace DistributedSystem.CommandServer

open Library

/-! ## Unfinished commands -/

/-- A beginning of a word, shorter than the word. -/
def Beginning (word p : List Byte) : Prop := p <+: word ∧ p ≠ word

/-- Only digits. -/
def Digits (p : List Byte) : Prop := ∀ b ∈ p, isdigit b = true

/-- What can wait in the buffer: a beginning of `uptime` or `load`, or digits. -/
def Partial (p : List Byte) : Prop :=
  Beginning uptimeWord p ∨ Beginning loadWord p ∨ Digits p

instance (word p : List Byte) : Decidable (Beginning word p) :=
  inferInstanceAs (Decidable (_ ∧ _))
instance (p : List Byte) : Decidable (Digits p) :=
  List.decidableBAll _ p
instance (p : List Byte) : Decidable (Partial p) :=
  inferInstanceAs (Decidable (_ ∨ _ ∨ _))

theorem partial_nil : Partial [] := by
  right
  right
  intro b hb
  simp at hb

theorem digits_concat {p : List Byte} {b : Byte} :
    Digits (p ++ [b]) ↔ Digits p ∧ isdigit b = true := by
  simp [Digits, or_imp, forall_and]

/-- A beginning of an unfinished command is unfinished as well. -/
theorem Partial.of_prefix {p q : List Byte} (hq : Partial q) (h : p <+: q) : Partial p := by
  have hword : ∀ w, Beginning w q → Beginning w p := by
    rintro w ⟨hqw, hne⟩
    refine ⟨h.trans hqw, ?_⟩
    rintro rfl
    exact hne (hqw.eq_of_length_le h.length_le)
  rcases hq with hq | hq | hq
  · exact Or.inl (hword _ hq)
  · exact Or.inr (Or.inl (hword _ hq))
  · exact Or.inr (Or.inr fun b hb => hq b (h.subset hb))

/-- The words of the server. -/
def words : List (List Byte) := [uptimeWord, loadWord, exitWord]

/-- No letter of the words is a digit or a blank. -/
theorem not_number_of_mem (word : List Byte) (hw : word ∈ words) {b : Byte} (hb : b ∈ word) :
    isdigit b = false ∧ b ≠ space := by
  have hall : (words.all fun w => w.all fun b => !isdigit b && b != space) = true := by decide
  have hletter := List.all_eq_true.mp (List.all_eq_true.mp hall word hw) b hb
  simpa using hletter

/-- An unfinished command that ends in a digit has only digits. -/
theorem Partial.digits_of_last {p : List Byte} {d : Byte} (h : Partial (p ++ [d]))
    (hd : isdigit d = true) : Digits (p ++ [d]) := by
  -- a digit would have to be a letter of the word
  have hmem : ∀ w, Beginning w (p ++ [d]) → d ∈ w := fun w hw => hw.1.subset (by simp)
  rcases h with h | h | h
  · simp [(not_number_of_mem uptimeWord (by simp [words]) (hmem _ h)).1] at hd
  · simp [(not_number_of_mem loadWord (by simp [words]) (hmem _ h)).1] at hd
  · exact h

/-! ## The verdict on a byte -/

/-- What a byte does behind an unfinished command. -/
inductive Verdict where
  /-- the command goes on -/
  | wait
  /-- the command is complete -/
  | done (r : Reply)
  /-- the branch of `exit` -/
  | exit
  /-- invalid, and the byte goes too -/
  | swallow
  /-- invalid, and the byte is looked at again -/
  | reject
  deriving DecidableEq

/-- The `if` chain, read on the unfinished command `p` and the next byte. -/
def verdict (p : List Byte) (b : Byte) : Verdict :=
  if p ++ [b] <+: uptimeWord then
    if p.length + 1 = uptimeWord.length then .done .uptime else .wait
  else if p ++ [b] <+: loadWord then
    if p.length + 1 = loadWord.length then .done .load else .wait
  else if p ++ [b] <+: exitWord then .exit
  else if isdigit b ∨ b = space then
    if p.getLast?.any (fun d => !isdigit d) ∨ (p = [] ∧ b = space) then .swallow
    else if b = space then .done (.sum (digitSum p))
    else .wait
  else if p = [] then .swallow
  else .reject

/-- The turn of the loop that a verdict stands for. -/
def Verdict.turn (v : Verdict) (p : List Byte) (b : Byte) (rest : List Byte) (n : ℕ) : Turn :=
  match v with
  | .wait => ⟨p ++ b :: rest, p.length + 1, 0, false, .waiting (p ++ [b])⟩
  | .done r => ⟨rest, 0, 0, false, .answer (p ++ [b]) r⟩
  | .exit => ⟨[], p.length + 1, 0, true, .answer (p ++ b :: rest) .exit⟩
  | .swallow => ⟨rest, 0, n + 1, decide (2 < n + 1), .answer (p ++ [b]) .invalid⟩
  | .reject => ⟨b :: rest, 0, n + 1, decide (2 < n + 1), .answer p .invalid⟩

section Locality

variable (p rest : List Byte) (b : Byte)

theorem take_scanned : (p ++ b :: rest).take (p.length + 1) = p ++ [b] := by
  rw [List.take_append, List.take_of_length_le (Nat.le_succ _)]
  simp

theorem drop_scanned : (p ++ b :: rest).drop (p.length + 1) = rest := by
  simp [List.drop_append]

theorem charAt_scanned : charAt (p ++ b :: rest) (p.length + 1 - 1) = b := by
  simp [charAt]

/-- The byte before the scanned one. -/
theorem charAt_before (q : List Byte) (d : Byte) :
    charAt ((q ++ [d]) ++ b :: rest) ((q ++ [d]).length + 1 - 2) = d := by
  simp [charAt]

theorem strncmpEq_scanned (word : List Byte) :
    strncmpEq (p ++ b :: rest) word (p.length + 1) = true ↔ p ++ [b] <+: word := by
  rw [strncmpEq, take_scanned, beq_iff_eq, List.prefix_iff_eq_take]
  simp

/-- The word branches look at nothing behind the scanned byte. -/
theorem wordTurn_scanned (word : List Byte) (r : Reply) (n : ℕ) :
    wordTurn (p ++ b :: rest) word (p.length + 1) r =
      (if p.length + 1 = word.length then Verdict.done r else .wait).turn p b rest n := by
  unfold wordTurn
  split
  · simp only [Verdict.turn, manageBuffer, drop_scanned, take_scanned]
  · simp only [Verdict.turn, take_scanned]

/-- The guard of the number branch, in terms of the unfinished command. -/
theorem number_guard :
    (1 < p.length + 1 ∧ isdigit (charAt (p ++ b :: rest) (p.length + 1 - 2)) = false) ∨
        (p.length + 1 = 1 ∧ charAt (p ++ b :: rest) (p.length + 1 - 1) = space) ↔
      p.getLast?.any (fun d => !isdigit d) ∨ (p = [] ∧ b = space) := by
  rw [charAt_scanned]
  rcases List.eq_nil_or_concat' p with rfl | ⟨q, d, rfl⟩
  · simp
  · rw [charAt_before]
    simp

/-- One iteration does what the verdict says. -/
theorem iteration_scanned (n : ℕ) :
    iteration (p ++ b :: rest) (p.length + 1) n = (verdict p b).turn p b rest n := by
  -- both sides are the same `if` chain, so the branches are compared one by one
  unfold iteration verdict
  simp only [strncmpEq_scanned, charAt_scanned]
  split
  · exact wordTurn_scanned p rest b uptimeWord .uptime n
  split
  · exact wordTurn_scanned p rest b loadWord .load n
  split
  · rfl
  split
  · unfold numberTurn
    simp only [number_guard]
    split
    · simp only [Verdict.turn, invalidTurn, manageBuffer, drop_scanned, take_scanned]
    simp only [charAt_scanned]
    split
    · simp only [Verdict.turn, manageBuffer, drop_scanned, take_scanned]
      simp
    · simp only [Verdict.turn, take_scanned]
  · -- an empty buffer would not get shorter, so there the byte goes too
    by_cases hp : p = []
    · subst hp
      simp [Verdict.turn, invalidTurn, manageBuffer]
    · simp [hp, Verdict.turn, invalidTurn, manageBuffer]

end Locality

/-- The loop from a byte on: its verdict, then the loop on what the verdict leaves. -/
theorem scanLoop_scanned (p rest : List Byte) (b : Byte) (n : ℕ) :
    scanLoop (p ++ b :: rest) p.length n =
      let t := (verdict p b).turn p b rest n
      if t.returned then (.returned, [t.event])
      else ((scanLoop t.myBuffer t.my_char t.numInvalid).1,
        t.event :: (scanLoop t.myBuffer t.my_char t.numInvalid).2) := by
  have hlt : p.length < (p ++ b :: rest).length := by simp
  rw [scanLoop, if_pos hlt]
  simp only [iteration_scanned]

/-- The loop has nothing to do behind the last byte. -/
theorem scanLoop_end (p : List Byte) (n : ℕ) : scanLoop p p.length n = (.reading p n, []) := by
  rw [scanLoop, if_neg (Nat.lt_irrefl _)]

/-! ## The reader -/

/-- An invalid reply: the third in a row returns, otherwise `next` goes on. -/
def refuse (n : ℕ) (next : Conn × List Reply) : Conn × List Reply :=
  if 2 < n + 1 then (.returned, [.invalid]) else (next.1, .invalid :: next.2)

/-- A byte on an empty buffer. -/
def feedFresh (n : ℕ) (b : Byte) : Conn × List Reply :=
  match verdict [] b with
  | .wait => (.reading [b] 0, [])
  | .done r => (.reading [] 0, [r])
  | .exit => (.returned, [.exit])
  | .swallow | .reject => refuse n (.reading [] (n + 1), [])

/-- A byte in any state of the connection. -/
def feed : Conn → Byte → Conn × List Reply
  | .returned, _ => (.returned, [])
  | .reading p n, b =>
    match verdict p b with
    | .wait => (.reading (p ++ [b]) 0, [])
    | .done r => (.reading [] 0, [r])
    | .exit => (.returned, [.exit])
    | .swallow => refuse n (.reading [] (n + 1), [])
    | .reject => refuse n (feedFresh (n + 1) b)

/-- The server as a reader of bytes. -/
def scanner : Reader Conn Byte Reply := ⟨feed⟩

/-- The state and the replies of a loop. -/
def observed (r : Conn × List Event) : Conn × List Reply := (r.1, replies r.2)

theorem replies_append (es es' : List Event) : replies (es ++ es') = replies es ++ replies es' :=
  List.filterMap_append

theorem verdict_nil_ne_reject (b : Byte) : verdict [] b ≠ .reject := by
  unfold verdict
  repeat' split
  all_goals simp_all

/-- On an empty buffer a byte is fed as `feedFresh` says. -/
theorem feed_reading_nil (n : ℕ) (b : Byte) : feed (.reading [] n) b = feedFresh n b := by
  have hne := verdict_nil_ne_reject b
  cases h : verdict [] b with
  | reject => exact absurd h hne
  | _ => simp [feed, feedFresh, h]

theorem read_returned (w : List Byte) : scanner.read .returned w = (.returned, []) :=
  scanner.read_silent (fun _ => rfl) w

theorem read_reading (p : List Byte) (n : ℕ) (b : Byte) (w : List Byte) :
    scanner.read (.reading p n) (b :: w) =
      ((scanner.read (feed (.reading p n) b).1 w).1,
        (feed (.reading p n) b).2 ++ (scanner.read (feed (.reading p n) b).1 w).2) := rfl

/-- A byte that is not looked at twice: the loop goes on where the reader does. -/
theorem scanLoop_read_cons {w : List Byte}
    (ih : ∀ p n, observed (scanLoop (p ++ w) p.length n) = scanner.read (.reading p n) w)
    (b : Byte) {p : List Byte} (n : ℕ) (hv : verdict p b ≠ .reject) :
    observed (scanLoop (p ++ b :: w) p.length n) = scanner.read (.reading p n) (b :: w) := by
  -- where the loop goes on after the byte: an empty buffer, or one byte more
  have hnil : ∀ m, observed (scanLoop w 0 m) = scanner.read (.reading [] m) w := ih []
  have hlong := ih (p ++ [b]) 0
  rw [List.append_assoc, List.singleton_append, List.length_append] at hlong
  rw [scanLoop_scanned, read_reading]
  cases h : verdict p b with
  | wait =>
    simp only [feed, h, ← hlong]
    rfl
  | done r =>
    simp only [feed, h, ← hnil]
    rfl
  | exit =>
    simp only [feed, h, read_returned]
    rfl
  | swallow =>
    -- the third in a row returns
    by_cases hn : 2 < n + 1
    · simp [feed, h, refuse, hn, read_returned, Verdict.turn, observed, replies, Event.reply?]
    · simp only [feed, h, refuse, if_neg hn, ← hnil]
      simp [Verdict.turn, hn, observed, replies, Event.reply?]
  | reject => exact absurd h hv

/-- The loop behind the unfinished command is the reader. -/
theorem scanLoop_read (p w : List Byte) (n : ℕ) :
    observed (scanLoop (p ++ w) p.length n) = scanner.read (.reading p n) w := by
  induction w generalizing p n with
  | nil =>
    rw [List.append_nil, scanLoop_end]
    rfl
  | cons b w ih =>
    by_cases hv : verdict p b = .reject
    · -- the buffer starts with the rejected byte when the loop starts again
      have hfresh : observed (scanLoop (b :: w) 0 (n + 1)) =
          scanner.read (.reading [] (n + 1)) (b :: w) :=
        scanLoop_read_cons ih b (n + 1) (verdict_nil_ne_reject b)
      rw [read_reading, feed_reading_nil] at hfresh
      rw [scanLoop_scanned, read_reading]
      by_cases hn : 2 < n + 1
      · simp [feed, hv, refuse, hn, read_returned, Verdict.turn, observed, replies, Event.reply?]
      · simp only [feed, hv, refuse, if_neg hn, List.cons_append]
        obtain ⟨hconn, hreplies⟩ := Prod.ext_iff.mp hfresh
        simp only at hconn hreplies
        rw [← hconn, ← hreplies]
        simp [Verdict.turn, hn, observed, replies, Event.reply?]
    · exact scanLoop_read_cons ih b n hv

/-! ## Waiting commands -/

theorem isdigit_space : isdigit space = false := rfl

/-- A digit stands in none of the words. -/
theorem digit_not_prefix {p word : List Byte} {b : Byte} (hb : isdigit b = true) (hp : b ∈ p)
    (hw : word ∈ words) : ¬ p <+: word := by
  intro h
  rw [(not_number_of_mem _ hw (h.subset hp)).1] at hb
  cases hb

/-- A beginning is shorter than its word. -/
theorem Beginning.length_lt {word p : List Byte} (h : Beginning word p) :
    p.length < word.length := by
  rcases Nat.lt_or_ge p.length word.length with hlt | hge
  · exact hlt
  · exact absurd (h.1.eq_of_length_le hge) h.2

/-- What leads to an unfinished command makes the server wait. -/
theorem verdict_wait {p : List Byte} {b : Byte} (h : Partial (p ++ [b])) :
    verdict p b = .wait := by
  have hlt : ∀ word, Beginning word (p ++ [b]) → p.length + 1 < word.length := by
    intro word hword
    have := hword.length_lt
    simpa using this
  unfold verdict
  rcases h with h | h | h
  · -- shorter than the word, so it is not complete
    have := hlt _ h
    rw [if_pos h.1, if_neg (by omega)]
  · -- where it begins `uptime` as well, it is too short for that word too
    have hload := hlt _ h
    have hlong : loadWord.length < uptimeWord.length := by decide
    split
    · rw [if_neg (by omega)]
    · rw [if_pos h.1, if_neg (by omega)]
  · -- digits: none of the words, and no letter before
    obtain ⟨hp, hb⟩ := digits_concat.mp h
    have hspace : b ≠ space := by
      rintro rfl
      simp [isdigit_space] at hb
    have hlast : p.getLast?.any (fun d => !isdigit d) = false := by
      rw [Option.any_eq_false]
      intro d hd
      simp [hp d (List.mem_of_getLast? hd)]
    have hno : ∀ word ∈ words, ¬ p ++ [b] <+: word := fun word hw =>
      digit_not_prefix hb (by simp) hw
    rw [if_neg (hno _ (by simp [words])), if_neg (hno _ (by simp [words])),
      if_neg (hno _ (by simp [words])), if_pos (Or.inl hb)]
    simp [hlast, hspace]

/-- What each verdict says about the unfinished command and the byte. -/
def Verdict.Holds (p : List Byte) (b : Byte) : Verdict → Prop
  | .wait => Partial (p ++ [b])
  | .done .uptime => p ++ [b] = uptimeWord
  | .done .load => p ++ [b] = loadWord
  | .done (.sum n) => Digits p ∧ p ≠ [] ∧ b = space ∧ n = digitSum p
  | .done _ => False
  | .exit => p ++ [b] <+: exitWord
  | .swallow =>
    (isdigit b = true ∨ b = space) ∧ (p = [] → b = space) ∧ (Digits p → p = []) ∨
      p = [] ∧ isdigit b = false ∧ b ≠ space
  | .reject => p ≠ [] ∧ isdigit b = false ∧ b ≠ space

/-- The guard for two bytes that do not go together, on an unfinished command. -/
theorem digits_iff_last {p : List Byte} (hp : Partial p) :
    p.getLast?.any (fun d => !isdigit d) = false ↔ Digits p := by
  rcases List.eq_nil_or_concat' p with rfl | ⟨q, d, rfl⟩
  · simp [Digits]
  · constructor
    · intro h
      exact hp.digits_of_last (by simpa using h)
    · intro h
      simp [h d (by simp)]

/-- The branches for a word: complete, or a beginning. -/
theorem word_holds {p word : List Byte} {b : Byte} (hpre : p ++ [b] <+: word) :
    (p.length + 1 = word.length → p ++ [b] = word) ∧
      (¬ p.length + 1 = word.length → Beginning word (p ++ [b])) := by
  constructor
  · intro hlen
    exact hpre.eq_of_length (by simpa using hlen)
  · intro hlen
    refine ⟨hpre, ?_⟩
    rintro rfl
    exact hlen (by simp)

/-- Every verdict is right about its byte. -/
theorem verdict_holds {p : List Byte} (hp : Partial p) (b : Byte) : (verdict p b).Holds p b := by
  unfold verdict
  split
  · next hpre =>
    split
    · next hlen => exact (word_holds hpre).1 hlen
    · next hlen => exact Or.inl ((word_holds hpre).2 hlen)
  split
  · next hpre =>
    split
    · next hlen => exact (word_holds hpre).1 hlen
    · next hlen => exact Or.inr (Or.inl ((word_holds hpre).2 hlen))
  split
  · next hpre => exact hpre
  split
  · next hnum =>
    split
    · next hguard =>
      left
      rw [← digits_iff_last hp]
      refine ⟨hnum, ?_, ?_⟩
      · rintro rfl
        simpa using hguard
      · intro hlast
        rcases hguard with hguard | hguard
        · rw [hlast] at hguard
          cases hguard
        · exact hguard.1
    next hguard =>
    obtain ⟨hlast, hne⟩ := not_or.mp hguard
    rw [Bool.not_eq_true, digits_iff_last hp] at hlast
    split
    · next hspace => exact ⟨hlast, fun h => hne ⟨h, hspace⟩, hspace, rfl⟩
    · next hspace => exact Or.inr (Or.inr (digits_concat.mpr ⟨hlast, hnum.resolve_right hspace⟩))
  · next hnum =>
    obtain ⟨hdigit, hspace⟩ := not_or.mp hnum
    rw [Bool.not_eq_true] at hdigit
    split
    · next hnil => exact Or.inr ⟨hnil, hdigit, hspace⟩
    · next hnil => exact ⟨hnil, hdigit, hspace⟩

/-- The server waits with unfinished commands only. -/
theorem partial_of_wait {p : List Byte} {b : Byte} (hp : Partial p)
    (h : verdict p b = .wait) : Partial (p ++ [b]) := by
  have := verdict_holds hp b
  rwa [h] at this

/-- Only `e` on an empty buffer takes the branch of `exit`. -/
theorem exit_of_verdict {p : List Byte} {b : Byte} (hp : Partial p)
    (h : verdict p b = .exit) : p = [] ∧ b = 101 := by
  have hpre := verdict_holds hp b
  rw [h] at hpre
  cases p with
  | nil => exact ⟨rfl, (List.cons_prefix_cons.mp hpre).1⟩
  | cons c p =>
    -- no unfinished command starts with `e`
    have hc : c = 101 := (List.cons_prefix_cons.mp hpre).1
    have hstart : Partial [c] := hp.of_prefix ⟨p, rfl⟩
    rw [hc] at hstart
    exact absurd hstart (by decide)

/-- An unfinished command is read without a reply. -/
theorem read_partial {p : List Byte} (h : Partial p) (n : ℕ) :
    scanner.read (.reading [] n) p = (.reading p (if p = [] then n else 0), []) := by
  induction p using List.reverseRecOn with
  | nil => rfl
  | append_singleton p b ih =>
    -- all shorter beginnings wait too, so the last byte meets the rest of them
    have hp : Partial p := h.of_prefix (List.prefix_append p [b])
    rw [Reader.read_append, ih hp, read_reading, feed, verdict_wait h]
    simp

/-! ## The server is the reader -/

/-- Between two chunks the buffer holds an unfinished command, and while there is one no
    invalid reply counts. -/
def Settled : Conn → Prop
  | .reading p n => Partial p ∧ (p ≠ [] → n = 0)
  | .returned => True

theorem settled_empty (n : ℕ) : Settled (.reading [] n) :=
  ⟨partial_nil, fun h => absurd rfl h⟩

theorem settled_init : Settled Conn.init := settled_empty 0

theorem settled_wait {p : List Byte} (h : Partial p) : Settled (.reading p 0) := ⟨h, fun _ => rfl⟩

theorem settled_refuse {n : ℕ} {next : Conn × List Reply} (h : Settled next.1) :
    Settled (refuse n next).1 := by
  unfold refuse
  split
  · trivial
  · exact h

theorem settled_feedFresh (n : ℕ) (b : Byte) : Settled (feedFresh n b).1 := by
  unfold feedFresh
  cases h : verdict [] b with
  | wait => exact settled_wait (partial_of_wait partial_nil h)
  | done r => exact settled_empty 0
  | exit => trivial
  | swallow => exact settled_refuse (settled_empty _)
  | reject => exact settled_refuse (settled_empty _)

/-- Every byte leaves the connection settled. -/
theorem settled_feed (s : Conn) (b : Byte) (hs : Settled s) : Settled (feed s b).1 := by
  cases s with
  | returned => trivial
  | reading p n =>
    cases h : verdict p b with
    | wait =>
      simp only [feed, h]
      exact settled_wait (partial_of_wait hs.1 h)
    | done r =>
      simp only [feed, h]
      exact settled_empty 0
    | exit =>
      simp only [feed, h]
      trivial
    | swallow =>
      simp only [feed, h]
      exact settled_refuse (settled_empty _)
    | reject =>
      simp only [feed, h]
      exact settled_refuse (settled_feedFresh _ b)

theorem settled_read {s : Conn} (hs : Settled s) (w : List Byte) :
    Settled (scanner.read s w).1 :=
  scanner.read_invariant settled_feed s hs w

/-- The bytes of a chunk that `strcat` appends. -/
def Chunk.text (c : Chunk) : List Byte := c.bytes.takeWhile (· ≠ 0)

/-- The stream that a list of chunks is cut from, as far as it is appended. -/
def stream (cs : List Chunk) : List Byte := (cs.map Chunk.text).flatten

theorem Chunk.text_eq_bytes {c : Chunk} (h : 0 ∉ c.bytes) : c.text = c.bytes := by
  unfold Chunk.text
  rw [List.takeWhile_eq_self_iff]
  intro b hb
  simp only [ne_eq, decide_eq_true_eq]
  rintro rfl
  exact h hb

/-- When `strcat` is defined, and what it gives. -/
theorem strcat_echoBuffer (p : List Byte) (c : Chunk) :
    strcat p c.echoBuffer =
      if (c.bytes.length < RCVBUFSIZE ∨ 0 ∈ c.bytes) ∧
          p.length + c.text.length + 1 ≤ RCVBUFSIZE then some (p ++ c.text)
      else none := by
  -- `strcat` reads to the first NUL, which the padding has unless the chunk fills it
  have hmem : 0 ∈ c.echoBuffer ↔ c.bytes.length < RCVBUFSIZE ∨ 0 ∈ c.bytes := by
    have := c.le
    rw [Chunk.echoBuffer, List.mem_append, List.mem_replicate]
    constructor
    · rintro (h | h)
      · exact Or.inr h
      · exact Or.inl (by omega)
    · rintro (h | h)
      · exact Or.inr ⟨by omega, rfl⟩
      · exact Or.inl h
  have htext : c.echoBuffer.takeWhile (· ≠ 0) = c.text := by
    rw [Chunk.echoBuffer, Chunk.text, List.takeWhile_append]
    split
    · -- no NUL in the chunk: it is appended as a whole
      next hall =>
      rw [(List.takeWhile_prefix _).eq_of_length hall]
      cases RCVBUFSIZE - c.bytes.length <;> simp [List.replicate_succ]
    · rfl
  unfold strcat cString
  by_cases h : 0 ∈ c.echoBuffer
  · rw [if_pos h, htext]
    simp [hmem.mp h]
  · rw [if_neg h]
    simp [mt hmem.mpr h]

/-- A chunk is handled as the reader reads its bytes, if the append is defined. -/
theorem receive_read {p : List Byte} {n : ℕ} {c : Chunk} {r : Conn × List Event}
    (hs : Settled (.reading p n)) (h : receive p n c = some r) :
    observed r = scanner.read (.reading p n) c.text := by
  rw [receive, strcat_echoBuffer] at h
  split at h
  · simp only [Option.bind_eq_bind, Option.bind_some, Option.some.injEq] at h
    rw [← h]
    have hloop : ∀ w, observed (scanLoop w 0 n) = scanner.read (.reading [] n) w :=
      fun w => scanLoop_read [] w n
    by_cases hp : p = []
    · rw [hp]
      exact hloop c.text
    · -- the unfinished command is scanned once more, to no effect
      obtain ⟨hpart, hzero⟩ := hs
      rw [hloop, hzero hp, Reader.read_append, read_partial hpart, if_neg hp]
      rfl
  · simp at h

/-- What a client sees of one chunk. -/
def serveChunk : Conn → Chunk → Option (Conn × List Reply)
  | .returned, _ => some (.returned, [])
  | .reading p n, c => (receive p n c).map observed

/-- What a client sees of a connection is the run of `serveChunk`. -/
theorem observed_HandleTCPClient (s : Conn) (cs : List Chunk) :
    (HandleTCPClient s cs).map observed = Reader.feedChunks serveChunk s cs := by
  induction cs generalizing s with
  | nil => cases s <;> rfl
  | cons c cs ih =>
    cases s with
    | returned =>
      -- a closed connection takes no further chunk
      have hret : HandleTCPClient .returned cs = some (.returned, []) := by cases cs <;> rfl
      have hrest := ih .returned
      rw [hret] at hrest
      rw [Reader.feedChunks, HandleTCPClient]
      simp [serveChunk, ← hrest, observed, replies]
    | reading p n =>
      rw [Reader.feedChunks, HandleTCPClient, serveChunk]
      cases hr : receive p n c with
      | none => rfl
      | some r =>
        simp only [Option.bind_eq_bind, Option.bind_some, Option.map_some, observed, ← ih]
        cases HandleTCPClient r.1 cs with
        | none => rfl
        | some r' => simp [observed, replies_append]

theorem serveChunk_read (s : Conn) (c : Chunk) (r : Conn × List Reply) (hs : Settled s)
    (h : serveChunk s c = some r) : r = scanner.read s c.text := by
  cases s with
  | returned => simpa [serveChunk, read_returned] using h.symm
  | reading p n =>
    obtain ⟨r', hr', rfl⟩ := Option.map_eq_some_iff.mp h
    exact receive_read hs hr'

/-- `HandleTCPClient` reads the stream, wherever it is cut. -/
theorem HandleTCPClient_read {s : Conn} (hs : Settled s) {cs : List Chunk}
    {r : Conn × List Event} (h : HandleTCPClient s cs = some r) :
    observed r = scanner.read s (stream cs) := by
  have hobs := observed_HandleTCPClient s cs
  rw [h, Option.map_some] at hobs
  exact scanner.feedChunks_eq_read serveChunk_read settled_feed hs hobs.symm

end DistributedSystem.CommandServer
