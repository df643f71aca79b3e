import DistributedSystem.CommandServer.Requests
import Mathlib.Data.List.DropRight

/-!
# The pending bytes

What waits in the buffer is a function of the stream alone: `unfinished` reads it off the end
of the stream, with no reference to the scanner. The appends of `HandleTCPClient` fit exactly
when every chunk fits behind the unfinished end of what came before it.
-/

namespace DistributedSystem.CommandServer

open Library

/-! ## The unfinished end of a stream -/

/-- The beginnings of `uptime` and `load` that are neither empty nor complete. -/
def beginnings : List (List Byte) :=
  (List.range' 1 5).map uptimeWord.take ++ (List.range' 1 3).map loadWord.take

/-- The beginning of a word that a stream ends in. -/
def unfinishedWord (w : List Byte) : List Byte :=
  (beginnings.find? fun q => q.isSuffixOf w).getD []

/-- The unfinished command that a stream ends in: a beginning of a word, or digits. The first
    digit behind a beginning goes with it, as one invalid command. -/
def unfinished (w : List Byte) : List Byte :=
  if w.rtakeWhile isdigit = [] then unfinishedWord w
  else if unfinishedWord (w.rdropWhile isdigit) = [] then w.rtakeWhile isdigit
  else (w.rtakeWhile isdigit).tail

section Words

/-- The last letter tells the beginnings apart. -/
theorem beginnings_getLast : ∀ q ∈ beginnings, ∀ q' ∈ beginnings,
    q.getLast? = q'.getLast? → q = q' := by decide

theorem mem_beginnings_iff {q : List Byte} :
    q ∈ beginnings ↔ q ≠ [] ∧ (Beginning uptimeWord q ∨ Beginning loadWord q) := by
  constructor
  · revert q
    decide
  · rintro ⟨hne, hq | hq⟩
    · obtain ⟨hpre, -⟩ := id hq
      have hlen := hq.length_lt
      have hpos := List.length_pos_of_ne_nil hne
      have hlong : uptimeWord.length = 6 := by decide
      rw [List.prefix_iff_eq_take.mp hpre]
      refine List.mem_append_left _ (List.mem_map.mpr ⟨q.length, ?_, rfl⟩)
      rw [List.mem_range'_1]
      omega
    · obtain ⟨hpre, -⟩ := id hq
      have hlen := hq.length_lt
      have hpos := List.length_pos_of_ne_nil hne
      have hlong : loadWord.length = 4 := by decide
      rw [List.prefix_iff_eq_take.mp hpre]
      refine List.mem_append_right _ (List.mem_map.mpr ⟨q.length, ?_, rfl⟩)
      rw [List.mem_range'_1]
      omega

/-- A beginning ends in a letter. -/
theorem getLast?_of_mem_beginnings {q : List Byte} (hq : q ∈ beginnings) {b : Byte}
    (hb : q.getLast? = some b) : isdigit b = false ∧ b ≠ space := by
  have hall : (beginnings.all fun q =>
      q.getLast?.all fun b => !isdigit b && b != space) = true := by decide
  have hletter := List.all_eq_true.mp hall q hq
  rw [hb] at hletter
  simpa using hletter

theorem dropLast_mem_beginnings :
    ∀ q ∈ beginnings, q.dropLast = [] ∨ q.dropLast ∈ beginnings := by decide

theorem getLast?_of_suffix {q w : List Byte} (h : q <:+ w) (hne : q ≠ []) :
    q.getLast? = w.getLast? := by
  obtain ⟨t, rfl⟩ := h
  rw [List.getLast?_append_of_ne_nil t hne]

/-- The search finds a beginning at the end of the stream, or there is none. -/
theorem unfinishedWord_cases (w : List Byte) :
    (unfinishedWord w ∈ beginnings ∧ unfinishedWord w <:+ w) ∨
      (unfinishedWord w = [] ∧ ∀ q ∈ beginnings, ¬ q <:+ w) := by
  unfold unfinishedWord
  cases hf : beginnings.find? fun q => q.isSuffixOf w with
  | none =>
    refine Or.inr ⟨rfl, fun q hq => ?_⟩
    simpa [List.isSuffixOf_iff_suffix] using List.find?_eq_none.mp hf q hq
  | some q =>
    refine Or.inl ⟨List.mem_of_find?_eq_some hf, ?_⟩
    simpa [List.isSuffixOf_iff_suffix] using List.find?_some hf

/-- A stream that ends in a beginning ends in no other one. -/
theorem unfinishedWord_of_suffix {w q : List Byte} (hq : q ∈ beginnings) (h : q <:+ w) :
    unfinishedWord w = q := by
  rcases unfinishedWord_cases w with ⟨hmem, hsuf⟩ | ⟨-, hnone⟩
  · -- both end in the last letter of the stream
    refine beginnings_getLast _ hmem q hq ?_
    rw [getLast?_of_suffix hsuf (mem_beginnings_iff.mp hmem).1,
      getLast?_of_suffix h (mem_beginnings_iff.mp hq).1]
  · exact absurd h (hnone q hq)

/-- Behind a digit or a blank no word has begun. -/
theorem unfinishedWord_of_number {w : List Byte} {b : Byte}
    (hb : isdigit b = true ∨ b = space) : unfinishedWord (w ++ [b]) = [] := by
  rcases unfinishedWord_cases (w ++ [b]) with ⟨hmem, hsuf⟩ | ⟨hnil, -⟩
  · have hlast := getLast?_of_suffix hsuf (mem_beginnings_iff.mp hmem).1
    rw [List.getLast?_concat] at hlast
    -- the beginning would end in the digit or the blank
    obtain ⟨hdigit, hspace⟩ := getLast?_of_mem_beginnings hmem hlast
    rcases hb with hb | hb
    · rw [hdigit] at hb
      cases hb
    · exact absurd hb hspace
  · exact hnil

/-- One more byte goes on with the beginning, or begins a word itself. -/
theorem unfinishedWord_concat (w : List Byte) (b : Byte) :
    unfinishedWord (w ++ [b]) =
      if unfinishedWord w ++ [b] ∈ beginnings then unfinishedWord w ++ [b]
      else if [b] ∈ beginnings then [b] else [] := by
  have hone : [b] <:+ w ++ [b] := List.suffix_append w [b]
  split
  · next hmem =>
    refine unfinishedWord_of_suffix hmem ?_
    -- the beginning found in `w`, or none, with the byte behind it
    rcases unfinishedWord_cases w with ⟨-, t, ht⟩ | ⟨hnil, -⟩
    · exact ⟨t, by rw [← List.append_assoc, ht]⟩
    · rwa [hnil]
  next hmem =>
  split
  · next hb => exact unfinishedWord_of_suffix hb hone
  next hb =>
  rcases unfinishedWord_cases (w ++ [b]) with ⟨hq, hsuf⟩ | ⟨hnil, -⟩
  · -- what is before the last byte of a longer beginning has begun in `w`
    exfalso
    generalize unfinishedWord (w ++ [b]) = q at hq hsuf
    have hne := (mem_beginnings_iff.mp hq).1
    have hlast := getLast?_of_suffix hsuf hne
    rw [List.getLast?_concat] at hlast
    obtain ⟨q, rfl⟩ : ∃ q', q = q' ++ [b] := by
      rw [List.getLast?_eq_some_iff] at hlast
      exact hlast
    have hdrop := dropLast_mem_beginnings _ hq
    rw [List.dropLast_concat] at hdrop
    rcases hdrop with rfl | hdrop
    · exact hb hq
    · obtain ⟨t, ht⟩ := hsuf
      have hqw : q <:+ w := ⟨t, by
        rw [← List.append_assoc] at ht
        exact List.append_cancel_right ht⟩
      rw [unfinishedWord_of_suffix hdrop hqw] at hmem
      exact hmem hq
  · exact hnil

end Words

/-- How the unfinished end grows. -/
def extend (p : List Byte) (b : Byte) : List Byte :=
  if isdigit b then if Digits p then p ++ [b] else []
  else if p ++ [b] ∈ beginnings then p ++ [b]
  else if [b] ∈ beginnings then [b] else []

/-- No beginning has only digits. -/
theorem not_digits_of_mem_beginnings {q : List Byte} (hq : q ∈ beginnings) : ¬ Digits q := by
  intro hd
  obtain ⟨hne, -⟩ := mem_beginnings_iff.mp hq
  have hlast := List.getLast?_eq_some_getLast hne
  have := (getLast?_of_mem_beginnings hq hlast).1
  rw [hd _ (List.getLast_mem hne)] at this
  cases this

theorem digits_rtakeWhile (w : List Byte) : Digits (w.rtakeWhile isdigit) :=
  fun _ hb => List.mem_rtakeWhile_imp hb

theorem rdropWhile_of_rtakeWhile_nil {w : List Byte} (h : w.rtakeWhile isdigit = []) :
    w.rdropWhile isdigit = w := by
  have := List.rdropWhile_append_rtakeWhile (p := isdigit) (l := w)
  rwa [h, List.append_nil] at this

/-- With no digit at the end, the unfinished end is a beginning of a word. -/
theorem unfinished_of_letter {w : List Byte} (h : w.rtakeWhile isdigit = []) :
    unfinished w = unfinishedWord w := by
  rw [unfinished, if_pos h]

/-- With digits at the end, it has only digits. -/
theorem digits_unfinished {w : List Byte} (h : w.rtakeWhile isdigit ≠ []) :
    Digits (unfinished w) := by
  rw [unfinished, if_neg h]
  split
  · exact digits_rtakeWhile w
  · exact fun b hb => digits_rtakeWhile w b (List.mem_of_mem_tail hb)

/-- A beginning of a word that has only digits is empty. -/
theorem digits_unfinishedWord_iff (w : List Byte) :
    Digits (unfinishedWord w) ↔ unfinishedWord w = [] := by
  constructor
  · intro hd
    rcases unfinishedWord_cases w with ⟨hmem, -⟩ | ⟨hnil, -⟩
    · exact absurd hd (not_digits_of_mem_beginnings hmem)
    · exact hnil
  · intro hnil
    rw [hnil]
    exact fun b hb => absurd hb List.not_mem_nil

/-- A digit more. -/
theorem unfinished_concat_digit (w : List Byte) {b : Byte} (hb : isdigit b = true) :
    unfinished (w ++ [b]) = if Digits (unfinished w) then unfinished w ++ [b] else [] := by
  have htake : (w ++ [b]).rtakeWhile isdigit = w.rtakeWhile isdigit ++ [b] :=
    List.rtakeWhile_concat_pos _ _ _ hb
  have hdrop : (w ++ [b]).rdropWhile isdigit = w.rdropWhile isdigit :=
    List.rdropWhile_concat_pos _ _ _ hb
  have hlong : unfinished (w ++ [b]) =
      if unfinishedWord (w.rdropWhile isdigit) = [] then w.rtakeWhile isdigit ++ [b]
      else (w.rtakeWhile isdigit ++ [b]).tail := by
    rw [unfinished, htake, hdrop, if_neg (by simp)]
  rw [hlong]
  by_cases hnil : w.rtakeWhile isdigit = []
  · -- the first digit: alone, or lost together with the beginning before it
    rw [unfinished_of_letter hnil, rdropWhile_of_rtakeWhile_nil hnil, hnil]
    simp only [digits_unfinishedWord_iff]
    split
    · next hword => rw [hword]
    · rfl
  · -- a further digit goes with those before it
    rw [if_pos (digits_unfinished hnil), unfinished, if_neg hnil]
    split
    · rfl
    · exact List.tail_append_of_ne_nil hnil

/-- The unfinished end after one more byte depends on the unfinished end before. -/
theorem unfinished_concat (w : List Byte) (b : Byte) :
    unfinished (w ++ [b]) = extend (unfinished w) b := by
  unfold extend
  split
  · next hb => exact unfinished_concat_digit w hb
  next hb =>
  rw [unfinished_of_letter (List.rtakeWhile_concat_neg _ _ _ hb), unfinishedWord_concat]
  by_cases hnil : w.rtakeWhile isdigit = []
  · rw [unfinished_of_letter hnil]
  · -- behind digits no word has begun, and no word goes on
    have hd := digits_unfinished hnil
    have hword : unfinishedWord w = [] := by
      rw [← List.rdropWhile_append_rtakeWhile (p := isdigit) (l := w)]
      obtain ⟨ds, d, hds⟩ := (List.eq_nil_or_concat' (w.rtakeWhile isdigit)).resolve_left hnil
      have hdigit : isdigit d = true := digits_rtakeWhile w d (by rw [hds]; simp)
      rw [hds, ← List.append_assoc]
      exact unfinishedWord_of_number (Or.inl hdigit)
    rw [hword, List.nil_append]
    by_cases hempty : unfinished w = []
    · rw [hempty, List.nil_append]
    · -- what goes on with the digits is no beginning of a word
      have hno : unfinished w ++ [b] ∉ beginnings := by
        intro hmem
        rcases dropLast_mem_beginnings _ hmem with hdrop | hdrop
        · rw [List.dropLast_concat] at hdrop
          exact hempty hdrop
        · rw [List.dropLast_concat] at hdrop
          exact not_digits_of_mem_beginnings hdrop hd
      rw [if_neg hno]
      split <;> rfl

/-! ## The buffer holds the unfinished end -/

theorem beginning_of_mem {q : List Byte} (hq : q ∈ beginnings) : Partial q := by
  rcases (mem_beginnings_iff.mp hq).2 with h | h
  · exact Or.inl h
  · exact Or.inr (Or.inl h)

/-- An unfinished command with a letter at its end is a beginning of a word. -/
theorem mem_beginnings_of_unfinished {p : List Byte} {b : Byte} (h : Partial (p ++ [b]))
    (hb : ¬ isdigit b = true) : p ++ [b] ∈ beginnings := by
  rw [mem_beginnings_iff]
  rcases h with h | h | h
  · exact ⟨by simp, Or.inl h⟩
  · exact ⟨by simp, Or.inr h⟩
  · exact absurd (h b (by simp)) hb

/-- The unfinished end goes on with a byte that the server waits with. -/
theorem extend_of_unfinished {p : List Byte} {b : Byte} (h : Partial (p ++ [b])) :
    extend p b = p ++ [b] := by
  unfold extend
  split
  · next hb => rw [if_pos (digits_concat.mp (h.digits_of_last hb)).1]
  · next hb => rw [if_pos (mem_beginnings_of_unfinished h hb)]

/-- Otherwise the byte can only begin a word. -/
theorem extend_of_finished {p : List Byte} {b : Byte} (h : ¬ Partial (p ++ [b])) :
    extend p b = if [b] ∈ beginnings then [b] else [] := by
  unfold extend
  split
  · next hb =>
    -- a digit behind digits would be unfinished, and a digit begins no word
    have hp : ¬ Digits p := fun hp => h (Or.inr (Or.inr (digits_concat.mpr ⟨hp, hb⟩)))
    have hone : [b] ∉ beginnings := by
      intro hmem
      have := (getLast?_of_mem_beginnings (b := b) hmem rfl).1
      rw [hb] at this
      cases this
    rw [if_neg hp, if_neg hone]
  · rw [if_neg fun hmem => h (beginning_of_mem hmem)]

/-- A reply that consumes the byte leaves nothing. -/
theorem extend_of_consumed {p : List Byte} (hp : Partial p) {b : Byte}
    (hv : (∃ r, verdict p b = .done r) ∨ verdict p b = .swallow) : extend p b = [] := by
  have hpart : ¬ Partial (p ++ [b]) := by
    intro hpart
    have := verdict_wait hpart
    rcases hv with ⟨r, hv⟩ | hv
    · simp [this] at hv
    · simp [this] at hv
  rw [extend_of_finished hpart, if_neg]
  -- the last letter of a complete word begins no word
  have hlast : ∀ word c, p ++ [b] = word → word.getLast? = some c → b = c := by
    intro word c heq hc
    rw [← heq, List.getLast?_concat] at hc
    exact Option.some.inj hc
  have hspec := verdict_holds hp b
  rcases hv with ⟨r, hv⟩ | hv
  · rw [hv] at hspec
    cases r with
    | uptime =>
      rw [hlast _ 101 hspec (by decide)]
      decide
    | load =>
      rw [hlast _ 100 hspec (by decide)]
      decide
    | sum n =>
      rw [hspec.2.2.1]
      decide
    | exit => exact hspec.elim
    | invalid => exact hspec.elim
  · rw [hv] at hspec
    intro hmem
    rcases hspec with ⟨hnum, -⟩ | ⟨hnil, -⟩
    · -- a digit or a blank begins no word
      obtain ⟨hdigit, hspace⟩ := getLast?_of_mem_beginnings (b := b) hmem rfl
      rcases hnum with hnum | hnum
      · rw [hdigit] at hnum
        cases hnum
      · exact hspace hnum
    · rw [hnil] at hpart
      exact hpart (beginning_of_mem hmem)

theorem reading_of_refuse {n m : ℕ} {next : Conn × List Reply} {q : List Byte}
    (h : (refuse n next).1 = .reading q m) : next.1 = .reading q m := by
  unfold refuse at h
  split at h
  · cases h
  · exact h

/-- A byte on an empty buffer. -/
theorem feedFresh_pending {n m : ℕ} {b : Byte} {q : List Byte}
    (h : (feedFresh n b).1 = .reading q m) : q = extend [] b := by
  unfold feedFresh at h
  cases hv : verdict [] b with
  | wait =>
    rw [hv] at h
    cases h
    rw [extend_of_unfinished (partial_of_wait partial_nil hv)]
    rfl
  | done r =>
    rw [hv] at h
    cases h
    rw [extend_of_consumed partial_nil (Or.inl ⟨r, hv⟩)]
  | exit =>
    rw [hv] at h
    cases h
  | swallow =>
    rw [hv] at h
    cases reading_of_refuse h
    rw [extend_of_consumed partial_nil (Or.inr hv)]
  | reject => exact absurd hv (verdict_nil_ne_reject b)

/-- What a byte leaves in the buffer. -/
theorem feed_pending {p q : List Byte} {n m : ℕ} {b : Byte} (hp : Partial p)
    (h : (feed (.reading p n) b).1 = .reading q m) : q = extend p b := by
  cases hv : verdict p b with
  | wait =>
    simp only [feed, hv] at h
    cases h
    rw [extend_of_unfinished (partial_of_wait hp hv)]
  | done r =>
    simp only [feed, hv] at h
    cases h
    rw [extend_of_consumed hp (Or.inl ⟨r, hv⟩)]
  | exit =>
    simp only [feed, hv] at h
    cases h
  | swallow =>
    simp only [feed, hv] at h
    cases reading_of_refuse h
    rw [extend_of_consumed hp (Or.inr hv)]
  | reject =>
    simp only [feed, hv] at h
    rw [feedFresh_pending (reading_of_refuse h)]
    have hspec := verdict_holds hp b
    rw [hv] at hspec
    have hpart : ¬ Partial (p ++ [b]) := by
      intro hpart
      rw [verdict_wait hpart] at hv
      cases hv
    -- the rejected byte is no digit, so it stands alone or begins a word
    rw [extend_of_finished hpart]
    unfold extend
    rw [if_neg (by simp [hspec.2.1]), List.nil_append]
    split <;> rfl

/-- While the connection is open, its buffer holds the unfinished end of the stream. -/
theorem pending_eq_unfinished (w : List Byte) {p : List Byte} {n : ℕ}
    (h : (scanner.read .init w).1 = .reading p n) : p = unfinished w := by
  induction w using List.reverseRecOn generalizing p n with
  | nil =>
    cases h
    decide
  | append_singleton w b ih =>
    rw [Reader.read_concat_fst] at h
    have hset := settled_read settled_init w
    cases hw : (scanner.read .init w).1 with
    | returned =>
      rw [hw] at h
      cases h
    | reading q m =>
      rw [hw] at h hset
      -- both sides grow by the same function of the byte
      rw [unfinished_concat, ← ih hw]
      exact feed_pending hset.1 h

/-! ## The appends -/

/-- Every append of a run is defined: the chunk has a terminator in `echoBuffer`, and fits
    behind the pending bytes. -/
def AppendsFit (cs : List Chunk) : Prop := (HandleTCPClient .init cs).isSome = true

/-- The connection is open when the bytes of a stream have been scanned. -/
def Open (w : List Byte) : Prop := (scanner.read .init w).1 ≠ .returned

instance (w : List Byte) : Decidable (Open w) :=
  inferInstanceAs (Decidable (_ ≠ _))

/-- A chunk that does not fill `echoBuffer`, and is short enough behind the unfinished command
    that the stream before it ends in. -/
def HasRoom (w : List Byte) (c : Chunk) : Prop :=
  (c.bytes.length < RCVBUFSIZE ∨ 0 ∈ c.bytes) ∧
    (unfinished w).length + c.text.length ≤ RCVBUFSIZE - 1

/-- There is room for each chunk that an open connection receives. -/
def Roomy (cs : List Chunk) : Prop :=
  ∀ before c after, cs = before ++ c :: after → Open (stream before) → HasRoom (stream before) c

theorem stream_append (cs cs' : List Chunk) : stream (cs ++ cs') = stream cs ++ stream cs' := by
  simp [stream]

theorem stream_singleton (c : Chunk) : stream [c] = c.text := by
  simp [stream]

/-- A closed connection stays closed. -/
theorem not_open_append {w : List Byte} (h : (scanner.read .init w).1 = .returned)
    (v : List Byte) : ¬ Open (w ++ v) := by
  unfold Open
  rw [Reader.read_append, h, read_returned]
  simp

/-- One append, in terms of the stream before it. -/
theorem receive_of_stream {w : List Byte} {p : List Byte} {n : ℕ}
    (hw : (scanner.read .init w).1 = .reading p n) (c : Chunk) :
    (∀ r, receive p n c = some r →
      HasRoom w c ∧ r.1 = (scanner.read .init (w ++ c.text)).1) ∧
      (receive p n c = none → ¬ HasRoom w c) := by
  have hset := settled_read settled_init w
  rw [hw] at hset
  -- what is in the buffer is the unfinished end of the stream
  have hroom : ((c.bytes.length < RCVBUFSIZE ∨ 0 ∈ c.bytes) ∧
      p.length + c.text.length + 1 ≤ RCVBUFSIZE) ↔ HasRoom w c := by
    rw [HasRoom, ← pending_eq_unfinished w hw]
    simp only [RCVBUFSIZE]
    refine and_congr_right fun _ => ?_
    omega
  constructor
  · intro r hr
    have hread : r.1 = (scanner.read (.reading p n) c.text).1 :=
      (Prod.ext_iff.mp (receive_read hset hr)).1
    rw [receive, strcat_echoBuffer] at hr
    split at hr
    · next hok =>
      refine ⟨hroom.mp hok, ?_⟩
      rw [Reader.read_append, hw]
      exact hread
    · simp at hr
  · intro hr
    rw [receive, strcat_echoBuffer] at hr
    split at hr
    · simp at hr
    · next hno => exact fun h => hno (hroom.mpr h)

/-- The appends behind a part of the stream, by induction on the chunks still to come. -/
theorem isSome_from (cs : List Chunk) :
    ∀ before, (HandleTCPClient (scanner.read .init (stream before)).1 cs).isSome = true ↔
      ∀ mid c after, cs = mid ++ c :: after → Open (stream (before ++ mid)) →
        HasRoom (stream (before ++ mid)) c := by
  induction cs with
  | nil =>
    intro before
    cases (scanner.read .init (stream before)).1 <;> simp [HandleTCPClient]
  | cons c cs ih =>
    intro before
    cases hs : (scanner.read .init (stream before)).1 with
    | returned =>
      -- behind a closed connection nothing is appended
      refine iff_of_true rfl ?_
      intro mid c' after _ hopen
      rw [stream_append] at hopen
      exact absurd hopen (not_open_append hs _)
    | reading p n =>
      obtain ⟨hsome, hnone⟩ := receive_of_stream hs c
      have hopen : Open (stream (before ++ [])) := by
        rw [List.append_nil, Open, hs]
        simp
      rw [HandleTCPClient]
      cases hr : receive p n c with
      | none =>
        -- this append fails, and the room is missing here
        refine iff_of_false (by simp) fun hall => hnone hr ?_
        simpa using hall [] c cs rfl hopen
      | some r =>
        -- this append fits; the rest goes on behind the longer stream
        obtain ⟨hroom, hconn⟩ := hsome r hr
        rw [← stream_singleton, ← stream_append] at hconn
        have hnext := ih (before ++ [c])
        rw [← hconn] at hnext
        simp only [Option.bind_eq_bind, Option.bind_some]
        have hopt : ((HandleTCPClient r.1 cs).bind fun r' => some (r'.1, r.2 ++ r'.2)).isSome =
            (HandleTCPClient r.1 cs).isSome := by
          cases HandleTCPClient r.1 cs <;> rfl
        rw [hopt, hnext]
        constructor
        · intro hall mid c' after heq hopen'
          cases mid with
          | nil =>
            obtain ⟨rfl, -⟩ := List.cons.inj heq
            simpa using hroom
          | cons d mid =>
            obtain ⟨rfl, htail⟩ := List.cons.inj heq
            have hsplit : before ++ c :: mid = before ++ [c] ++ mid := by simp
            rw [hsplit] at hopen' ⊢
            exact hall mid c' after htail hopen'
        · intro hall mid c' after heq hopen'
          have hsplit : before ++ [c] ++ mid = before ++ c :: mid := by simp
          rw [hsplit] at hopen' ⊢
          exact hall (c :: mid) c' after (by rw [heq]; rfl) hopen'

/-- A chunk of 32 bytes fills `echoBuffer` and leaves no terminator. -/
theorem not_appendsFit : ¬ ∀ cs, AppendsFit cs := by
  intro hall
  have h := hall [⟨List.replicate 32 49, by decide, by decide⟩]
  revert h
  unfold AppendsFit Conn.init HandleTCPClient receive
  rw [strcat_echoBuffer, if_neg (by decide)]
  simp

/-- The appends of a run fit exactly when there is room for each chunk behind the unfinished
    command before it. -/
theorem appendsFit_iff (cs : List Chunk) : AppendsFit cs ↔ Roomy cs := isSome_from cs []

end DistributedSystem.CommandServer
