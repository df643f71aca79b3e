import DistributedSystem.CommandServer.Scanner

/-!
# Streams of requests

`HandleTCPClient` on whole streams: where a stream is cut does not matter, and a stream of
valid requests gets one reply for each of them.
-/

namespace DistributedSystem.CommandServer

open Library

/-! ## Runs without an overflow -/

/-- The bytes a client has sent. -/
def sent (cs : List Chunk) : List Byte := (cs.map Chunk.bytes).flatten

/-- The pending bytes and each new chunk leave room for the terminator. -/
def Fits : Conn → List Chunk → Prop
  | .returned, _ => True
  | .reading _ _, [] => True
  | .reading p n, c :: cs =>
    p.length + c.bytes.length ≤ RCVBUFSIZE - 1 ∧
      Fits (scanner.read (.reading p n) c.bytes).1 cs

instance decidableFits : ∀ s cs, Decidable (Fits s cs)
  | .returned, [] => isTrue trivial
  | .returned, _ :: _ => isTrue trivial
  | .reading _ _, [] => isTrue trivial
  | .reading p n, c :: cs =>
    have := decidableFits (scanner.read (.reading p n) c.bytes).1 cs
    inferInstanceAs (Decidable (_ ∧ _))

/-- A run of the handler on a stream without NUL bytes that never overflows its buffer. -/
structure Serves (cs : List Chunk) (r : Conn × List Event) : Prop where
  noNul : ∀ c ∈ cs, 0 ∉ c.bytes
  run : HandleTCPClient .init cs = some r

theorem stream_eq_sent {cs : List Chunk} (h : ∀ c ∈ cs, 0 ∉ c.bytes) : stream cs = sent cs := by
  unfold stream sent
  congr 1
  exact List.map_congr_left fun c hc => Chunk.text_eq_bytes (h c hc)

/-- On a stream without NUL bytes the appends are defined exactly when they fit. -/
theorem isSome_HandleTCPClient {s : Conn} {cs : List Chunk} (hs : Settled s)
    (h : ∀ c ∈ cs, 0 ∉ c.bytes) : (HandleTCPClient s cs).isSome = true ↔ Fits s cs := by
  induction cs generalizing s with
  | nil => cases s <;> simp [HandleTCPClient, Fits]
  | cons c cs ih =>
    obtain ⟨hc, hcs⟩ := List.forall_mem_cons.mp h
    cases s with
    | returned => simp [HandleTCPClient, Fits]
    | reading p n =>
      -- without NUL bytes a chunk that fits leaves room for the terminator in `echoBuffer`
      have hroom : ((c.bytes.length < RCVBUFSIZE ∨ 0 ∈ c.bytes) ∧
          p.length + c.bytes.length + 1 ≤ RCVBUFSIZE) ↔
            p.length + c.bytes.length ≤ RCVBUFSIZE - 1 := by
        simp only [hc, or_false, RCVBUFSIZE]
        omega
      -- the state for the next chunk is the one the reader is in
      have hread : ∀ r, receive p n c = some r →
          r.1 = (scanner.read (.reading p n) c.bytes).1 := by
        intro r hr
        have := congrArg Prod.fst (receive_read hs hr)
        rwa [Chunk.text_eq_bytes hc] at this
      rw [receive, strcat_echoBuffer, Chunk.text_eq_bytes hc] at hread
      rw [HandleTCPClient, receive, strcat_echoBuffer, Fits, ← hroom, Chunk.text_eq_bytes hc]
      split
      · next hok =>
        rw [if_pos hok] at hread
        simp only [Option.bind_eq_bind, Option.bind_some, hok, true_and, Option.some.injEq] at hread ⊢
        rw [← ih (settled_read hs c.bytes) hcs, ← hread _ rfl]
        cases HandleTCPClient (scanLoop (p ++ c.bytes) 0 n).1 cs <;> simp
      · next hno => exact iff_of_false (by simp) fun hfits => hno hfits.1

/-- A stream without NUL bytes that fits is served. -/
theorem exists_serves (cs : List Chunk) (h : ∀ c ∈ cs, 0 ∉ c.bytes) (hfits : Fits .init cs) :
    ∃ r, Serves cs r := by
  obtain ⟨r, hr⟩ := Option.isSome_iff_exists.mp
    ((isSome_HandleTCPClient settled_init h).mpr hfits)
  exact ⟨r, h, hr⟩

/-- What the client sees of a run is what the scanner makes of the stream. -/
theorem Serves.observed_eq {cs : List Chunk} {r : Conn × List Event} (h : Serves cs r) :
    observed r = scanner.read .init (sent cs) := by
  rw [HandleTCPClient_read settled_init h.run, stream_eq_sent h.noNul]

/-- Two ways of cutting one stream get the same replies and leave the connection alike. -/
theorem replies_of_same_stream {cs cs' : List Chunk} {r r' : Conn × List Event}
    (h : Serves cs r) (h' : Serves cs' r') (hcut : sent cs = sent cs') :
    replies r.2 = replies r'.2 ∧ r.1 = r'.1 := by
  have heq : observed r = observed r' := by rw [h.observed_eq, h'.observed_eq, hcut]
  obtain ⟨hconn, hreplies⟩ := Prod.ext_iff.mp heq
  exact ⟨hreplies, hconn⟩

/-- Two requests and a bad byte, in one chunk and in three. -/
theorem replies_of_same_stream_three :
    ∃ r r', Serves [.ofChars ['l', 'o', 'a', 'd', '1', '2', ' ', 'x']] r ∧
      Serves [.ofChars ['l', 'o'], .ofChars ['a', 'd', '1'], .ofChars ['2', ' ', 'x']] r' ∧
      replies r.2 = replies r'.2 ∧ r.1 = r'.1 := by
  obtain ⟨r, h⟩ := exists_serves
    [.ofChars ['l', 'o', 'a', 'd', '1', '2', ' ', 'x']] (by decide) (by decide)
  obtain ⟨r', h'⟩ := exists_serves
    [.ofChars ['l', 'o'], .ofChars ['a', 'd', '1'], .ofChars ['2', ' ', 'x']]
    (by decide) (by decide)
  exact ⟨r, r', h, h', replies_of_same_stream h h' (by decide)⟩

/-! ## Valid requests -/

/-- A request; a number has at least one digit. -/
inductive Request where
  | uptime | load
  | number (d : Fin 10) (ds : List (Fin 10))
  deriving DecidableEq

/-- The character of a digit. -/
def digitByte (d : Fin 10) : Byte := UInt8.ofNat (48 + d.val)

/-- What the client sends for a request. -/
def Request.bytes : Request → List Byte
  | .uptime => uptimeWord
  | .load => loadWord
  | .number d ds => (d :: ds).map digitByte ++ [space]

/-- The sum of some digits. -/
def sumOf (ds : List (Fin 10)) : ℕ := ds.foldl (fun sum d => sum + d.val) 0

/-- The reply it is entitled to. -/
def Request.reply : Request → Reply
  | .uptime => .uptime
  | .load => .load
  | .number d ds => .sum (sumOf (d :: ds))

/-- The number in that reply, for the given values of `uptime` and `load`. -/
def Request.value (uptime load : ℤ) : Request → ℤ
  | .uptime => uptime
  | .load => load
  | .number d ds => sumOf (d :: ds)

/-- A session: requests, with `exit` at the end or not. -/
def sessionBytes (reqs : List Request) (quit : Bool) : List Byte :=
  reqs.flatMap Request.bytes ++ if quit then exitWord else []

def sessionReplies (reqs : List Request) (quit : Bool) : List Reply :=
  reqs.map Request.reply ++ if quit then [.exit] else []

theorem isdigit_digitByte : ∀ d : Fin 10, isdigit (digitByte d) = true := by decide

theorem digitByte_value : ∀ d : Fin 10, (digitByte d).toNat - 48 = d.val := by decide

theorem digits_digitByte (ds : List (Fin 10)) : Digits (ds.map digitByte) := by
  intro b hb
  obtain ⟨d, -, rfl⟩ := List.mem_map.mp hb
  exact isdigit_digitByte d

theorem digitSum_digitByte (ds : List (Fin 10)) :
    digitSum (ds.map digitByte) = sumOf ds := by
  simp only [digitSum, sumOf, List.foldl_map, digitByte_value]

/-- A blank behind digits completes a number. -/
theorem verdict_space {p : List Byte} (hp : Digits p) (hne : p ≠ []) :
    verdict p space = .done (.sum (digitSum p)) := by
  -- no word has a blank
  have hword : ∀ word : List Byte, space ∉ word → ¬ p ++ [space] <+: word := by
    intro word hword hpre
    exact hword (hpre.subset (by simp))
  have hlast : p.getLast?.any (fun d => !isdigit d) = false := by
    rw [Option.any_eq_false]
    intro d hd
    simp [hp d (List.mem_of_getLast? hd)]
  unfold verdict
  rw [if_neg (hword _ (by decide)), if_neg (hword _ (by decide)), if_neg (hword _ (by decide)),
    if_pos (Or.inr rfl)]
  simp [hlast, hne]

/-- The last byte of a command, behind its beginning. -/
theorem read_complete {p : List Byte} (hp : Partial p) (hne : p ≠ []) {b : Byte} {r : Reply}
    (hv : verdict p b = .done r) (n : ℕ) :
    scanner.read (.reading [] n) (p ++ [b]) = (.reading [] 0, [r]) := by
  rw [Reader.read_append, read_partial hp, if_neg hne, read_reading, feed, hv]
  rfl

/-- A request is answered, and leaves an empty buffer and no invalid reply to count. -/
theorem read_request (q : Request) (n : ℕ) :
    scanner.read (.reading [] n) q.bytes = (.reading [] 0, [q.reply]) := by
  cases q with
  | uptime =>
    have hsplit : Request.uptime.bytes = uptimeWord.take 5 ++ [101] := by decide
    rw [hsplit]
    exact read_complete (by decide) (by decide) (by decide) n
  | load =>
    have hsplit : Request.load.bytes = loadWord.take 3 ++ [100] := by decide
    rw [hsplit]
    exact read_complete (by decide) (by decide) (by decide) n
  | number d ds =>
    -- the digits wait, and the blank completes them
    have hd := digits_digitByte (d :: ds)
    show _ = (Conn.reading [] 0, [Reply.sum (sumOf (d :: ds))])
    rw [← digitSum_digitByte]
    exact read_complete (Or.inr (Or.inr hd)) (by simp) (verdict_space hd (by simp)) n

/-- Requests in sequence. -/
theorem read_requests (reqs : List Request) :
    scanner.read .init (reqs.flatMap Request.bytes) =
      (.reading [] 0, reqs.map Request.reply) := by
  unfold Conn.init
  induction reqs with
  | nil => rfl
  | cons q reqs ih =>
    rw [List.flatMap_cons, Reader.read_append, read_request, ih]
    rfl

/-- `exit` on an empty buffer: one reply, and the connection ends. -/
theorem read_exit : scanner.read (.reading [] 0) exitWord = (.returned, [.exit]) := by decide

theorem value_sessionReplies (uptime load : ℤ) (reqs : List Request) (quit : Bool) :
    (sessionReplies reqs quit).map (Reply.value uptime load) =
      reqs.map (Request.value uptime load) ++ if quit then [0] else [] := by
  have hreq : ∀ q : Request, q.reply.value uptime load = q.value uptime load := by
    intro q
    cases q <;> rfl
  unfold sessionReplies
  rw [List.map_append, List.map_map]
  congr 1
  · exact List.map_congr_left fun q _ => hreq q
  · cases quit <;> rfl

theorem invalid_notMem_sessionReplies (reqs : List Request) (quit : Bool) :
    .invalid ∉ sessionReplies reqs quit := by
  intro hmem
  rcases List.mem_append.mp hmem with hmem | hmem
  · obtain ⟨q, -, hq⟩ := List.mem_map.mp hmem
    cases q <;> cases hq
  · cases quit <;> simp at hmem

/-- The scanner on a valid session. -/
theorem read_session (reqs : List Request) (quit : Bool) :
    scanner.read .init (sessionBytes reqs quit) =
      (if quit then .returned else .init, sessionReplies reqs quit) := by
  unfold sessionBytes sessionReplies
  rw [Reader.read_append, read_requests]
  cases quit with
  | false => rfl
  | true =>
    simp only [if_true, read_exit]

/-- A valid session gets one reply for each request, in order, with the digit sum of each
    number and 0 for `exit`, and never an invalid reply. -/
theorem replies_of_session {cs : List Chunk} {r : Conn × List Event} (h : Serves cs r)
    (reqs : List Request) (quit : Bool) (hsent : sent cs = sessionBytes reqs quit) :
    replies r.2 = sessionReplies reqs quit ∧
      (∀ uptime load, (replies r.2).map (Reply.value uptime load) =
        reqs.map (Request.value uptime load) ++ if quit then [0] else []) ∧
      .invalid ∉ replies r.2 ∧ r.1 = if quit then .returned else .init := by
  have hobs := h.observed_eq
  rw [hsent, read_session] at hobs
  obtain ⟨hconn, hreplies⟩ := Prod.ext_iff.mp hobs
  simp only [observed] at hconn hreplies
  refine ⟨hreplies, ?_, ?_, hconn⟩
  · intro uptime load
    rw [hreplies]
    exact value_sessionReplies uptime load reqs quit
  · rw [hreplies]
    exact invalid_notMem_sessionReplies reqs quit

/-- `load`, a number and `exit`, with the number cut in two. -/
theorem replies_of_session_load_exit :
    ∃ r, Serves [.ofChars ['l', 'o', 'a', 'd', '9'], .ofChars ['9', ' ', 'e', 'x'],
        .ofChars ['i', 't']] r ∧
      replies r.2 = [.load, .sum 18, .exit] ∧ .invalid ∉ replies r.2 ∧ r.1 = .returned := by
  obtain ⟨r, h⟩ := exists_serves
    [.ofChars ['l', 'o', 'a', 'd', '9'], .ofChars ['9', ' ', 'e', 'x'],
      .ofChars ['i', 't']] (by decide) (by decide)
  obtain ⟨hreplies, -, hvalid, hconn⟩ :=
    replies_of_session h [.load, .number 9 [9]] true (by decide)
  exact ⟨r, h, hreplies, hvalid, hconn⟩

end DistributedSystem.CommandServer
