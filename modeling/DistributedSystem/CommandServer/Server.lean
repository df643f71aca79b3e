import Mathlib.Algebra.Group.Nat.Defs
import Mathlib.Data.Int.Notation
import Mathlib.Data.List.Basic
import Mathlib.Data.Nat.Notation
import Mathlib.Tactic.Common

/-!
# The command server

`mtserver.c`: `HandleTCPClient`, one client's connection. `myBuffer` is kept as the C string
it holds; the bytes after the terminator are zero throughout. The body of the `for` loop is
`iteration`, one branch of its `if` chain after the other, and `scanLoop` repeats it.

Every iteration leaves an event behind: a reply with the bytes that were consumed for it, or
the bytes it goes on waiting with. `send` is taken to succeed, and the values of `uptime`
and `load` are symbols.
-/

namespace DistributedSystem.CommandServer

abbrev Byte := UInt8

/-- Size of receive buffer -/
def RCVBUFSIZE : ℕ := 32

/-! ## The C library on strings -/

/-- `isdigit` -/
def isdigit (b : Byte) : Bool := 48 ≤ b && b ≤ 57

/-- The blank that ends a number. -/
def space : Byte := 32

def uptimeWord : List Byte := ['u', 'p', 't', 'i', 'm', 'e'].map Char.toUInt8
def loadWord : List Byte := ['l', 'o', 'a', 'd'].map Char.toUInt8
def exitWord : List Byte := ['e', 'x', 'i', 't'].map Char.toUInt8

/-- `strncmp(s, t, n) == 0`, for strings without their terminators -/
def strncmpEq (s t : List Byte) (n : ℕ) : Bool := s.take n == t.take n

/-- The string at the start of a memory block, if the block has a terminator. -/
def cString (block : List Byte) : Option (List Byte) :=
  if 0 ∈ block then some (block.takeWhile (· ≠ 0)) else none

/-- `strcat` into a buffer of `RCVBUFSIZE` bytes; undefined when the source has no
    terminator or the result does not fit. -/
def strcat (dst src : List Byte) : Option (List Byte) := do
  let s ← cString src
  if (dst ++ s).length + 1 ≤ RCVBUFSIZE then some (dst ++ s) else none

/-! ## Replies and events -/

/-- What the server sends. -/
inductive Reply where
  | uptime | load
  | exit
  | sum (n : ℕ)
  | invalid
  deriving DecidableEq, Repr

/-- The number in the four bytes of a reply, for the given values of `uptime` and `load`. -/
def Reply.value (uptime load : ℤ) : Reply → ℤ
  | .uptime => uptime
  | .load => load
  | .exit => 0
  | .sum n => n
  | .invalid => -1

/-- What one iteration does: it keeps waiting with the scanned bytes, or consumes bytes and
    replies to them. -/
inductive Event where
  | waiting (scanned : List Byte)
  | answer (consumed : List Byte) (r : Reply)
  deriving DecidableEq, Repr

/-- The reply of an event, if it has one. -/
def Event.reply? : Event → Option Reply
  | .waiting _ => none
  | .answer _ r => some r

/-- The replies of a list of events, in order. -/
def replies (evs : List Event) : List Reply := evs.filterMap Event.reply?

/-! ## The loop over the buffer -/

/-- What the body of the loop leaves: the buffer, `my_char` before the increment of the `for`
    statement, the counter, and whether it returned. -/
structure Turn where
  myBuffer : List Byte
  my_char : ℕ
  numInvalid : ℕ
  returned : Bool
  event : Event
  deriving DecidableEq

/-- `manageBuffer`: the first `my_char` bytes go -/
def manageBuffer (myBuffer : List Byte) (my_char : ℕ) : List Byte := myBuffer.drop my_char

/-- `myBuffer[i]`; the terminator and what follows it read as 0 -/
def charAt (myBuffer : List Byte) (i : ℕ) : Byte := myBuffer.getD i 0

/-- The sum of the digits before the blank; at most thirty digits, so `uint32_t` holds it. -/
def digitSum (ds : List Byte) : ℕ := ds.foldl (fun sum b => sum + (b.toNat - 48)) 0

/-- The branches for `uptime` and `load`: reply when the word is complete. -/
def wordTurn (myBuffer word : List Byte) (my_char : ℕ) (r : Reply) : Turn :=
  if my_char = word.length then
    ⟨manageBuffer myBuffer my_char, 0, 0, false, .answer (myBuffer.take my_char) r⟩
  else
    ⟨myBuffer, my_char, 0, false, .waiting (myBuffer.take my_char)⟩

/-- An invalid reply: `drop` bytes go, and the third in a row ends the connection. -/
def invalidTurn (myBuffer : List Byte) (drop numInvalid : ℕ) : Turn :=
  ⟨manageBuffer myBuffer drop, 0, numInvalid + 1, decide (2 < numInvalid + 1),
    .answer (myBuffer.take drop) .invalid⟩

/-- The branch for a digit or a blank. -/
def numberTurn (myBuffer : List Byte) (my_char numInvalid : ℕ) : Turn :=
  if (1 < my_char ∧ isdigit (charAt myBuffer (my_char - 2)) = false) ∨
      (my_char = 1 ∧ charAt myBuffer (my_char - 1) = space) then
    invalidTurn myBuffer my_char numInvalid
  else if charAt myBuffer (my_char - 1) = space then
    ⟨manageBuffer myBuffer my_char, 0, 0, false,
      .answer (myBuffer.take my_char) (.sum (digitSum (myBuffer.take (my_char - 1))))⟩
  else
    ⟨myBuffer, my_char, 0, false, .waiting (myBuffer.take my_char)⟩

/-- The body of the loop. -/
def iteration (myBuffer : List Byte) (my_char numInvalid : ℕ) : Turn :=
  if strncmpEq myBuffer uptimeWord my_char then
    wordTurn myBuffer uptimeWord my_char .uptime
  else if strncmpEq myBuffer loadWord my_char then
    wordTurn myBuffer loadWord my_char .load
  else if strncmpEq myBuffer exitWord my_char then
    -- the length is not looked at, and the whole buffer is cleared
    ⟨[], my_char, 0, true, .answer myBuffer .exit⟩
  else if isdigit (charAt myBuffer (my_char - 1)) ∨ charAt myBuffer (my_char - 1) = space then
    numberTurn myBuffer my_char numInvalid
  else
    -- the byte that broke the command stays, unless it is the first one
    invalidTurn myBuffer (if my_char = 1 then my_char else my_char - 1) numInvalid

/-- Unless it returns, an iteration either shortens the buffer or goes one byte further. -/
theorem iteration_progress (buf : List Byte) (i n : ℕ) (h : i < buf.length)
    (hret : ¬ (iteration buf (i + 1) n).returned = true) :
    ((iteration buf (i + 1) n).myBuffer.length < buf.length) ∨
      ((iteration buf (i + 1) n).myBuffer = buf ∧ (iteration buf (i + 1) n).my_char = i + 1) := by
  have hdrop : ∀ k, 0 < k → (manageBuffer buf k).length < buf.length := by
    intro k hk
    simp only [manageBuffer, List.length_drop]
    omega
  have hword : ∀ w r, ((wordTurn buf w (i + 1) r).myBuffer.length < buf.length) ∨
      ((wordTurn buf w (i + 1) r).myBuffer = buf ∧ (wordTurn buf w (i + 1) r).my_char = i + 1) := by
    intro w r
    unfold wordTurn
    split
    · exact Or.inl (hdrop _ (by omega))
    · exact Or.inr ⟨rfl, rfl⟩
  revert hret
  unfold iteration
  split
  · exact fun _ => hword _ _
  split
  · exact fun _ => hword _ _
  split
  · exact fun hret => absurd rfl hret
  intro _
  split
  · unfold numberTurn
    split
    · exact Or.inl (hdrop _ (by omega))
    split
    · exact Or.inl (hdrop _ (by omega))
    · exact Or.inr ⟨rfl, rfl⟩
  · left
    refine hdrop _ ?_
    split <;> omega

/-- A connection that waits in `recv`, or one whose handler has returned. -/
inductive Conn where
  | reading (myBuffer : List Byte) (numInvalid : ℕ)
  | returned
  deriving DecidableEq, Repr

/-- The `for` loop, entered with `my_char = i + 1`. -/
def scanLoop (myBuffer : List Byte) (i numInvalid : ℕ) : Conn × List Event :=
  if i < myBuffer.length then
    let t := iteration myBuffer (i + 1) numInvalid
    if t.returned then
      (.returned, [t.event])
    else
      let rest := scanLoop t.myBuffer t.my_char t.numInvalid
      (rest.1, t.event :: rest.2)
  else
    (.reading myBuffer numInvalid, [])
termination_by (myBuffer.length, myBuffer.length - i)
decreasing_by
  rename_i h hret
  rcases iteration_progress myBuffer i numInvalid h hret with hlt | ⟨hbuf, hchar⟩
  · exact Prod.Lex.left _ _ hlt
  · rw [hbuf, hchar]
    exact Prod.Lex.right _ (by omega)

/-! ## The loop over the chunks -/

/-- What one `recv` delivers. -/
structure Chunk where
  bytes : List Byte
  pos : 0 < bytes.length
  le : bytes.length ≤ RCVBUFSIZE
  deriving DecidableEq

/-- A chunk of characters. -/
def Chunk.ofChars (cs : List Char) (pos : 0 < cs.length := by decide)
    (le : cs.length ≤ RCVBUFSIZE := by decide) : Chunk where
  bytes := cs.map Char.toUInt8
  pos := by rwa [List.length_map]
  le := by rwa [List.length_map]

/-- `echoBuffer` after `bzero` and `recv` -/
def Chunk.echoBuffer (c : Chunk) : List Byte :=
  c.bytes ++ List.replicate (RCVBUFSIZE - c.bytes.length) 0

/-- The body of the `while` loop: append the chunk, then scan from the start. -/
def receive (myBuffer : List Byte) (numInvalid : ℕ) (c : Chunk) : Option (Conn × List Event) := do
  let buf ← strcat myBuffer c.echoBuffer
  some (scanLoop buf 0 numInvalid)

/-- `HandleTCPClient` on the chunks that arrive; `none` when an append is undefined. -/
def HandleTCPClient : Conn → List Chunk → Option (Conn × List Event)
  | s, [] => some (s, [])
  | .returned, _ :: _ => some (.returned, [])
  | .reading myBuffer numInvalid, c :: cs => do
    let r ← receive myBuffer numInvalid c
    let r' ← HandleTCPClient r.1 cs
    some (r'.1, r.2 ++ r'.2)

/-- The connection when it is accepted. -/
def Conn.init : Conn := .reading [] 0

end DistributedSystem.CommandServer
