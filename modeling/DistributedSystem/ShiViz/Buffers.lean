import DistributedSystem.ShiViz.VectorTime
import Mathlib.Algebra.Order.BigOperators.Group.List
import Mathlib.Algebra.Order.Ring.Nat

/-!
# The buffers of the ShiViz log

The three `writeEventToLog` and the arrays that `writeVectorTime` and `writeEventToLog` format
into. The pieces of a line have arrays of their own, which are smaller than what the numbers
can take; the arrays for whole lines are large enough.
-/

namespace DistributedSystem.ShiViz

open Library WireFormats
open Library.Text

/-! ## Event texts -/

/-- A text for `strcpy`, or a format with one `%lu`, cut there. -/
inductive Template where
  | plain (text : String)
  | numbered (before after : String)

def Template.render (number : ℕ) : Template → List Char
  | plain text => text.toList
  | numbered before after => before.toList ++ decimal number ++ after.toList

/-- What nobody has written: the string that is found in `logBuf`, and the upper half of an
    argument of 32 bits that `%lu` takes for an `unsigned long`. -/
structure Uninit where
  logBuf : List Char
  upper : UInt32

/-- `writeEventToLog`, which all programs have, with the text that the `switch` chooses. -/
def eventLine (u : Uninit) (event : Option Template) (number : UInt32) (toFromNodeId : UInt64)
    (vectorTimeBuf : List Char) : List Char :=
  let logBuf :=
    match event with
    | some template => template.render (u.upper.toNat * 2 ^ 32 + number.toNat)
    -- the default writes nothing, and the line is put behind whatever is there
    | none => u.logBuf
  let portBuf := "N".toList ++ decimal toFromNodeId.toNat
  logBuf ++ portBuf ++ "\n".toList ++ vectorTimeBuf

/-! ### `node.c` -/

namespace Node

/-- The kinds of messages that the `switch` has. -/
def Formatted (msgID : UInt32) : Prop := msgID ∈ [10, 11, 12, 20, 21]

instance : DecidablePred Formatted := fun msgID => inferInstanceAs (Decidable (msgID ∈ _))

/-- The text for a kind. -/
def event (msgID : UInt32) (isSend : Bool) : Option Template :=
  match msgID.toNat with
  | 10 => some (if isSend then .numbered "Send ELECTION " " to "
      else .numbered "Receive ELECTION " " from ")
  | 11 => some (.plain (if isSend then "Send ANSWER to " else "Receive ANSWER from "))
  | 12 => some (.plain (if isSend then "Send COORD to " else "Receive COORD from "))
  | 20 => some (.plain (if isSend then "Send AYA to " else "Receive AYA from "))
  | 21 => some (.plain (if isSend then "Send IAA to " else "Receive IAA from "))
  | _ => none

def writeEventToLog (u : Uninit) (m : WireFormats.Bully.Msg)
    (myVectorClock : Fin WireFormats.Bully.MAX_NODES → Clock) (port : ℕ) (isSend : Bool)
    (toFromNodeId : UInt64) : List Char :=
  eventLine u (event m.msgID isSend) m.electionID toFromNodeId
    (Bully.writeVectorTime myVectorClock port)

end Node

/-! ### `tworker.c` -/

namespace Worker

def Formatted (msgID : UInt32) : Prop :=
  msgID ∈ [1000, 1001, 1007, 1008, 1011, 1012, 1013, 1014, 1015, 1016, 1017, 1019, 2000, 2001]

instance : DecidablePred Formatted := fun msgID => inferInstanceAs (Decidable (msgID ∈ _))

def event (msgID : UInt32) (isSend : Bool) : Option Template :=
  match msgID.toNat with
  -- BEGIN_SUCCESS, BEGINTX
  | 1016 | 1000 => some (if isSend then .numbered "Send BEGIN Transaction " " to "
      else .numbered "Receive BEGIN_SUCCESS " " from ")
  -- JOIN_SUCCESS, JOINTX
  | 1014 | 1001 => some (if isSend then .numbered "Send JOIN Transaction " " to "
      else .numbered "Receive JOIN_SUCCESS " " from ")
  -- JOIN_FAIL
  | 1013 => some (if isSend then .numbered "SEND JOIN_FAIL Transaction " " to "
      else .numbered "Receive JOIN_FAIL Transaction " " from ")
  -- BEGIN_FAIL
  | 1015 => some (if isSend then .numbered "SEND BEGIN_FAIL Transaction " " to "
      else .numbered "Receive BEGIN_FAIL Transaction " " from ")
  -- PREPARE_COMMIT, COMMIT
  | 1017 | 1007 => some (if isSend then .numbered "SEND COMMIT Transaction " " to "
      else .numbered "Receive PREPARE_COMMIT Transaction " " from ")
  -- COMMIT_CRASH
  | 1008 => some (if isSend then .numbered "SEND COMMIT_CRASH Transaction " " to "
      else .numbered "Receive PREPARE_COMMIT Transaction " " from ")
  -- DECIDE_COMMIT, VOTE_COMMIT
  | 2001 | 1012 => some (if isSend then .numbered "SEND VOTE_COMMIT Transaction " " to "
      else .numbered "Receive DECIDE_COMMIT Transaction " " from ")
  -- DECIDE_ABORT, VOTE_ABORT
  | 2000 | 1011 => some (if isSend then .numbered "SEND VOTE_ABORT Transaction " " to "
      else .numbered "Receive DECIDE_ABORT Transaction " " from ")
  -- POLL_DECISION
  | 1019 => some (if isSend then .numbered "SEND POLL_DECISION Transaction " " to "
      else .numbered "Receive POLL_DECISION Transaction " " from ")
  | _ => none

def writeEventToLog (u : Uninit) (m : WireFormats.Transaction.TxMessage)
    (myVectorClock : Fin WireFormats.Transaction.MAX_NODES → Clock) (port : ℕ) (isSend : Bool)
    (toFromNodeId : UInt64) : List Char :=
  eventLine u (event m.msgID isSend) m.tid toFromNodeId
    (Transaction.writeVectorTime myVectorClock port)

end Worker

/-! ### `tmanager.c` -/

namespace Manager

def Formatted (msgID : UInt32) : Prop :=
  msgID ∈ [1000, 1001, 1007, 1011, 1012, 1013, 1014, 1015, 1016, 1017, 1019, 2000, 2001]

instance : DecidablePred Formatted := fun msgID => inferInstanceAs (Decidable (msgID ∈ _))

def event (msgID : UInt32) (isSend : Bool) : Option Template :=
  match msgID.toNat with
  -- BEGINTX
  | 1000 => some (if isSend then .numbered "Send BEGIN Transaction " " to "
      else .numbered "Receive BEGIN Transaction " " from ")
  -- JOINTX
  | 1001 => some (if isSend then .numbered "Send JOIN Transaction " " to "
      else .numbered "Receive JOIN Transaction " " from ")
  -- JOIN_FAIL
  | 1013 => some (if isSend then .numbered "SEND JOIN_FAIL Transaction " " to "
      else .numbered "Receive JOIN_FAIL Transaction " " from ")
  -- JOIN_SUCCESS
  | 1014 => some (if isSend then .numbered "SEND JOIN_SUCCESS Transaction " " to "
      else .numbered "Receive JOIN_SUCCESS Transaction " " from ")
  -- BEGIN_FAIL
  | 1015 => some (if isSend then .numbered "SEND BEGIN_FAIL Transaction " " to "
      else .numbered "Receive BEGIN_FAIL Transaction " " from ")
  -- BEGIN_SUCCESS
  | 1016 => some (if isSend then .numbered "SEND BEGIN_SUCCESS Transaction " " to "
      else .numbered "Receive BEGIN_SUCCESS Transaction " " from ")
  -- PREPARE_COMMIT, COMMIT
  | 1017 | 1007 => some (if isSend then .numbered "SEND PREPARE_COMMIT Transaction " " to "
      else .numbered "Receive COMMIT Transaction " " from ")
  -- VOTE_COMMIT, DECIDE_COMMIT
  | 1012 | 2001 => some (if isSend then .numbered "SEND DECIDE_COMMIT Transaction " " to "
      else .numbered "Receive VOTE_COMMIT Transaction " " from ")
  -- DECIDE_ABORT, VOTE_ABORT
  | 2000 | 1011 => some (if isSend then .numbered "SEND DECIDE_ABORT Transaction " " to "
      else .numbered "Receive VOTE_ABORT Transaction " " from ")
  -- POLL_DECISION
  | 1019 => some (if isSend then .numbered "SEND POLL_DECISION Transaction " " to "
      else .numbered "Receive POLL_DECISION Transaction " " from ")
  | _ => none

def writeEventToLog (u : Uninit) (m : WireFormats.Transaction.TxMessage)
    (myVectorClock : Fin WireFormats.Transaction.MAX_NODES → Clock) (port : ℕ) (isSend : Bool)
    (toFromNodeId : UInt64) : List Char :=
  eventLine u (event m.msgID isSend) m.tid toFromNodeId
    (Transaction.writeVectorTime myVectorClock port)

end Manager

/-! ## What fits -/

/-- A string fits into an array with its terminator. The arrays are `nodeIdBuf`,
    `nodeTimeBuf`, `vectorTimeBuf` and `logBuf`, and the line in each of the last two is
    longest at the end. -/
structure FitsBuffers {n : ℕ} (nodeIdSize : ℕ) (vc : Fin n → Clock) (port : ℕ)
    (logLine : Uninit → Bool → UInt64 → List Char) : Prop where
  nodeIdBuf : (nodeIdBuf port).length < nodeIdSize
  nodeTimeBuf : ∀ i, (vc i).time ≠ 0 → (nodeTimeBuf (vc i)).length < 20
  vectorTimeBuf : (vectorTimeLine vc port).length < 500
  logBuf : ∀ u isSend toFromNodeId, (logLine u isSend toFromNodeId).length < 500

/-- Everything that `node.c` formats for a message. -/
def Node.Fits (m : WireFormats.Bully.Msg) (vc : Fin WireFormats.Bully.MAX_NODES → Clock)
    (port : ℕ) : Prop :=
  FitsBuffers 6 vc port fun u => writeEventToLog u m vc port

/-- Everything that `tworker.c` formats for a message. -/
def Worker.Fits (m : WireFormats.Transaction.TxMessage)
    (vc : Fin WireFormats.Transaction.MAX_NODES → Clock) (port : ℕ) : Prop :=
  FitsBuffers 10 vc port fun u => writeEventToLog u m vc port

/-- Everything that `tmanager.c` formats for a message. -/
def Manager.Fits (m : WireFormats.Transaction.TxMessage)
    (vc : Fin WireFormats.Transaction.MAX_NODES → Clock) (port : ℕ) : Prop :=
  FitsBuffers 10 vc port fun u => writeEventToLog u m vc port

/-- The number of decimal digits. -/
def digits (n : ℕ) : ℕ := Nat.log 10 n + 1

/-- The id and the time of each visible entry have twelve digits together at most. -/
def Short {n : ℕ} (vc : Fin n → Clock) : Prop :=
  ∀ i, (vc i).time ≠ 0 → digits (vc i).nodeId.toNat + digits (vc i).time.toNat ≤ 12

variable {n : ℕ} {vc : Fin n → Clock} {port : ℕ}

/-! ### The pieces -/

theorem length_nodeIdBuf (port : ℕ) : (nodeIdBuf port).length = digits port + 3 := by
  simp [nodeIdBuf, length_decimal, digits]

theorem length_nodeTimeBuf (c : Clock) :
    (nodeTimeBuf c).length = digits c.nodeId.toNat + digits c.time.toNat + 7 := by
  simp only [nodeTimeBuf, String.reduceToList, List.length_append, length_decimal,
    List.length_cons, List.length_nil, digits]
  omega

theorem digits_port (hport : port ≤ 65535) : digits port ≤ 5 := by
  rw [digits, ← length_decimal, length_decimal_le_iff]
  omega

/-- The bully array has room for two digits. -/
theorem digits_port_le_two_iff : digits port ≤ 2 ↔ port < 100 := by
  rw [digits, ← length_decimal]
  exact length_decimal_le_iff

theorem digits_uint32 (v : UInt32) : digits v.toNat ≤ 10 := by
  rw [digits, ← length_decimal]
  exact length_decimal_uint32 v

/-! ### The lines -/

/-- Every visible entry adds 27 characters at most. -/
theorem length_vectorTimeLine_le (vc : Fin n → Clock) (port : ℕ) :
    (vectorTimeLine vc port).length ≤ digits port + 3 + n * 27 + 1 := by
  have hentries : ((visible vc).flatMap nodeTimeBuf).length ≤ n * 27 := by
    have hcount : (visible vc).length ≤ n :=
      (List.length_filter_le ..).trans (List.length_ofFn (f := vc)).le
    have hpiece : ∀ k ∈ (visible vc).map fun c => (nodeTimeBuf c).length, k ≤ 27 := by
      intro k hk
      obtain ⟨c, -, rfl⟩ := List.mem_map.mp hk
      have hid := digits_uint32 c.nodeId
      have htime := digits_uint32 c.time
      rw [length_nodeTimeBuf]
      omega
    have hsum := List.sum_le_card_nsmul _ 27 hpiece
    rw [← List.length_flatMap, List.length_map, Nat.nsmul_eq_mul] at hsum
    exact hsum.trans (Nat.mul_le_mul_right 27 hcount)
  have hend : "\x7d\n".toList.length = 2 := by simp
  have hid := length_nodeIdBuf port
  rw [vectorTimeLine_eq, List.length_append, List.length_dropLast, List.length_append]
  omega

/-- The characters of a text without the number. -/
def Template.fixed : Template → ℕ
  | plain text => text.toList.length
  | numbered before after => before.toList.length + after.toList.length

theorem Template.length_render_le (t : Template) (number : ℕ) :
    (t.render number).length ≤ t.fixed + digits number := by
  cases t with
  | plain text => exact Nat.le_add_right _ _
  | numbered before after =>
    simp only [render, fixed, List.length_append, length_decimal, digits]
    omega

theorem Node.event_fixed :
    ∀ msgID, Formatted msgID → ∀ isSend, (event msgID isSend).any (·.fixed ≤ 41) = true := by
  simp [Formatted, event, Template.fixed]

theorem Worker.event_fixed :
    ∀ msgID, Formatted msgID → ∀ isSend, (event msgID isSend).any (·.fixed ≤ 41) = true := by
  simp [Formatted, event, Template.fixed]

theorem Manager.event_fixed :
    ∀ msgID, Formatted msgID → ∀ isSend, (event msgID isSend).any (·.fixed ≤ 41) = true := by
  simp [Formatted, event, Template.fixed]

theorem Node.event_none {msgID : UInt32} (h : ¬ Formatted msgID) (isSend : Bool) :
    event msgID isSend = none := by
  simp only [Formatted, List.mem_cons, ← UInt32.toNat_inj, UInt32.reduceToNat, List.not_mem_nil,
    or_false, not_or] at h
  unfold event
  split <;> first | rfl | omega

theorem Worker.event_none {msgID : UInt32} (h : ¬ Formatted msgID) (isSend : Bool) :
    event msgID isSend = none := by
  simp only [Formatted, List.mem_cons, ← UInt32.toNat_inj, UInt32.reduceToNat, List.not_mem_nil,
    or_false, not_or] at h
  unfold event
  split <;> first | rfl | omega

theorem Manager.event_none {msgID : UInt32} (h : ¬ Formatted msgID) (isSend : Bool) :
    event msgID isSend = none := by
  simp only [Formatted, List.mem_cons, ← UInt32.toNat_inj, UInt32.reduceToNat, List.not_mem_nil,
    or_false, not_or] at h
  unfold event
  split <;> first | rfl | omega

/-- A text of the `switch` leaves enough room, and without one there need not be any. -/
theorem eventLine_fits_iff {event : Bool → Option Template} {number : UInt32}
    {vectorTimeBuf : List Char} (hline : vectorTimeBuf.length ≤ 279) {Formatted : Prop}
    (hsome : Formatted → ∀ isSend, (event isSend).any (·.fixed ≤ 41) = true)
    (hnone : ¬ Formatted → ∀ isSend, event isSend = none) :
    (∀ u isSend toFromNodeId,
      (eventLine u (event isSend) number toFromNodeId vectorTimeBuf).length < 500) ↔
      Formatted := by
  constructor
  · intro h
    by_contra hno
    have hlong := h ⟨List.replicate 500 ' ', 0⟩ true 0
    rw [hnone hno] at hlong
    simp only [eventLine, List.length_append, List.length_replicate] at hlong
    omega
  · intro hformatted u isSend toFromNodeId
    obtain ⟨t, ht, hfixed⟩ := (Option.any_eq_true ..).mp (hsome hformatted isSend)
    have hrender := t.length_render_le (u.upper.toNat * 2 ^ 32 + number.toNat)
    have hnumber : digits (u.upper.toNat * 2 ^ 32 + number.toNat) ≤ 20 := by
      have hupper := u.upper.toNat_lt
      have hlower := number.toNat_lt
      rw [digits, ← length_decimal, length_decimal_le_iff]
      omega
    have hto : (decimal toFromNodeId.toNat).length ≤ 20 :=
      length_decimal_le_iff.mpr (toFromNodeId.toNat_lt.trans (by omega))
    have hN : "N".toList.length = 1 := by simp
    have hend : "\n".toList.length = 1 := by simp
    rw [decide_eq_true_eq] at hfixed
    rw [ht, eventLine]
    simp only [List.length_append]
    omega

/-- The arrays of the pieces are what matters. -/
theorem fitsBuffers_iff {nodeIdSize : ℕ} {event : Bool → Option Template} {number : UInt32}
    {Formatted : Prop} (hport : port ≤ 65535) (hn : n ≤ 10)
    (hsome : Formatted → ∀ isSend, (event isSend).any (·.fixed ≤ 41) = true)
    (hnone : ¬ Formatted → ∀ isSend, event isSend = none) :
    FitsBuffers nodeIdSize vc port
        (fun u isSend toFromNodeId =>
          eventLine u (event isSend) number toFromNodeId (vectorTimeLine vc port)) ↔
      digits port + 3 < nodeIdSize ∧ Short vc ∧ Formatted := by
  have hline : (vectorTimeLine vc port).length ≤ 279 := by
    have hle := length_vectorTimeLine_le vc port
    have hdigits := digits_port hport
    omega
  have hlog : (∀ u isSend toFromNodeId,
      (eventLine u (event isSend) number toFromNodeId (vectorTimeLine vc port)).length < 500) ↔
        Formatted := eventLine_fits_iff hline hsome hnone
  have hpiece : ∀ i, (nodeTimeBuf (vc i)).length < 20 ↔
      digits (vc i).nodeId.toNat + digits (vc i).time.toNat ≤ 12 := by
    intro i
    rw [length_nodeTimeBuf]
    omega
  constructor
  · rintro ⟨hid, htime, -, hevent⟩
    exact ⟨length_nodeIdBuf port ▸ hid, fun i hi => (hpiece i).mp (htime i hi), hlog.mp hevent⟩
  · rintro ⟨hid, hshort, hformatted⟩
    exact ⟨length_nodeIdBuf port ▸ hid, fun i hi => (hpiece i).mpr (hshort i hi),
      by omega, hlog.mpr hformatted⟩

/-- For a port, everything fits in `node.c` exactly when the port has two digits, the visible
    entries are short and the kind of the message has a text, and in the transaction programs
    exactly when the entries are short and the kind has a text. -/
theorem fits_iff (port : ℕ) (hport : port ≤ 65535)
    (vc : Fin WireFormats.Bully.MAX_NODES → Clock) (m : WireFormats.Bully.Msg)
    (vc' : Fin WireFormats.Transaction.MAX_NODES → Clock)
    (m' : WireFormats.Transaction.TxMessage) :
    (Node.Fits m vc port ↔ port < 100 ∧ Short vc ∧ Node.Formatted m.msgID) ∧
      (Worker.Fits m' vc' port ↔ Short vc' ∧ Worker.Formatted m'.msgID) ∧
      (Manager.Fits m' vc' port ↔ Short vc' ∧ Manager.Formatted m'.msgID) := by
  -- `nodeIdBuf` of `helper.c` has room for any port
  have hroom : digits port + 3 < 10 := by
    have hdigits := digits_port hport
    omega
  refine ⟨?_, ?_, ?_⟩
  · have htwo : digits port + 3 < 6 ↔ port < 100 := by
      rw [← digits_port_le_two_iff]
      omega
    rw [← htwo]
    exact fitsBuffers_iff hport (by decide) (Node.event_fixed m.msgID) fun h => Node.event_none h
  · exact (fitsBuffers_iff hport (by decide) (Worker.event_fixed m'.msgID) fun h =>
      Worker.event_none h).trans (and_iff_right hroom)
  · exact (fitsBuffers_iff hport (by decide) (Manager.event_fixed m'.msgID) fun h =>
      Manager.event_none h).trans (and_iff_right hroom)

/-- The clock of a node that has just started. -/
def started {n : ℕ} (port : UInt32) : Fin n → Clock := fun i => [⟨port, 1⟩].getD i ⟨0, 0⟩

/-- The same clock after a message with a large entry. -/
def foreign {n : ℕ} (port : UInt32) : Fin n → Clock := fun i =>
  [⟨port, 2⟩, ⟨4294967295, 4294967295⟩].getD i ⟨0, 0⟩

theorem fits_iff_started :
    Node.Fits ⟨12, 0, started 80⟩ (started 80) 80 ∧
      Worker.Fits ⟨1012, 1, 80, 0, started 80⟩ (started 80) 80 := by
  have hshort : ∀ {n : ℕ}, Short (started 80 : Fin n → Clock) := by
    intro n i hi
    have hdigits : digits 80 + digits 1 ≤ 12 := by
      simp only [digits, ← length_decimal]
      decide
    cases hindex : (i : ℕ) with
    | zero => simpa [started, hindex] using hdigits
    | succ k => exact absurd (by simp [started, hindex]) hi
  obtain ⟨hnode, hworker, -⟩ := fits_iff 80 (by decide) (started 80) ⟨12, 0, started 80⟩
    (started 80) ⟨1012, 1, 80, 0, started 80⟩
  exact ⟨hnode.mpr ⟨by decide, hshort, by decide⟩, hworker.mpr ⟨hshort, by decide⟩⟩

/-- A bully node with an ordinary port writes past `nodeIdBuf` with its first event, and a
    worker that has learnt of an entry with large numbers past `nodeTimeBuf`. -/
theorem not_fits :
    ¬ Node.Fits ⟨12, 0, started 8080⟩ (started 8080) 8080 ∧
      ¬ Worker.Fits ⟨1012, 1, 8080, 0, foreign 8080⟩ (foreign 8080) 8080 := by
  constructor
  · intro h
    exact absurd h.nodeIdBuf (by decide)
  · intro h
    exact absurd (h.nodeTimeBuf ⟨1, by decide⟩ (by decide)) (by decide)

end DistributedSystem.ShiViz
