import DistributedSystem.LogFiles.Layout
import DistributedSystem.ShiViz.Buffers
import DistributedSystem.Transaction.Kinds

/-!
# The ShiViz log file

The texts of local events, the lines that a node of the transaction system appends to its log
file, and a reader for such files. The reader is written from the format: two lines an event,
the second one with the clock.
-/

namespace DistributedSystem.ShiViz

open Library
open Library.Text
open DistributedSystem.LogFiles

/-! ## The format -/

/-- An event as it stands in a log file. -/
structure Line where
  text : List Char
  host : ℕ
  entries : List (ℕ × ℕ)
  deriving DecidableEq

namespace Line

/-- The time of a node; a node without an entry has time 0. -/
def time (l : Line) (id : ℕ) : ℕ := ((l.entries.find? fun x => x.1 = id).map Prod.snd).getD 0

end Line

/-- The events of a file, from its lines. -/
def readLines : List (List Char) → Option (List Line)
  | [] => some []
  | [_] => none
  | text :: clock :: rest => do
      let (host, entries) ← parse (clock ++ "\n".toList)
      let ls ← readLines rest
      some (⟨text, host, entries⟩ :: ls)

/-- The events of a file. -/
def readLog (file : List Char) : Option (List Line) := readLines (lines file)

/-- The text of a block reads as one event, whatever comes behind it. -/
def Reads (block : List Char) (l : Line) : Prop :=
  ∀ rest, readLog (block ++ rest) = (readLog rest).map (l :: ·)

variable {n : ℕ} {vc : Fin n → WireFormats.Clock} {port : ℕ} {text : List Char}

/-! ## Reading a block -/

/-- The line of the clock ends with the brace. -/
theorem vectorTimeLine_line (vc : Fin n → WireFormats.Clock) (port : ℕ) :
    ∃ clock, '\n' ∉ clock ∧ vectorTimeLine vc port = clock ++ "\n".toList := by
  refine ⟨(nodeIdBuf port ++ (visible vc).flatMap nodeTimeBuf).dropLast ++ "\x7d".toList, ?_, ?_⟩
  · have hid : '\n' ∉ nodeIdBuf port := by simp [nodeIdBuf, newline_notMem_decimal]
    have htimes : '\n' ∉ (visible vc).flatMap nodeTimeBuf := by
      simp [nodeTimeBuf, newline_notMem_decimal]
    intro h
    rcases List.mem_append.mp h with h | h
    · rcases List.mem_append.mp (List.dropLast_subset _ h) with h | h
      · exact hid h
      · exact htimes h
    · simp at h
  · rw [vectorTimeLine_eq, List.append_assoc]
    simp

theorem reads_block (htext : '\n' ∉ text) (hvc : ∃ i, (vc i).time ≠ 0) :
    Reads (text ++ "\n".toList ++ vectorTimeLine vc port) ⟨text, port, (visible vc).map numbers⟩ := by
  intro rest
  obtain ⟨clock, hclock, hline⟩ := vectorTimeLine_line vc port
  have hparse : parse (clock ++ "\n".toList) = some (port, (visible vc).map numbers) :=
    hline ▸ parse_vectorTimeLine hvc port
  have hlines : lines (text ++ "\n".toList ++ vectorTimeLine vc port ++ rest) =
      text :: clock :: lines rest := by
    have hend : "\n".toList = ['\n'] := by simp
    rw [hline, hend]
    simp only [List.append_assoc, List.cons_append, List.nil_append]
    rw [lines_append htext, lines_append hclock]
  rw [readLog, hlines, readLines, hparse]
  simp only [Option.bind_eq_bind, Option.bind_some, readLog]
  cases readLines (lines rest) <;> rfl

/-- **A file of blocks is read block by block.** -/
theorem readLog_flatten {α : Type} {P : α → Line → Prop} {xs : List α} {blocks : List (List Char)}
    (h : List.Forall₂ (fun x block => ∃ l, P x l ∧ Reads block l) xs blocks) :
    ∃ ls, readLog blocks.flatten = some ls ∧ List.Forall₂ P xs ls := by
  induction h with
  | nil => exact ⟨[], rfl, .nil⟩
  | cons hx _ ih =>
      obtain ⟨l, hP, hreads⟩ := hx
      obtain ⟨ls, hread, hls⟩ := ih
      exact ⟨l :: ls, by rw [List.flatten_cons, hreads, hread, Option.map_some], .cons hP hls⟩

/-- The times of a line are those of the clock array. -/
theorem time_visible {vc : Fin MAX_NODES → WireFormats.Clock} {id : ℕ}
    (hpacked : Transaction.Packed (clockView vc)) (hid : id ≠ 0) :
    Line.time ⟨text, port, (visible vc).map numbers⟩ id = Transaction.timeOf (clockView vc) id := by
  unfold Line.time
  cases hfind : ((visible vc).map numbers).find? fun x => x.1 = id with
  | none =>
      -- the node has no entry, or one that is not printed
      simp only [List.find?_eq_none, List.mem_map, decide_eq_true_eq] at hfind
      by_cases hmem : id ∈ Transaction.ids (clockView vc)
      · obtain ⟨-, i, hi⟩ := Transaction.mem_ids.mp hmem
        rw [hpacked.timeOf_eq hi hid]
        by_contra htime
        refine hfind (numbers (vc i)) ⟨vc i, ?_, rfl⟩ hi
        refine List.mem_filter.mpr ⟨List.mem_ofFn.mpr ⟨i, rfl⟩, decide_eq_true ?_⟩
        rintro hzero
        exact htime (congrArg UInt32.toNat hzero).symm
      · rw [Transaction.timeOf_of_notMem hmem]
        rfl
  | some x =>
      have hx : x.1 = id := by simpa using List.find?_some hfind
      obtain ⟨c, hc, rfl⟩ := List.mem_map.mp (List.mem_of_find?_eq_some hfind)
      obtain ⟨i, rfl⟩ := List.mem_ofFn.mp (List.mem_filter.mp hc).1
      rw [hpacked.timeOf_eq hx hid]
      rfl

/-! ## What the programs print -/

/-- `%d` -/
def integer (v : ℤ) : List Char := (if v < 0 then "-".toList else []) ++ decimal v.natAbs

/-- `writeStartToLog` of `helper.c` -/
def writeStartToLog (port clock : ℕ) : List Char :=
  "Starting N".toList ++ decimal port ++ "\nN".toList ++ decimal port ++ " \x7b\"N".toList ++
    decimal port ++ "\" : ".toList ++ decimal clock ++ "\x7d\n".toList

/-- The texts of a program: what the `switch` of its `writeLocalEventToLog` makes of a message,
    and the formats in that of its `writeEventToLog`. -/
structure Program where
  localText : Transaction.MsgType → Option (List Char)
  event : UInt32 → Bool → Option Template

/-- `writeLocalEventToLog`, which both programs have. -/
def Program.writeLocalEventToLog (P : Program) (u : Uninit) (m : Transaction.MsgType)
    (myVectorClock : Fin MAX_NODES → WireFormats.Clock) (port : ℕ) : List Char :=
  (P.localText m).getD u.logBuf ++ "\n".toList ++ Transaction.writeVectorTime myVectorClock port

/-- `writeEventToLog`, which both programs have. -/
def Program.writeEventToLog (P : Program) (u : Uninit) (m : WireFormats.Transaction.TxMessage)
    (myVectorClock : Fin MAX_NODES → WireFormats.Clock) (port : ℕ) (isSend : Bool)
    (toFromNodeId : UInt64) : List Char :=
  eventLine u (P.event m.msgID isSend) m.tid toFromNodeId
    (Transaction.writeVectorTime myVectorClock port)

namespace Worker

def localText (m : Transaction.MsgType) : Option (List Char) :=
  match m.msgID with
  | .newA => some ("Update A value to ".toList ++ integer m.newValue)
  | .newB => some ("Update B value to ".toList ++ integer m.newValue)
  | .newIdStr => some ("Update ID String to ".toList ++ m.strData.toList ++ " ".toList)
  | .abort => some "Locally ABORT".toList
  | .abortCrash => some "Locally ABORT_CRASH".toList
  | .crash => some "Locally CRASH".toList
  | .restarted => some "Worker RESTARTED".toList
  | _ => none

/-- `tworker.c` -/
def program : Program := ⟨localText, event⟩

theorem writeEventToLog_program (u : Uninit) (m : WireFormats.Transaction.TxMessage)
    (vc : Fin MAX_NODES → WireFormats.Clock) (port : ℕ) (isSend : Bool) (peer : UInt64) :
    program.writeEventToLog u m vc port isSend peer = writeEventToLog u m vc port isSend peer := rfl

end Worker

namespace Manager

/-- The `switch` is on the kind alone. -/
def localText (msgID : Transaction.MsgId) : Option (List Char) :=
  match msgID with
  | .crash => some "Locally CRASH".toList
  | .restarted => some "Manager RESTARTED".toList
  | _ => none

/-- `tmanager.c` -/
def program : Program := ⟨fun m => localText m.msgID, event⟩

theorem writeEventToLog_program (u : Uninit) (m : WireFormats.Transaction.TxMessage)
    (vc : Fin MAX_NODES → WireFormats.Clock) (port : ℕ) (isSend : Bool) (peer : UInt64) :
    program.writeEventToLog u m vc port isSend peer = writeEventToLog u m vc port isSend peer := rfl

end Manager

namespace Program

variable {P : Program} {x : Transaction.ShiVizEvent × Transaction.VClock}

/-- What a node appends to its file for an event. The value and the string of an update stand
    in the cmd message that asks for it; the string has no line end in it. -/
def Prints (P : Program) (port : ℕ) : Transaction.ShiVizEvent × Transaction.VClock → List Char → Prop
  | (.start, _), block => block = writeStartToLog port 1
  | (.localEvent k, vc), block => ∃ u m vc', m.msgID = k ∧ '\n' ∉ m.strData.toList ∧
      clockView vc' = vc ∧ block = P.writeLocalEventToLog u m vc' port
  | (.message k tid isSend peer, vc), block => ∃ u m vc', ∃ toFromNodeId : UInt64,
      m.msgID.toNat = code k ∧ m.tid.toNat = tid ∧ toFromNodeId.toNat = peer ∧ clockView vc' = vc ∧
        block = P.writeEventToLog u m vc' port isSend toFromNodeId

/-- The text of an event, with whatever `%lu` finds above a `tid`. -/
def Describes (P : Program) (port : ℕ) : Transaction.ShiVizEvent → List Char → Prop
  | .start, text => text = "Starting N".toList ++ decimal port
  | .localEvent k, text => ∃ m, m.msgID = k ∧ P.localText m = some text
  | .message k tid isSend peer, text => ∃ id template, ∃ upper : UInt32, id.toNat = code k ∧
      P.event id isSend = some template ∧
        text = template.render (upper.toNat * 2 ^ 32 + tid) ++ ("N".toList ++ decimal peer)

/-- The line tells the event of the node: its text, the node, and the times of the clock. -/
structure Tells (P : Program) (port : ℕ) (x : Transaction.ShiVizEvent × Transaction.VClock) (l : Line) :
    Prop where
  describes : P.Describes port x.1 l.text
  host : l.host = port
  time : ∀ id ≠ 0, l.time id = Transaction.timeOf x.2 id

end Program

/-! ## Reading what was printed -/

/-- The texts of a format stay on their line. -/
def Template.OneLine : Template → Prop
  | plain text => '\n' ∉ text.toList
  | numbered before after => '\n' ∉ before.toList ∧ '\n' ∉ after.toList

theorem Template.newline_notMem_render {t : Template} (h : t.OneLine) (number : ℕ) :
    '\n' ∉ t.render number := by
  cases t with
  | plain text => exact h
  | numbered before after => simp [render, newline_notMem_decimal, h.1, h.2]

/-- The program has a text of one line for the events of a node that sends `kinds`, has the local
    events `locals` and receives `received`. -/
structure Program.Covers (P : Program) (kinds locals received : List Transaction.MsgId) : Prop where
  locals : ∀ m : Transaction.MsgType, m.msgID ∈ locals → '\n' ∉ m.strData.toList →
    ∃ text, P.localText m = some text ∧ '\n' ∉ text
  messages : ∀ isSend, ∀ k ∈ (if isSend then kinds else received), ∀ id : UInt32, id.toNat = code k →
    ∃ template, P.event id isSend = some template ∧ template.OneLine

theorem newline_notMem_integer (v : ℤ) : '\n' ∉ integer v := by
  unfold integer
  split <;> simp [newline_notMem_decimal]

theorem Worker.covers : program.Covers Transaction.workerKinds Transaction.workerLocals
    Transaction.managerKinds where
  locals m hm hstr := by
    simp only [Transaction.workerLocals, List.mem_cons, List.not_mem_nil, or_false] at hm
    rcases hm with h | h | h | h | h | h | h <;>
      simp [program, localText, h, newline_notMem_integer, hstr]
  messages isSend k hk id hid := by
    cases isSend with
    | true =>
        simp only [Transaction.workerKinds, if_true, List.mem_cons, List.not_mem_nil, or_false] at hk
        rcases hk with rfl | rfl | rfl | rfl | rfl | rfl <;>
          simp [program, event, hid, code, Template.OneLine]
    | false =>
        simp only [Transaction.managerKinds, Bool.false_eq_true, if_false, List.mem_cons,
          List.not_mem_nil, or_false] at hk
        rcases hk with rfl | rfl | rfl | rfl | rfl | rfl | rfl <;>
          simp [program, event, hid, code, Template.OneLine]

theorem Manager.covers : program.Covers Transaction.managerKinds Transaction.managerLocals
    Transaction.workerKinds where
  locals m hm _ := by
    simp only [Transaction.managerLocals, List.mem_cons, List.not_mem_nil, or_false] at hm
    rcases hm with h | h <;> simp [program, localText, h]
  messages isSend k hk id hid := by
    cases isSend with
    | true =>
        simp only [Transaction.managerKinds, if_true, List.mem_cons, List.not_mem_nil, or_false] at hk
        rcases hk with rfl | rfl | rfl | rfl | rfl | rfl | rfl <;>
          simp [program, event, hid, code, Template.OneLine]
    | false =>
        simp only [Transaction.workerKinds, Bool.false_eq_true, if_false, List.mem_cons,
          List.not_mem_nil, or_false] at hk
        rcases hk with rfl | rfl | rfl | rfl | rfl | rfl <;>
          simp [program, event, hid, code, Template.OneLine]

/-- The start block is printed like the others. -/
theorem writeStartToLog_eq {port : ℕ} (hport : port < 2 ^ 32) :
    writeStartToLog port 1 = "Starting N".toList ++ decimal port ++ "\n".toList ++
      vectorTimeLine (ownClock (UInt32.ofNat port) 1) port := by
  have hvisible : visible (ownClock (UInt32.ofNat port) 1) = [⟨UInt32.ofNat port, 1⟩] := by
    simp [visible, List.ofFn_succ, ownClock]
  have hnumbers : numbers ⟨UInt32.ofNat port, 1⟩ = (port, 1) :=
    Prod.ext (UInt32.toNat_ofNat_of_lt' hport) rfl
  rw [vectorTimeLine_eq, hvisible, List.flatMap_cons, List.flatMap_nil, List.append_nil,
    nodeTimeBuf_eq, hnumbers, ← List.append_assoc (nodeIdBuf port), List.dropLast_concat]
  unfold writeStartToLog nodeIdBuf entryText
  simp only [String.reduceToList, List.append_assoc, List.cons_append, List.nil_append]

theorem clockView_ownClock {port : ℕ} (hport : port < 2 ^ 32) :
    clockView (ownClock (UInt32.ofNat port) 1) = Transaction.startClock port := by
  funext i
  have hid : (UInt32.ofNat port).toNat = port := UInt32.toNat_ofNat_of_lt' hport
  by_cases hi : i = 0
  · subst hi
    simp [clockView, ownClock, Clock.view, Transaction.startClock, hid]
  · have hval : i.val ≠ 0 := fun h => hi (Fin.ext h)
    simp [clockView, ownClock, Clock.view, Transaction.startClock, hi, hval]

section Blocks

variable {P : Program} {kinds locals received : List Transaction.MsgId} {block : List Char}
  {vc : Transaction.VClock} {vc' : Fin MAX_NODES → WireFormats.Clock} {e : Transaction.ShiVizEvent}

/-- A block with the text and the clock of an event tells that event. -/
theorem Program.tells_block (hdescribes : P.Describes port e text) (htext : '\n' ∉ text)
    (hvc : clockView vc' = vc) (hpacked : Transaction.Packed vc) (hpos : ∃ i, (vc i).time ≠ 0)
    (hblock : block = text ++ "\n".toList ++ vectorTimeLine vc' port) :
    ∃ l, P.Tells port (e, vc) l ∧ Reads block l := by
  subst hvc hblock
  have htime : ∃ i, (vc' i).time ≠ 0 := by
    obtain ⟨i, hi⟩ := hpos
    exact ⟨i, fun hzero => hi (congrArg UInt32.toNat hzero)⟩
  exact ⟨_, ⟨hdescribes, rfl, fun id hid => time_visible hpacked hid⟩, reads_block htext htime⟩

/-- What a node prints for an event of its own kinds is read back. -/
theorem Program.Covers.reads (h : P.Covers kinds locals received) (hport : port < 2 ^ 32)
    (hline : Transaction.LineOf kinds locals received port (e, vc)) (hpacked : Transaction.Packed vc)
    (hpos : ∃ i, (vc i).time ≠ 0) (hprints : P.Prints port (e, vc) block) :
    ∃ l, P.Tells port (e, vc) l ∧ Reads block l := by
  cases e with
  | start =>
      obtain rfl : vc = Transaction.startClock port := hline
      have htext : '\n' ∉ "Starting N".toList ++ decimal port := by simp [newline_notMem_decimal]
      exact tells_block rfl htext (clockView_ownClock hport) hpacked hpos
        (hprints.trans (writeStartToLog_eq hport))
  | localEvent k =>
      obtain ⟨u, m, vc', rfl, hstr, hvc, rfl⟩ := hprints
      obtain ⟨text, htext, hnl⟩ := h.locals m hline hstr
      refine tells_block ⟨m, rfl, htext⟩ hnl hvc hpacked hpos ?_
      rw [writeLocalEventToLog, htext]
      rfl
  | message k tid isSend peer =>
      obtain ⟨u, m, vc', toFromNodeId, hid, rfl, rfl, hvc, rfl⟩ := hprints
      obtain ⟨template, hevent, hone⟩ := h.messages isSend k hline m.msgID hid
      refine tells_block ⟨m.msgID, template, u.upper, hid, hevent, rfl⟩ ?_ hvc hpacked hpos ?_
      · simp [newline_notMem_decimal, Template.newline_notMem_render hone]
      · rw [writeEventToLog, hevent, eventLine]
        simp only [List.append_assoc]
        rfl

end Blocks

end DistributedSystem.ShiViz
