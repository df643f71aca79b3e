import DistributedSystem.Library.Decimal
import DistributedSystem.WireFormats

/-!
# Clocks in the ShiViz log

`writeVectorTime` of `helper.c` and of the bully `node.c`, with buffers that are large enough.
Every entry is written with a comma behind it, and the last character of the line is then
overwritten. The reader of the lines is written from the format and not from the program.
-/

namespace DistributedSystem.ShiViz

open Library WireFormats
open Library.Text

/-! ## The writer -/

/-- `N%lu {` -/
def nodeIdBuf (port : ℕ) : List Char := "N".toList ++ decimal port ++ " \x7b".toList

/-- `"N%u" : %u,` -/
def nodeTimeBuf (c : Clock) : List Char :=
  "\"N".toList ++ decimal c.nodeId.toNat ++ "\" : ".toList ++ decimal c.time.toNat ++ ",".toList

/-- `writeVectorTime`, which both programs have. -/
def vectorTimeLine {n : ℕ} (vc : Fin n → Clock) (port : ℕ) : List Char :=
  let vectorTimeBuf := (List.finRange n).foldl
    (fun buf i => if (vc i).time ≠ 0 then buf ++ nodeTimeBuf (vc i) else buf) (nodeIdBuf port)
  -- the terminator goes over the last character
  vectorTimeBuf.dropLast ++ "\x7d\n".toList

namespace Transaction

def writeVectorTime (vc : Fin WireFormats.Transaction.MAX_NODES → Clock) (port : ℕ) : List Char :=
  vectorTimeLine vc port

end Transaction

namespace Bully

def writeVectorTime (vc : Fin WireFormats.Bully.MAX_NODES → Clock) (port : ℕ) : List Char :=
  vectorTimeLine vc port

end Bully

/-! ## The format -/

/-- `"N<id>" : <time>` -/
def entry (s : List Char) : Option ((ℕ × ℕ) × List Char) := do
  let s ← word "\"N".toList s
  let (nodeId, s) ← number s
  let s ← word "\" : ".toList s
  let (time, s) ← number s
  some ((nodeId, time), s)

/-- `N<port> {<entry>,...,<entry>}` and the end of the line -/
def parse (s : List Char) : Option (ℕ × List (ℕ × ℕ)) := do
  let s ← word "N".toList s
  let (port, s) ← number s
  let s ← word " \x7b".toList s
  let (entries, s) ← separated entry ',' s.length s
  if s = "\x7d\n".toList then some (port, entries) else none

/-- The entries with a time. -/
def visible {n : ℕ} (vc : Fin n → Clock) : List Clock := (List.ofFn vc).filter (·.time ≠ 0)

/-- The two numbers of an entry. -/
def numbers (c : Clock) : ℕ × ℕ := (c.nodeId.toNat, c.time.toNat)

variable {n : ℕ} {vc vc' : Fin n → Clock} {port port' : ℕ}

/-! ## Reading back -/

/-- The loop skips the entries without a time. -/
theorem foldl_nodeTimeBuf (l : List (Fin n)) (buf : List Char) :
    l.foldl (fun buf i => if (vc i).time ≠ 0 then buf ++ nodeTimeBuf (vc i) else buf) buf =
      buf ++ ((l.map vc).filter (·.time ≠ 0)).flatMap nodeTimeBuf := by
  induction l generalizing buf with
  | nil => simp
  | cons i l ih =>
    rw [List.foldl_cons, ih, List.map_cons, List.filter_cons]
    by_cases htime : (vc i).time = 0
    · simp [htime]
    · simp [htime]

theorem vectorTimeLine_eq (vc : Fin n → Clock) (port : ℕ) :
    vectorTimeLine vc port =
      (nodeIdBuf port ++ (visible vc).flatMap nodeTimeBuf).dropLast ++ "\x7d\n".toList := by
  rw [vectorTimeLine, foldl_nodeTimeBuf, visible, List.ofFn_eq_map]

/-- An entry without its comma. -/
def entryText (x : ℕ × ℕ) : List Char :=
  "\"N".toList ++ decimal x.1 ++ "\" : ".toList ++ decimal x.2

theorem nodeTimeBuf_eq (c : Clock) : nodeTimeBuf c = entryText (numbers c) ++ [','] := rfl

/-- An entry is read back in front of anything that does not go on with a digit. -/
theorem entry_entryText (x : ℕ × ℕ) {t : List Char} (ht : ∀ c ∈ t.head?, c.isDigit = false) :
    entry (entryText x ++ t) = some (x, t) := by
  have hquote : ∀ s : List Char, ∀ c ∈ ("\" : ".toList ++ s).head?, c.isDigit = false := by
    intro s c hc
    obtain rfl : '"' = c := Option.some.inj hc
    rfl
  simp only [entry, entryText, List.append_assoc, Option.bind_eq_bind, word_append,
    Option.bind_some, number_decimal_append x.1 (hquote _), number_decimal_append x.2 ht]

/-- The start of a line. -/
theorem parse_nodeIdBuf (port : ℕ) (s : List Char) :
    parse (nodeIdBuf port ++ s) =
      (separated entry ',' s.length s).bind fun r =>
        if r.2 = "\x7d\n".toList then some (port, r.1) else none := by
  have hblank : ∀ c ∈ (" \x7b".toList ++ s).head?, c.isDigit = false := by
    intro c hc
    obtain rfl : ' ' = c := Option.some.inj hc
    rfl
  simp only [parse, nodeIdBuf, List.append_assoc, Option.bind_eq_bind, word_append,
    Option.bind_some, number_decimal_append port hblank]

/-- A line with entries is read back. -/
theorem parse_vectorTimeLine (h : ∃ i, (vc i).time ≠ 0) (port : ℕ) :
    parse (vectorTimeLine vc port) = some (port, (visible vc).map numbers) := by
  obtain ⟨i, hi⟩ := h
  have hne : (visible vc).map numbers ≠ [] := by
    have hmem : vc i ∈ visible vc := by simp [visible, hi]
    simpa using List.ne_nil_of_mem hmem
  have hflat : (visible vc).flatMap nodeTimeBuf =
      ((visible vc).map numbers).flatMap fun x => entryText x ++ [','] := by
    rw [List.flatMap_map]
    exact List.flatMap_congr fun c _ => nodeTimeBuf_eq c
  have hcount := length_le_length_flatMap entryText ',' ((visible vc).map numbers)
  have hflatne : (((visible vc).map numbers).flatMap fun x => entryText x ++ [',']) ≠ [] := by
    intro hnil
    rw [hnil] at hcount
    exact hne (List.length_eq_zero_iff.mp (Nat.le_zero.mp hcount))
  rw [vectorTimeLine_eq, hflat, List.dropLast_append_of_ne_nil hflatne, List.append_assoc,
    parse_nodeIdBuf]
  -- the last comma is gone, but the end of the line has come
  have hfuel : ((visible vc).map numbers).length ≤
      ((((visible vc).map numbers).flatMap fun x => entryText x ++ [',']).dropLast ++
        "\x7d\n".toList).length := by
    have hend : "\x7d\n".toList.length = 2 := by simp
    rw [List.length_append, List.length_dropLast]
    omega
  have hbrace : word [','] "\x7d\n".toList = none := by simp [word]
  rw [separated_append (fun x t => entry_entryText x) (by simp) (by simp) hbrace _ _ hne hfuel]
  rfl

/-- A line without entries has lost its opening brace. -/
theorem parse_vectorTimeLine_none (h : ∀ i, (vc i).time = 0) (port : ℕ) :
    parse (vectorTimeLine vc port) = none := by
  have hvisible : visible vc = [] := by simp [visible, h]
  have hline : vectorTimeLine vc port = "N".toList ++ (decimal port ++ " \x7d\n".toList) := by
    rw [vectorTimeLine_eq, hvisible, List.flatMap_nil, List.append_nil, nodeIdBuf,
      List.dropLast_append_of_ne_nil (by simp), List.append_assoc, List.append_assoc]
    simp
  have hnumber : number (decimal port ++ " \x7d\n".toList) = some (port, " \x7d\n".toList) :=
    number_decimal_append port (by simp)
  have hword : word " \x7b".toList " \x7d\n".toList = none := by simp [word]
  rw [hline, parse]
  simp only [Option.bind_eq_bind, word_append, Option.bind_some, hnumber, hword, Option.bind_none]

theorem numbers_injective : Function.Injective numbers := by
  rintro ⟨nodeId, time⟩ ⟨nodeId', time'⟩ h
  obtain ⟨hid, htime⟩ := Prod.mk.inj h
  rw [Clock.mk.injEq]
  exact ⟨UInt32.toNat_inj.mp hid, UInt32.toNat_inj.mp htime⟩

/-- The lines of `helper.c` say the port and the visible entries, in the order of the array,
    and no two clocks with different visible entries have the same line. -/
theorem parse_writeVectorTime (vc : Fin WireFormats.Transaction.MAX_NODES → Clock) (port : ℕ)
    (h : ∃ i, (vc i).time ≠ 0) :
    parse (Transaction.writeVectorTime vc port) =
        some (port, (visible vc).map fun c => (c.nodeId.toNat, c.time.toNat)) ∧
      ∀ vc' port', Transaction.writeVectorTime vc' port' = Transaction.writeVectorTime vc port →
        port' = port ∧ visible vc' = visible vc := by
  refine ⟨parse_vectorTimeLine h port, fun vc' port' heq => ?_⟩
  have hparse : parse (vectorTimeLine vc' port') = some (port, (visible vc).map numbers) :=
    (congrArg parse heq).trans (parse_vectorTimeLine h port)
  by_cases h' : ∃ i, (vc' i).time ≠ 0
  · rw [parse_vectorTimeLine h', Option.some.injEq, Prod.mk.injEq] at hparse
    exact ⟨hparse.1, numbers_injective.list_map hparse.2⟩
  · -- without entries the line is not read at all
    simp only [not_exists, not_not] at h'
    rw [parse_vectorTimeLine_none h'] at hparse
    exact absurd hparse (Option.some_ne_none _).symm

/-- The entry of 9090 has not been heard of, and the array has an entry without a node. -/
def heard : Fin WireFormats.Transaction.MAX_NODES → Clock := fun i =>
  [⟨8080, 4294967295⟩, ⟨9090, 0⟩, ⟨0, 7⟩].getD i ⟨0, 0⟩

theorem parse_writeVectorTime_heard :
    parse (Transaction.writeVectorTime heard 8080) = some (8080, [(8080, 4294967295), (0, 7)]) :=
  (parse_writeVectorTime heard 8080 ⟨⟨0, by decide⟩, by decide⟩).1

end DistributedSystem.ShiViz
