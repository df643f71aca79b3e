import Mathlib.Algebra.Group.Nat.Defs
import Mathlib.Algebra.Ring.Int.Defs
import Mathlib.Data.Int.Notation
import Mathlib.Data.List.OfFn
import Mathlib.Data.List.TakeWhile
import Mathlib.Data.Nat.Notation
import Mathlib.Tactic.Common

/-!
# C strings and numerals

Strings without their terminators, `strcpy` into an array, and `strtoul` to the base 10 on a
machine whose `unsigned long` has 64 bits. `StartsWith` says what a numeral at the start of
a string is, with no reference to the function, and `strtoul` is shown to convert exactly
these.
-/

namespace DistributedSystem.Library

section Span

variable {α : Type} {p : α → Bool} {l rest : List α}

/-- A first part that satisfies `p`, in front of something that does not go on with it. -/
theorem takeWhile_append_of_head? (hl : ∀ a ∈ l, p a = true) (hrest : ∀ a ∈ rest.head?, p a = false) :
    (l ++ rest).takeWhile p = l := by
  rw [List.takeWhile_append_of_pos hl]
  cases rest with
  | nil => simp
  | cons a rest => simp [hrest a rfl]

theorem dropWhile_append_of_head? (hl : ∀ a ∈ l, p a = true) (hrest : ∀ a ∈ rest.head?, p a = false) :
    (l ++ rest).dropWhile p = rest := by
  rw [List.dropWhile_append_of_pos hl]
  cases rest with
  | nil => rfl
  | cons a rest => simp [hrest a rfl]

end Span

/-- A C string, without its terminator. -/
structure CString where
  bytes : List UInt8
  noNul : 0 ∉ bytes
  deriving DecidableEq

namespace CString

/-- The string of an ASCII literal. -/
def ofChars (cs : List Char) (noNul : 0 ∉ cs.map Char.toUInt8 := by decide) : CString where
  bytes := cs.map Char.toUInt8
  noNul := noNul

/-- `strlen` -/
def strlen (s : CString) : ℕ := s.bytes.length

/-! ## Strings in arrays -/

/-- Characters and a terminator written into an array; what is behind the terminator stays. -/
def put {n : ℕ} (dst : Fin n → UInt8) (cs : List UInt8) : Fin n → UInt8 := fun i =>
  if i < cs.length then cs.getD i 0
  else if (i : ℕ) = cs.length then 0
  else dst i

/-- `strcpy` into an array. -/
def strcpy {n : ℕ} (dst : Fin n → UInt8) (src : CString) : Fin n → UInt8 := put dst src.bytes

/-- The string at the start of an array. -/
def arrayString {n : ℕ} (a : Fin n → UInt8) : List UInt8 := (List.ofFn a).takeWhile (· ≠ 0)

/-- Characters that fit with their terminator can be read back. -/
theorem arrayString_put {n : ℕ} (dst : Fin n → UInt8) {cs : List UInt8} (h0 : 0 ∉ cs)
    (h : cs.length < n) : arrayString (put dst cs) = cs := by
  -- the array is the string, the terminator and the rest of the old array
  have hsplit : List.ofFn (put dst cs) = cs ++ 0 :: (List.ofFn (put dst cs)).drop (cs.length + 1) := by
    refine List.ext_getElem ?_ fun i hi hi' => ?_
    · simp only [List.length_ofFn, List.length_append, List.length_cons, List.length_drop]
      omega
    · rw [List.length_ofFn] at hi
      rw [List.getElem_ofFn, List.getElem_append]
      simp only [put]
      split
      · next hlt => simp [hlt]
      · next hge =>
        rcases Nat.eq_or_lt_of_le (Nat.not_lt.mp hge) with heq | hgt
        · simp [heq]
        · obtain ⟨k, rfl⟩ := Nat.exists_eq_add_of_lt hgt
          have hk : cs.length + k + 1 - cs.length = k + 1 := by omega
          have hindex : cs.length + 1 + k = cs.length + k + 1 := by omega
          simp only [hk, List.getElem_cons_succ, List.getElem_drop, List.getElem_ofFn, hindex, put]
          exact (if_neg hge).symm
  have hall : ∀ b ∈ cs, decide (b ≠ 0) = true := by
    intro b hb
    rw [decide_eq_true_eq]
    rintro rfl
    exact h0 hb
  rw [arrayString, hsplit]
  exact takeWhile_append_of_head? hall (by simp)

theorem arrayString_strcpy {n : ℕ} (dst : Fin n → UInt8) {src : CString} (h : src.strlen < n) :
    arrayString (strcpy dst src) = src.bytes := arrayString_put dst src.noNul h

end CString

/-! ## Numerals -/

namespace Numeral

/-- `isspace` -/
def isspace (b : UInt8) : Bool := b == 32 || (9 ≤ b && b ≤ 13)

/-- `isdigit` -/
def isdigit (b : UInt8) : Bool := 48 ≤ b && b ≤ 57

/-- The value of a row of digits. -/
def decimal (ds : List UInt8) : ℕ := ds.foldl (fun v b => 10 * v + (b.toNat - 48)) 0

/-- `ULONG_MAX` -/
def ULONG_MAX : ℕ := 2 ^ 64 - 1

/-- An optional sign: whether it is a minus, and what follows. -/
def splitSign : List UInt8 → Bool × List UInt8
  | [] => (false, [])
  | b :: s => if b = 45 then (true, s) else if b = 43 then (false, s) else (false, b :: s)

/-- `strtoul(s, &end, 10)`: the value, and the string at `end`, which is `s` where nothing
    can be converted. -/
def strtoul (s : List UInt8) : ℕ × List UInt8 :=
  let (negative, t) := splitSign (s.dropWhile isspace)
  let ds := t.takeWhile isdigit
  if ds = [] then (0, s)
  else
    -- out of range, whatever the sign
    (if ULONG_MAX < decimal ds then ULONG_MAX
      else if negative then (2 ^ 64 - decimal ds) % 2 ^ 64
      else decimal ds,
      t.dropWhile isdigit)

/-- `strtoul` with the check for an error behind it: the value, and the number of errors so
    far. -/
def convert (arg : CString) (err : ℕ) : ℕ × ℕ :=
  let (value, rest) := strtoul arg.bytes
  (value, if rest = arg.bytes then err + 1 else err)

/-- The string starts with the number `n`: blanks, a sign or none, and at least one digit. -/
def StartsWith (s : List UInt8) (n : ℤ) : Prop :=
  ∃ blanks sign ds rest, s = blanks ++ (sign ++ (ds ++ rest)) ∧
    (∀ b ∈ blanks, isspace b = true) ∧ sign ∈ [[], [43], [45]] ∧
    ds ≠ [] ∧ (∀ b ∈ ds, isdigit b = true) ∧ (∀ b ∈ rest.head?, isdigit b = false) ∧
    n = if sign = [45] then -(decimal ds : ℤ) else decimal ds

/-- The `unsigned long` that a number is converted to. -/
def toULong (n : ℤ) : ℕ := if n.natAbs ≤ ULONG_MAX then (n % 2 ^ 64).toNat else ULONG_MAX

theorem isspace_of_isdigit {b : UInt8} (h : isdigit b = true) :
    isspace b = false ∧ b ≠ 45 ∧ b ≠ 43 := by
  simp only [isdigit, Bool.and_eq_true, decide_eq_true_eq, UInt8.le_iff_toNat_le] at h
  simp only [isspace, Bool.or_eq_false_iff, Bool.and_eq_false_iff, beq_eq_false_iff_ne,
    decide_eq_false_iff_not, UInt8.le_iff_toNat_le, ne_eq, ← UInt8.toNat_inj]
  simp only [UInt8.toNat_ofNat] at *
  omega

theorem splitSign_append {sign ds : List UInt8} (hsign : sign ∈ [[], [43], [45]]) (hne : ds ≠ [])
    (hds : ∀ b ∈ ds, isdigit b = true) (rest : List UInt8) :
    splitSign ((sign ++ (ds ++ rest)).dropWhile isspace) = (decide (sign = [45]), ds ++ rest) := by
  obtain ⟨d, ds, rfl⟩ := List.exists_cons_of_ne_nil hne
  obtain ⟨hspace, hminus, hplus⟩ := isspace_of_isdigit (hds d List.mem_cons_self)
  simp only [List.mem_cons, List.not_mem_nil, or_false] at hsign
  rcases hsign with rfl | rfl | rfl
  · simp [hspace, splitSign, hminus, hplus]
  · simp [isspace, splitSign]
  · simp [isspace, splitSign]

/-- The value that the two cases of the sign give. -/
theorem toULong_decimal (negative : Bool) (v : ℕ) :
    (if ULONG_MAX < v then ULONG_MAX else if negative then (2 ^ 64 - v) % 2 ^ 64 else v) =
      toULong (if negative then -(v : ℤ) else v) := by
  unfold toULong ULONG_MAX
  cases negative with
  | true =>
    simp only [if_true, Int.natAbs_neg, Int.natAbs_natCast]
    split
    · rw [if_neg (by omega)]
    · rw [if_pos (by omega)]
      omega
  | false =>
    simp only [Bool.false_eq_true, if_false, Int.natAbs_natCast]
    split
    · rw [if_neg (by omega)]
    · rw [if_pos (by omega)]
      omega

/-- A number at the start of the string is converted. -/
theorem strtoul_of_startsWith {s : List UInt8} {n : ℤ} (h : StartsWith s n) :
    (strtoul s).1 = toULong n ∧ (strtoul s).2 ≠ s := by
  obtain ⟨blanks, sign, ds, rest, rfl, hblanks, hsign, hne, hds, hrest, rfl⟩ := h
  have htake : (ds ++ rest).takeWhile isdigit = ds := takeWhile_append_of_head? hds hrest
  have hdrop : (ds ++ rest).dropWhile isdigit = rest := dropWhile_append_of_head? hds hrest
  simp only [strtoul, List.dropWhile_append_of_pos hblanks, splitSign_append hsign hne hds, htake,
    hdrop, if_neg hne]
  constructor
  · rw [toULong_decimal]
    simp only [decide_eq_true_eq]
  · -- the digits are behind `end`
    intro heq
    have hlen := congrArg List.length heq
    have hpos := List.length_pos_iff.mpr hne
    simp only [List.length_append] at hlen
    omega

/-- Nothing else is converted. -/
theorem startsWith_of_strtoul {s : List UInt8} (h : (strtoul s).2 ≠ s) : ∃ n, StartsWith s n := by
  have hblanks := List.takeWhile_append_dropWhile (p := isspace) (l := s)
  obtain ⟨sign, hsign, hsplit⟩ : ∃ sign, sign ∈ [[], [43], [45]] ∧
      s.dropWhile isspace = sign ++ (splitSign (s.dropWhile isspace)).2 := by
    cases s.dropWhile isspace with
    | nil => exact ⟨[], by simp, rfl⟩
    | cons b t =>
      by_cases hminus : b = 45
      · exact ⟨[45], by simp, by simp [splitSign, hminus]⟩
      by_cases hplus : b = 43
      · exact ⟨[43], by simp, by simp [splitSign, hplus]⟩
      · exact ⟨[], by simp, by simp [splitSign, hminus, hplus]⟩
  generalize ht : (splitSign (s.dropWhile isspace)).2 = t at hsplit
  by_cases hds : t.takeWhile isdigit = []
  · -- no digit: `end` is where it was
    refine absurd ?_ h
    simp only [strtoul, ht, if_pos hds]
  · refine ⟨_, s.takeWhile isspace, sign, t.takeWhile isdigit, t.dropWhile isdigit, ?_, ?_, hsign,
      hds, ?_, ?_, rfl⟩
    · rw [List.takeWhile_append_dropWhile, ← hsplit, hblanks]
    · exact fun b hb => List.mem_takeWhile_imp hb
    · exact fun b hb => List.mem_takeWhile_imp hb
    · intro b hb
      have := List.head?_dropWhile_not isdigit t
      rw [Option.mem_def.mp hb] at this
      simpa using this

/-- An `unsigned long` has 64 bits. -/
theorem strtoul_lt (s : List UInt8) : (strtoul s).1 < 2 ^ 64 := by
  unfold strtoul
  simp only
  split
  · exact Nat.two_pow_pos 64
  · unfold ULONG_MAX
    split
    · omega
    · split <;> omega

/-- No error so far. -/
theorem convert_eq_zero_iff {arg : CString} {err : ℕ} :
    (convert arg err).2 = 0 ↔ err = 0 ∧ ∃ n, StartsWith arg.bytes n := by
  unfold convert
  by_cases hend : (strtoul arg.bytes).2 = arg.bytes
  · -- nothing was converted
    simp only [if_pos hend]
    refine ⟨fun h => absurd h (Nat.succ_ne_zero err), ?_⟩
    rintro ⟨-, n, hn⟩
    exact absurd hend (strtoul_of_startsWith hn).2
  · simp only [if_neg hend]
    exact ⟨fun h => ⟨h, startsWith_of_strtoul hend⟩, fun h => h.1⟩

end Numeral

end DistributedSystem.Library
