import DistributedSystem.Library.CString
import Mathlib.Data.List.DropRight
import Mathlib.Data.Nat.Log
import Mathlib.Tactic.Common

/-!
# Printed numbers

Numbers as `%u` and `%lu` print them, and readers for texts that are made of such numbers
and fixed words. A reader takes what it reads from the front of the text and leaves the rest.
A text is cut into lines before any of them is read.
-/

namespace DistributedSystem.Library.Text

/-- What `%u` and `%lu` print. -/
def decimal (n : ℕ) : List Char := Nat.toDigits 10 n

/-- The number of digits. -/
theorem length_decimal (n : ℕ) : (decimal n).length = Nat.log 10 n + 1 := by
  have hpos : 0 < (decimal n).length := Nat.length_toDigits_pos
  apply Nat.le_antisymm
  · rw [decimal, Nat.length_toDigits_le_iff (by omega) (by omega)]
    exact Nat.lt_pow_succ_log_self (by omega) n
  · have hlt : n < 10 ^ (decimal n).length :=
      (Nat.length_toDigits_le_iff (by omega) hpos).mp le_rfl
    exact Nat.log_lt_of_lt_pow' hpos.ne' hlt

theorem length_decimal_le_iff {n k : ℕ} : (decimal n).length ≤ k + 1 ↔ n < 10 ^ (k + 1) :=
  Nat.length_toDigits_le_iff (by omega) (by omega)

/-- What 32 bits can hold has ten digits at most. -/
theorem length_decimal_uint32 (v : UInt32) : (decimal v.toNat).length ≤ 10 :=
  length_decimal_le_iff.mpr (v.toNat_lt.trans (by omega))

/-! ## Readers -/

/-- What is left behind the word. -/
def word (w s : List Char) : Option (List Char) := if w <+: s then some (s.drop w.length) else none

/-- The number at the front of the text. -/
def number (s : List Char) : Option (ℕ × List Char) :=
  let ds := s.takeWhile Char.isDigit
  if ds = [] then none else some (Nat.ofDigitChars 10 ds 0, s.dropWhile Char.isDigit)

/-- Items with the separator between them, at most as many as there is fuel. -/
def separated {α : Type} (item : List Char → Option (α × List Char)) (sep : Char) :
    ℕ → List Char → Option (List α × List Char)
  | 0, _ => none
  | fuel + 1, s => do
    let (a, s) ← item s
    match word [sep] s with
    | none => some ([a], s)
    | some s =>
      let (as, s) ← separated item sep fuel s
      some (a :: as, s)

@[simp] theorem word_append (w s : List Char) : word w (w ++ s) = some s := by
  rw [word, if_pos (List.prefix_append w s), List.drop_left]

/-- A printed number is read back in front of anything that is no digit. -/
theorem number_decimal_append (n : ℕ) {rest : List Char}
    (hrest : ∀ c ∈ rest.head?, c.isDigit = false) :
    number (decimal n ++ rest) = some (n, rest) := by
  have hdigits : ∀ c ∈ decimal n, c.isDigit = true := fun c hc =>
    Nat.isDigit_of_mem_toDigits (by omega) (by omega) hc
  have htake : (decimal n ++ rest).takeWhile Char.isDigit = decimal n :=
    takeWhile_append_of_head? hdigits hrest
  have hdrop : (decimal n ++ rest).dropWhile Char.isDigit = rest :=
    dropWhile_append_of_head? hdigits hrest
  have hne : decimal n ≠ [] := Nat.toDigits_ne_nil
  simp only [number, htake, hdrop, if_neg hne]
  rw [decimal, Nat.ofDigitChars_ten_toDigits]

/-- Every written item takes at least its separator. -/
theorem length_le_length_flatMap {α : Type} (print : α → List Char) (sep : Char) (as : List α) :
    as.length ≤ (as.flatMap fun a => print a ++ [sep]).length := by
  induction as with
  | nil => exact Nat.le_refl 0
  | cons a as ih =>
    rw [List.flatMap_cons, List.length_append, List.length_append, List.length_singleton,
      List.length_cons]
    omega

/-- Items that were written with a separator behind each, the last one taken back, are read
    in front of a text that is no further item. -/
theorem separated_append {α : Type} {item : List Char → Option (α × List Char)}
    {print : α → List Char} {sep : Char} {Stop : List Char → Prop} {rest : List Char}
    (hitem : ∀ a t, Stop t → item (print a ++ t) = some (a, t)) (hsep : ∀ t, Stop ([sep] ++ t))
    (hrest : Stop rest) (hend : word [sep] rest = none) :
    ∀ (as : List α) (fuel : ℕ), as ≠ [] → as.length ≤ fuel →
      separated item sep fuel ((as.flatMap fun a => print a ++ [sep]).dropLast ++ rest) =
        some (as, rest)
  | [a], fuel + 1, _, _ => by
    simp [separated, hitem a rest hrest, hend]
  | a :: b :: as, fuel + 1, _, hfuel => by
    have ih := separated_append hitem hsep hrest hend (b :: as) fuel (List.cons_ne_nil b as)
      (Nat.le_of_succ_le_succ hfuel)
    have hne : ((b :: as).flatMap fun a => print a ++ [sep]) ≠ [] := by simp
    -- the separator behind the first item stays
    rw [List.flatMap_cons, List.dropLast_append_of_ne_nil hne, List.append_assoc, List.append_assoc]
    generalize ((b :: as).flatMap fun a => print a ++ [sep]).dropLast ++ rest = text at ih ⊢
    rw [separated, hitem a _ (hsep text)]
    simp only [Option.bind_eq_bind, Option.bind_some, word_append, ih]

/-! ## Lines -/

/-- The lines of a text without their ends; what stands behind the last end is a line, too. -/
def lines : List Char → List (List Char)
  | [] => []
  | c :: s =>
      if c = '\n' then [] :: lines s
      else
        match lines s with
        | [] => [[c]]
        | l :: ls => (c :: l) :: ls

/-- A line is read up to its end. -/
theorem lines_append {l : List Char} (h : '\n' ∉ l) (s : List Char) :
    lines (l ++ '\n' :: s) = l :: lines s := by
  induction l with
  | nil => simp [lines]
  | cons c l ih =>
    obtain ⟨hc, hl⟩ := not_or.mp (List.mem_cons.not.mp h)
    rw [List.cons_append, lines, if_neg (Ne.symm hc), ih hl]

/-- Numbers stay on their line. -/
theorem newline_notMem_decimal (n : ℕ) : '\n' ∉ decimal n := by
  intro h
  have hdigit : '\n'.isDigit = true := Nat.isDigit_of_mem_toDigits (by omega) (by omega) h
  exact absurd hdigit (by decide)

end DistributedSystem.Library.Text
