import DistributedSystem.Library.Search
import Mathlib.Algebra.Group.Nat.Defs
import Mathlib.Data.List.OfFn
import Mathlib.Logic.Equiv.Defs
import Mathlib.Logic.Function.Iterate
import Mathlib.Tactic.Common

/-!
# Fixed-size codecs

A codec writes a value as a fixed number of bytes and reads it back through a cursor: reading
returns the value and the bytes behind it. Both directions of the round trip are fields, so
that a format put together from codecs has them without a proof of its own.
-/

namespace DistributedSystem.Library

/-- A format of `size` bytes for the values of `α`. -/
structure Codec (α : Type*) where
  size : ℕ
  write : α → List UInt8
  /-- the value at the cursor, and the bytes behind it -/
  read : List UInt8 → α × List UInt8
  length_write : ∀ a, (write a).length = size
  read_write : ∀ a rest, read (write a ++ rest) = (a, rest)
  write_read : ∀ b, size ≤ b.length → write (read b).1 ++ (read b).2 = b

namespace Codec

variable {α β : Type*}

/-! ## The round trips -/

/-- What was written is read back. -/
theorem decode_encode (c : Codec α) (a : α) : (c.read (c.write a)).1 = a := by
  have h := c.read_write a []
  rw [List.append_nil] at h
  rw [h]

/-- Reading takes `size` bytes. -/
theorem length_read (c : Codec α) {b : List UInt8} (h : c.size ≤ b.length) :
    (c.read b).2.length = b.length - c.size := by
  have hlen := congrArg List.length (c.write_read b h)
  rw [List.length_append, c.length_write] at hlen
  omega

/-- A buffer of the right size is written again as it was. -/
theorem encode_decode (c : Codec α) {b : List UInt8} (h : b.length = c.size) :
    c.write (c.read b).1 = b := by
  have hrest : (c.read b).2 = [] := by
    rw [← List.length_eq_zero_iff, c.length_read (Nat.le_of_eq h.symm), h, Nat.sub_self]
  have hwhole := c.write_read b (Nat.le_of_eq h.symm)
  rwa [hrest, List.append_nil] at hwhole

/-! ## Putting codecs together -/

/-- One value behind the other. -/
def seq (c : Codec α) (d : Codec β) : Codec (α × β) where
  size := c.size + d.size
  write x := c.write x.1 ++ d.write x.2
  read b := (((c.read b).1, (d.read (c.read b).2).1), (d.read (c.read b).2).2)
  length_write x := by rw [List.length_append, c.length_write, d.length_write]
  read_write x rest := by rw [List.append_assoc, c.read_write, d.read_write]
  write_read b h := by
    have hc : c.size ≤ b.length := by omega
    have hd : d.size ≤ (c.read b).2.length := by
      rw [c.length_read hc]
      omega
    rw [List.append_assoc, d.write_read _ hd, c.write_read b hc]

/-- The same bytes for the values of another type. -/
def equiv (c : Codec α) (e : α ≃ β) : Codec β where
  size := c.size
  write x := c.write (e.symm x)
  read b := (e (c.read b).1, (c.read b).2)
  length_write x := c.length_write (e.symm x)
  read_write x rest := by rw [c.read_write, e.apply_symm_apply]
  write_read b h := by rw [e.symm_apply_apply, c.write_read b h]

/-- The cursor behind `k` entries. -/
def cursor (c : Codec α) (k : ℕ) (b : List UInt8) : List UInt8 :=
  (fun b => (c.read b).2)^[k] b

theorem cursor_succ (c : Codec α) (k : ℕ) (b : List UInt8) :
    c.cursor (k + 1) b = c.cursor k (c.read b).2 := rfl

theorem cursor_succ' (c : Codec α) (k : ℕ) (b : List UInt8) :
    c.cursor (k + 1) b = (c.read (c.cursor k b)).2 := Function.iterate_succ_apply' _ k b

theorem length_flatMap_write (c : Codec α) (l : List α) :
    (l.flatMap c.write).length = l.length * c.size := by
  induction l with
  | nil => simp
  | cons a l ih =>
    rw [List.flatMap_cons, List.length_append, c.length_write, ih, List.length_cons, Nat.succ_mul,
      Nat.add_comm]

theorem length_writeAll (c : Codec α) {n : ℕ} (f : Fin n → α) :
    ((List.ofFn f).flatMap c.write).length = n * c.size := by
  rw [c.length_flatMap_write, List.length_ofFn]

theorem read_writeAll (c : Codec α) {n : ℕ} (f : Fin n → α) (rest : List UInt8) :
    (∀ i : Fin n, (c.read (c.cursor i ((List.ofFn f).flatMap c.write ++ rest))).1 = f i) ∧
      c.cursor n ((List.ofFn f).flatMap c.write ++ rest) = rest := by
  induction n with
  | zero => exact ⟨fun i => i.elim0, rfl⟩
  | succ n ih =>
    obtain ⟨hentry, hend⟩ := ih fun i => f i.succ
    rw [List.ofFn_succ, List.flatMap_cons, List.append_assoc]
    constructor
    · intro i
      cases i using Fin.cases with
      | zero =>
        show (c.read (c.write (f 0) ++ _)).1 = f 0
        rw [c.read_write]
      | succ i =>
        rw [Fin.val_succ, cursor_succ, c.read_write]
        exact hentry i
    · rw [cursor_succ, c.read_write]
      exact hend

theorem writeAll_read (c : Codec α) {n : ℕ} (b : List UInt8) (h : n * c.size ≤ b.length) :
    (List.ofFn fun i : Fin n => (c.read (c.cursor i b)).1).flatMap c.write ++ c.cursor n b = b := by
  induction n generalizing b with
  | zero => rfl
  | succ n ih =>
    rw [Nat.succ_mul] at h
    have hc : c.size ≤ b.length := by omega
    have hrest : n * c.size ≤ (c.read b).2.length := by
      rw [c.length_read hc]
      omega
    rw [List.ofFn_succ, List.flatMap_cons, List.append_assoc, cursor_succ]
    have hmore := ih (c.read b).2 hrest
    simp only [Fin.val_succ, cursor_succ]
    rw [hmore]
    exact c.write_read b hc

/-- An array, entry by entry. -/
def array (c : Codec α) (n : ℕ) : Codec (Fin n → α) where
  size := n * c.size
  write f := (List.ofFn f).flatMap c.write
  read b := (fun i => (c.read (c.cursor i b)).1, c.cursor n b)
  length_write := c.length_writeAll
  read_write f rest := by
    obtain ⟨hentry, hend⟩ := c.read_writeAll f rest
    rw [hend]
    exact congrArg (·, rest) (funext hentry)
  write_read b h := c.writeAll_read b h

/-! ## Arrays in a loop -/

/-- A loop that appends the entries of an array writes the array. -/
theorem foldl_write (c : Codec α) {n : ℕ} (f : Fin n → α) (b : List UInt8) :
    (List.finRange n).foldl (fun b i => b ++ c.write (f i)) b = b ++ (c.array n).write f := by
  -- over any part of the indices, so that the induction goes through
  have hloop : ∀ (l : List (Fin n)) (b : List UInt8),
      l.foldl (fun b i => b ++ c.write (f i)) b = b ++ (l.map f).flatMap c.write := by
    intro l
    induction l with
    | nil => simp
    | cons i l ih =>
      intro b
      simp [ih]
  rw [hloop, ← List.ofFn_eq_map]
  rfl

/-- A loop that reads the entries of an array one by one, whatever the array held before. -/
theorem foldl_read (c : Codec α) {n : ℕ} (f : Fin n → α) (b : List UInt8) :
    (List.finRange n).foldl
        (fun (r : (Fin n → α) × List UInt8) i =>
          (Function.update r.1 i (c.read r.2).1, (c.read r.2).2)) (f, b) =
      (c.array n).read b := by
  -- after `k` turns the buffer is at entry `k`, and the entries before it are stored
  have hloop := foldl_finRange_invariant
    (fun (r : (Fin n → α) × List UInt8) i =>
      (Function.update r.1 i (c.read r.2).1, (c.read r.2).2))
    (P := fun k r => r.2 = c.cursor k b ∧
      ∀ j : Fin n, j.val < k → r.1 j = (c.read (c.cursor j b)).1)
    (s := (f, b)) ⟨rfl, fun j hj => absurd hj (Nat.not_lt_zero _)⟩ ?_
  · obtain ⟨hend, hentry⟩ := hloop
    exact Prod.ext (funext fun j => hentry j j.isLt) hend
  · rintro i ⟨r, b'⟩ ⟨hb, hr⟩
    simp only at hb hr ⊢
    refine ⟨by rw [hb, cursor_succ'], fun j hj => ?_⟩
    by_cases hji : j = i
    · subst hji
      rw [Function.update_self, hb]
    · rw [Function.update_of_ne hji]
      exact hr j (by omega)

/-! ## Reading in front of zeros -/

/-- The value at the start of the bytes `b`, where zeros follow them. -/
def readPadded (c : Codec α) (b : List UInt8) : α := (c.read (b ++ List.replicate c.size 0)).1

/-- What is left of a value when only its first `n` bytes are seen. -/
def clip (c : Codec α) (n : ℕ) (a : α) : α := c.readPadded ((c.write a).take n)

/-- The value of zeros. -/
def blank (c : Codec α) : α := c.readPadded []

theorem clip_zero (c : Codec α) (a : α) : c.clip 0 a = c.blank := by rw [clip, List.take_zero, blank]

@[simp] theorem clip_of_le (c : Codec α) {n : ℕ} (h : c.size ≤ n) (a : α) : c.clip n a = a := by
  rw [clip, List.take_of_length_le (by rwa [c.length_write]), readPadded, c.read_write]

/-- More zeros than the value needs do not change it. -/
theorem read_padded (c : Codec α) (b : List UInt8) {k : ℕ} (hk : c.size ≤ k) :
    c.read (b ++ List.replicate k 0) = (c.readPadded b, (b ++ List.replicate k 0).drop c.size) := by
  have hlength : ∀ k, c.size ≤ k → ((b ++ List.replicate k 0).take c.size).length = c.size := by
    intro k hk
    rw [List.length_take, List.length_append, List.length_replicate]
    omega
  -- the first `size` bytes are those of one value, and both reads find it
  have hread : ∀ k, c.size ≤ k → c.read (b ++ List.replicate k 0) =
      ((c.read ((b ++ List.replicate c.size 0).take c.size)).1,
        (b ++ List.replicate k 0).drop c.size) := by
    intro k hk
    have hfirst : (b ++ List.replicate k 0).take c.size =
        (b ++ List.replicate c.size (0 : UInt8)).take c.size := by
      rw [List.take_append, List.take_append, List.take_replicate, List.take_replicate]
      congr 2
      omega
    conv_lhs => rw [← List.take_append_drop c.size (b ++ List.replicate k 0), hfirst,
      ← c.encode_decode (hlength c.size (Nat.le_refl _))]
    rw [c.read_write]
  rw [hread k hk, readPadded, hread c.size (Nat.le_refl _)]

/-- What follows a value is not read. -/
theorem readPadded_take (c : Codec α) (a : α) (rest : List UInt8) (n : ℕ) :
    c.readPadded ((c.write a ++ rest).take n) = c.clip n a := by
  by_cases h : n ≤ c.size
  · rw [List.take_append_of_le_length (by rwa [c.length_write]), clip]
  · have hle : c.size ≤ n := by omega
    rw [c.clip_of_le hle, List.take_append, List.take_of_length_le (by rwa [c.length_write]),
      readPadded, List.append_assoc, c.read_write]

/-- An entry of a list of which the first `n` bytes are seen. -/
theorem readPadded_entry (c : Codec α) (l : List α) (n : ℕ) {i : ℕ} (hi : i < l.length) :
    c.readPadded (((l.flatMap c.write).take n).drop (i * c.size)) = c.clip (n - i * c.size) l[i] := by
  have hbytes : (l.flatMap c.write).drop (i * c.size) =
      c.write l[i] ++ (l.drop (i + 1)).flatMap c.write := by
    have hbefore : ((l.take i).flatMap c.write).length = i * c.size := by
      rw [c.length_flatMap_write, List.length_take, Nat.min_eq_left (Nat.le_of_lt hi)]
    conv_lhs => rw [← List.take_append_drop i l, List.flatMap_append, ← hbefore, List.drop_left,
      List.drop_eq_getElem_cons hi, List.flatMap_cons]
  rw [List.drop_take, hbytes, readPadded_take]

theorem clip_seq (c : Codec α) (d : Codec β) (n : ℕ) (x : α × β) :
    (c.seq d).clip n x = (c.clip n x.1, d.clip (n - c.size) x.2) := by
  have hread : c.read (((c.seq d).write x).take n ++ List.replicate (c.seq d).size 0) = _ :=
    c.read_padded _ (Nat.le_add_right c.size d.size)
  show ((c.read _).1, (d.read (c.read _).2).1) = _
  rw [hread]
  have hfirst : c.readPadded (((c.seq d).write x).take n) = c.clip n x.1 :=
    c.readPadded_take x.1 (d.write x.2) n
  have hbehind : ((c.seq d).write x).drop c.size = d.write x.2 := by
    show (c.write x.1 ++ d.write x.2).drop c.size = d.write x.2
    rw [List.drop_append_of_le_length (by rw [c.length_write]), List.drop_of_length_le
      (by rw [c.length_write]), List.nil_append]
  have hroom : d.size ≤ (c.seq d).size - (c.size - (((c.seq d).write x).take n).length) := by
    show d.size ≤ c.size + d.size - _
    omega
  simp only [hfirst]
  rw [List.drop_append, List.drop_replicate, List.drop_take, hbehind, d.read_padded _ hroom]
  rfl

theorem clip_equiv (c : Codec α) (e : α ≃ β) (n : ℕ) (b : β) :
    (c.equiv e).clip n b = e (c.clip n (e.symm b)) := rfl

theorem cursor_padded (c : Codec α) (b : List UInt8) {k n : ℕ} (hk : k ≤ n) :
    ∃ m, (n - k) * c.size ≤ m ∧
      c.cursor k (b ++ List.replicate (n * c.size) 0) = b.drop (k * c.size) ++ List.replicate m 0 := by
  induction k with
  | zero => exact ⟨n * c.size, Nat.le_refl _, by simp [cursor]⟩
  | succ k ih =>
      obtain ⟨m, hm, hcursor⟩ := ih (by omega)
      have hroom : (n - (k + 1)) * c.size + c.size ≤ m := by
        rw [← Nat.succ_mul]
        have hsub : (n - (k + 1)).succ = n - k := by omega
        rwa [hsub]
      rw [cursor_succ', hcursor, c.read_padded _ (by omega), List.drop_append, List.drop_replicate,
        List.drop_drop, Nat.succ_mul]
      exact ⟨_, by omega, rfl⟩

theorem clip_array (c : Codec α) {n : ℕ} (k : ℕ) (f : Fin n → α) :
    (c.array n).clip k f = fun i : Fin n => c.clip (k - i * c.size) (f i) := by
  funext i
  obtain ⟨m, hm, hcursor⟩ :=
    c.cursor_padded (((List.ofFn f).flatMap c.write).take k) (Nat.le_of_lt i.isLt)
  have hsize : c.size ≤ m := by
    refine Nat.le_trans ?_ hm
    exact Nat.le_mul_of_pos_left _ (by omega)
  show (c.read (c.cursor i (((List.ofFn f).flatMap c.write).take k ++
    List.replicate (n * c.size) 0))).1 = _
  rw [hcursor, c.read_padded _ hsize, c.readPadded_entry _ _ (by rw [List.length_ofFn]; exact i.isLt),
    List.getElem_ofFn]

/-! ## Bytes and words -/

/-- One byte. -/
def byte : Codec UInt8 where
  size := 1
  write v := [v]
  read
    | [] => (0, [])
    | v :: rest => (v, rest)
  length_write _ := rfl
  read_write _ _ := rfl
  write_read b h := by
    cases b with
    | nil => simp at h
    | cons v rest => rfl

theorem byte_read_snd (b : List UInt8) : (byte.read b).2 = b.drop 1 := by
  cases b <;> rfl

theorem byte_read_fst (b : List UInt8) : (byte.read b).1 = b.getD 0 0 := by
  cases b <;> rfl

theorem byte_cursor (k : ℕ) (b : List UInt8) : byte.cursor k b = b.drop k := by
  induction k with
  | zero => rfl
  | succ k ih => rw [cursor_succ', ih, byte_read_snd, List.drop_drop]

/-- An array of bytes is written as it is. -/
theorem byte_array_write {n : ℕ} (f : Fin n → UInt8) : (byte.array n).write f = List.ofFn f := by
  show (List.ofFn f).flatMap (fun v => [v]) = List.ofFn f
  simp

/-- An array of bytes is read as it is. -/
theorem byte_array_read {n : ℕ} (b : List UInt8) :
    (byte.array n).read b = (fun i : Fin n => b.getD i 0, b.drop n) := by
  refine Prod.ext (funext fun i => ?_) (byte_cursor n b)
  show (byte.read (byte.cursor i b)).1 = b.getD i 0
  rw [byte_cursor, byte_read_fst]
  simp

/-- The digits of a word to the base 256, the most significant one first. -/
def wordBytes (v : UInt32) : List UInt8 :=
  [.ofNat (v.toNat / 2 ^ 24), .ofNat (v.toNat / 2 ^ 16), .ofNat (v.toNat / 2 ^ 8),
    .ofNat v.toNat]

/-- The word with the given digits. -/
def wordOf (b₃ b₂ b₁ b₀ : UInt8) : UInt32 :=
  .ofNat (b₃.toNat * 2 ^ 24 + b₂.toNat * 2 ^ 16 + b₁.toNat * 2 ^ 8 + b₀.toNat)

theorem wordOf_wordBytes (v : UInt32) :
    wordOf (.ofNat (v.toNat / 2 ^ 24)) (.ofNat (v.toNat / 2 ^ 16)) (.ofNat (v.toNat / 2 ^ 8))
      (.ofNat v.toNat) = v := by
  -- the digits of a number below `2 ^ 32`
  have hv := v.toNat_lt
  apply UInt32.toNat_inj.mp
  simp only [wordOf, UInt8.toNat_ofNat', UInt32.toNat_ofNat']
  omega

theorem wordBytes_wordOf (b₃ b₂ b₁ b₀ : UInt8) :
    wordBytes (wordOf b₃ b₂ b₁ b₀) = [b₃, b₂, b₁, b₀] := by
  have h₃ := b₃.toNat_lt
  have h₂ := b₂.toNat_lt
  have h₁ := b₁.toNat_lt
  have h₀ := b₀.toNat_lt
  -- four digits do not overflow the word
  have hnat : (wordOf b₃ b₂ b₁ b₀).toNat =
      b₃.toNat * 2 ^ 24 + b₂.toNat * 2 ^ 16 + b₁.toNat * 2 ^ 8 + b₀.toNat := by
    rw [wordOf, UInt32.toNat_ofNat']
    omega
  have hbyte : ∀ (n : ℕ) (b : UInt8), n % 2 ^ 8 = b.toNat → UInt8.ofNat n = b := by
    intro n b h
    apply UInt8.toNat_inj.mp
    rw [UInt8.toNat_ofNat', h]
  rw [wordBytes, hnat, hbyte _ b₃ (by omega), hbyte _ b₂ (by omega), hbyte _ b₁ (by omega),
    hbyte _ b₀ (by omega)]

/-- A 32-bit word in network byte order. -/
def word : Codec UInt32 where
  size := 4
  write := wordBytes
  read
    | b₃ :: b₂ :: b₁ :: b₀ :: rest => (wordOf b₃ b₂ b₁ b₀, rest)
    | _ => (0, [])
  length_write _ := rfl
  read_write v rest := by
    simp only [wordBytes, List.cons_append, List.nil_append, wordOf_wordBytes]
  write_read b h := by
    match b, h with
    | b₃ :: b₂ :: b₁ :: b₀ :: rest, _ =>
      simp only [wordBytes_wordOf, List.cons_append, List.nil_append]

/-- A signed word, in two's complement. -/
def signedWord : Codec Int32 :=
  word.equiv
    { toFun := UInt32.toInt32
      invFun := Int32.toUInt32
      left_inv := UInt32.toUInt32_toInt32
      right_inv := Int32.toInt32_toUInt32 }

/-! ## Host order -/

/-- A 32-bit word as a little-endian machine stores it. -/
def hostWord : Codec UInt32 where
  size := 4
  write v := (wordBytes v).reverse
  read
    | b₀ :: b₁ :: b₂ :: b₃ :: rest => (wordOf b₃ b₂ b₁ b₀, rest)
    | _ => (0, [])
  length_write _ := rfl
  read_write v rest := by
    show (wordOf _ _ _ _, rest) = (v, rest)
    rw [wordOf_wordBytes]
  write_read b h := by
    match b, h with
    | b₀ :: b₁ :: b₂ :: b₃ :: rest, _ =>
      simp only [wordBytes_wordOf]
      rfl

/-- A signed word. -/
def hostSignedWord : Codec Int32 :=
  hostWord.equiv
    { toFun := UInt32.toInt32
      invFun := Int32.toUInt32
      left_inv := UInt32.toUInt32_toInt32
      right_inv := Int32.toInt32_toUInt32 }

/-- A 64-bit word, the lower half first. -/
def hostLong : Codec UInt64 :=
  (hostWord.seq hostWord).equiv
    { toFun := fun x => .ofNat (x.1.toNat + x.2.toNat * 2 ^ 32)
      invFun := fun v => (.ofNat v.toNat, .ofNat (v.toNat / 2 ^ 32))
      left_inv := fun x => by
        have hlow := x.1.toNat_lt
        have hhigh := x.2.toNat_lt
        refine Prod.ext (UInt32.toNat_inj.mp ?_) (UInt32.toNat_inj.mp ?_)
        · simp only [UInt32.toNat_ofNat', UInt64.toNat_ofNat']
          omega
        · simp only [UInt32.toNat_ofNat', UInt64.toNat_ofNat']
          omega
      right_inv := fun v => by
        have hv := v.toNat_lt
        apply UInt64.toNat_inj.mp
        simp only [UInt32.toNat_ofNat', UInt64.toNat_ofNat']
        omega }

end Codec

end DistributedSystem.Library
