import DistributedSystem.Library.Codec
import DistributedSystem.Library.Window

/-!
# Files of records behind a header

A file of a fixed-size header and of records that are appended to it. The header is changed in
place, field by field, through a mapping of the file, and the records are read through the same
mapping. It covers the first bytes of the file only; behind it the memory holds zeros, so that
the records are seen through a window.
-/

namespace DistributedSystem.Library

/-- The buffer after a store of `v` at `offset`. -/
def store (offset : ℕ) (v b : List UInt8) : List UInt8 := b.take offset ++ v ++ b.drop (offset + v.length)

theorem store_split {pre old v post : List UInt8} (h : v.length = old.length) :
    store pre.length v (pre ++ old ++ post) = pre ++ v ++ post := by
  rw [store, List.append_assoc pre, List.take_left, h, ← List.length_append, ← List.append_assoc,
    List.drop_left]

namespace Codec

variable {α β γ : Type*}

/-- A field of the values of `c`, in the format `d`, at a fixed place of the encoded value. -/
structure Field (c : Codec α) (d : Codec β) where
  offset : ℕ
  get : α → β
  set : β → α → α
  set_get : ∀ a, set (get a) a = a
  get_set : ∀ v a, get (set v a) = v
  set_set : ∀ v w a, set v (set w a) = set v a
  split : ∀ a, ∃ pre post : List UInt8, pre.length = offset ∧ ∀ v, c.write (set v a) = pre ++ d.write v ++ post

namespace Field

variable {c : Codec α} {d : Codec β} {e : Codec γ}

/-- A store at the place of the field changes the field and nothing else. -/
theorem store_write (f : Field c d) (v : β) (a : α) (rest : List UInt8) :
    store f.offset (d.write v) (c.write a ++ rest) = c.write (f.set v a) ++ rest := by
  obtain ⟨pre, post, hpre, hwrite⟩ := f.split a
  have ha : c.write a = pre ++ d.write (f.get a) ++ post := by rw [← hwrite, f.set_get]
  have hlength : (d.write v).length = (d.write (f.get a)).length := by
    rw [d.length_write, d.length_write]
  rw [ha, hwrite, ← hpre, List.append_assoc (pre ++ d.write (f.get a)), store_split hlength,
    ← List.append_assoc]

/-- The whole value. -/
def self (c : Codec α) : Field c c where
  offset := 0
  get := id
  set v _ := v
  set_get _ := rfl
  get_set _ _ := rfl
  set_set _ _ _ := rfl
  split _ := ⟨[], [], rfl, fun v => by simp⟩

/-- A field of a field. -/
def comp (f : Field c d) (g : Field d e) : Field c e where
  offset := f.offset + g.offset
  get a := g.get (f.get a)
  set v a := f.set (g.set v (f.get a)) a
  set_get a := by rw [g.set_get, f.set_get]
  get_set v a := by rw [f.get_set, g.get_set]
  set_set v w a := by rw [f.get_set, f.set_set, g.set_set]
  split a := by
    obtain ⟨pre, post, hpre, hwrite⟩ := f.split a
    obtain ⟨pre', post', hpre', hwrite'⟩ := g.split (f.get a)
    refine ⟨pre ++ pre', post' ++ post, by rw [List.length_append, hpre, hpre'], fun v => ?_⟩
    rw [hwrite, hwrite']
    simp only [List.append_assoc]

/-- The first of two values. -/
def fst (c : Codec α) (d : Codec β) : Field (c.seq d) c where
  offset := 0
  get := Prod.fst
  set v a := (v, a.2)
  set_get _ := rfl
  get_set _ _ := rfl
  set_set _ _ _ := rfl
  split a := ⟨[], d.write a.2, rfl, fun _ => rfl⟩

/-- The second of two values. -/
def snd (c : Codec α) (d : Codec β) : Field (c.seq d) d where
  offset := c.size
  get := Prod.snd
  set v a := (a.1, v)
  set_get _ := rfl
  get_set _ _ := rfl
  set_set _ _ _ := rfl
  split a := ⟨c.write a.1, [], c.length_write a.1, fun _ => (List.append_nil _).symm⟩

/-- A field in a format of the same bytes. -/
def equiv (f : Field c d) (i : α ≃ γ) : Field (c.equiv i) d where
  offset := f.offset
  get x := f.get (i.symm x)
  set v x := i (f.set v (i.symm x))
  set_get x := by rw [f.set_get, i.apply_symm_apply]
  get_set v x := by rw [i.symm_apply_apply, f.get_set]
  set_set v w x := by rw [i.symm_apply_apply, f.set_set]
  split x := by
    obtain ⟨pre, post, hpre, hwrite⟩ := f.split (i.symm x)
    refine ⟨pre, post, hpre, fun v => ?_⟩
    show c.write (i.symm (i (f.set v (i.symm x)))) = _
    rw [i.symm_apply_apply, hwrite]

/-- An entry of an array. -/
def entry (c : Codec α) {n : ℕ} (k : Fin n) : Field (c.array n) c where
  offset := k * c.size
  get a := a k
  set v a := Function.update a k v
  set_get a := Function.update_eq_self k a
  get_set v a := Function.update_self k v a
  set_set v w a := Function.update_idem w v a
  split a := by
    refine ⟨((List.ofFn a).take k).flatMap c.write, ((List.ofFn a).drop (k + 1)).flatMap c.write, ?_,
      fun v => ?_⟩
    · rw [c.length_flatMap_write, List.length_take, List.length_ofFn,
        Nat.min_eq_left (Nat.le_of_lt k.isLt)]
    · have hsplit : List.ofFn (Function.update a k v) =
          (List.ofFn a).take k ++ v :: (List.ofFn a).drop (k + 1) := by
        have hk : (k : ℕ) < (List.ofFn a).length := by simp
        rw [show (List.ofFn a).take k ++ v :: (List.ofFn a).drop (k + 1) = (List.ofFn a).set k v by
          rw [List.set_eq_take_append_cons_drop, if_pos hk]]
        refine List.ext_getElem (by simp) fun i hi hi' => ?_
        rw [List.getElem_ofFn, List.getElem_set, List.getElem_ofFn]
        by_cases hik : (k : ℕ) = i
        · subst hik
          simp
        · rw [if_neg hik, Function.update_of_ne]
          exact fun heq => hik (congrArg Fin.val heq).symm
      show (List.ofFn (Function.update a k v)).flatMap c.write = _
      rw [hsplit, List.flatMap_append, List.flatMap_cons, List.append_assoc]

end Field

end Codec

/-- A file with a header of format `h` and records of format `c`. -/
structure RecordFile {η ρ : Type*} (h : Codec η) (c : Codec ρ) where
  bytes : List UInt8
  header_le : h.size ≤ bytes.length

namespace RecordFile

variable {η ρ β : Type*} {h : Codec η} {c : Codec ρ} {d : Codec β}

/-! ## Writing -/

/-- A record at the end of the file. -/
def append (f : RecordFile h c) (r : ρ) : RecordFile h c where
  bytes := f.bytes ++ c.write r
  header_le := by
    rw [List.length_append]
    exact Nat.le_add_right_of_le f.header_le

/-- A store into a field of the header. -/
def storeField (f : RecordFile h c) (fld : Codec.Field h d) (v : β) : RecordFile h c where
  bytes := store fld.offset (d.write v) f.bytes
  header_le := by
    rw [← h.write_read f.bytes f.header_le, fld.store_write, List.length_append, h.length_write]
    exact Nat.le_add_right _ _

/-! ## Reading -/

/-- The number of records, from the length of the file. -/
def numRec (f : RecordFile h c) : ℕ := (f.bytes.length - h.size) / c.size

def header (f : RecordFile h c) : η := (h.read f.bytes).1

/-- The record at index `i`, read through a mapping of the first `page` bytes. -/
def load (f : RecordFile h c) (page i : ℕ) : ρ :=
  c.readPadded ((f.bytes.take page).drop (h.size + i * c.size))

/-- A loop that copies all records. -/
def loadAll (f : RecordFile h c) (page : ℕ) : List ρ := (List.range f.numRec).map (f.load page)

/-! ## What a file holds -/

/-- The file is the header `x` and the records `rs`. -/
def Holds (f : RecordFile h c) (x : η) (rs : List ρ) : Prop := f.bytes = h.write x ++ rs.flatMap c.write

variable {f : RecordFile h c} {x : η} {rs : List ρ}

theorem Holds.append (hf : f.Holds x rs) (r : ρ) : (f.append r).Holds x (rs ++ [r]) := by
  unfold Holds at hf ⊢
  simp only [RecordFile.append, hf, List.append_assoc, List.flatMap_append, List.flatMap_singleton]

theorem Holds.storeField (hf : f.Holds x rs) (fld : Codec.Field h d) (v : β) :
    (f.storeField fld v).Holds (fld.set v x) rs := by
  unfold Holds at hf ⊢
  rw [← fld.store_write, ← hf]
  rfl

theorem Holds.header (hf : f.Holds x rs) : f.header = x := by
  rw [RecordFile.header, hf, h.read_write]

theorem Holds.numRec (hf : f.Holds x rs) (hc : 0 < c.size) : f.numRec = rs.length := by
  rw [RecordFile.numRec, hf, List.length_append, h.length_write, c.length_flatMap_write,
    Nat.add_sub_cancel_left, Nat.mul_div_cancel _ hc]

/-- A record is read as it was appended if it lies on the page, clipped where the page ends in
    it, and blank behind the page. -/
theorem Holds.load (hf : f.Holds x rs) {page n rest i : ℕ} (hpage : page = h.size + n * c.size + rest)
    (hrest : rest < c.size) (hi : i < rs.length) :
    f.load page i = if i < n then rs[i] else if i = n then c.clip rest rs[i] else c.blank := by
  have hbytes : f.bytes.drop h.size = rs.flatMap c.write := by
    rw [hf, ← h.length_write x, List.drop_left]
  have hseen : f.load page i = c.clip (page - h.size - i * c.size) rs[i] := by
    rw [RecordFile.load, ← List.drop_drop, List.drop_take, hbytes, c.readPadded_entry]
  rw [hseen, hpage, Nat.add_assoc, Nat.add_sub_cancel_left]
  by_cases hlt : i < n
  · rw [if_pos hlt]
    have hmul : (i + 1) * c.size ≤ n * c.size := Nat.mul_le_mul_right _ hlt
    rw [Nat.succ_mul] at hmul
    exact c.clip_of_le (by omega) _
  rw [if_neg hlt]
  by_cases heq : i = n
  · subst heq
    rw [if_pos rfl, Nat.add_sub_cancel_left]
  · rw [if_neg heq]
    have hmul : (n + 1) * c.size ≤ i * c.size := Nat.mul_le_mul_right _ (by omega)
    rw [Nat.succ_mul] at hmul
    rw [Nat.sub_eq_zero_of_le (by omega), c.clip_zero]

/-- **The records are read back** through the window that the page leaves on them. -/
theorem Holds.loadAll (hf : f.Holds x rs) {page n rest : ℕ} (hpage : page = h.size + n * c.size + rest)
    (hrest : rest < c.size) : f.loadAll page = window n (c.clip rest) c.blank rs := by
  have hc : 0 < c.size := Nat.zero_lt_of_lt hrest
  rw [RecordFile.loadAll, hf.numRec hc]
  refine List.ext_getElem (by simp) fun i hi _ => ?_
  rw [List.length_map, List.length_range] at hi
  simp only [List.getElem_map, List.getElem_range, hf.load hpage hrest hi, window, List.getElem_mapIdx]

end RecordFile

end DistributedSystem.Library
