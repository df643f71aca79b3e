import Mathlib.Data.List.Forall2
import Mathlib.Data.List.Induction

/-!
# Lists read through a window

A list is read through a window onto its first `n` entries. The entry right behind the
window is seen clipped, since the window may end inside it, and every later entry is seen
blank. The number of entries is not cut: a reader that takes it from elsewhere goes past
the window.
-/

namespace DistributedSystem.Library

variable {α β : Type*} {n : ℕ} {clip : α → α} {blank a : α} {l : List α}

/-- The list as seen through a window onto its first `n` entries. -/
def window (n : ℕ) (clip : α → α) (blank : α) (l : List α) : List α :=
  l.mapIdx fun i a => if i < n then a else if i = n then clip a else blank

@[simp] theorem window_nil : window n clip blank [] = [] := rfl

@[simp] theorem length_window : (window n clip blank l).length = l.length := List.length_mapIdx

theorem getElem?_window (i : ℕ) :
    (window n clip blank l)[i]? =
      l[i]?.map fun a => if i < n then a else if i = n then clip a else blank :=
  List.getElem?_mapIdx

/-- Inside the window the list is seen as it is. -/
theorem window_eq_self (h : l.length ≤ n) : window n clip blank l = l := by
  apply List.ext_getElem?
  intro i
  rw [getElem?_window]
  cases hget : l[i]? with
  | none => rfl
  | some a =>
      have hi : i < l.length := (List.getElem?_eq_some_iff.mp hget).1
      rw [Option.map_some, if_pos (Nat.lt_of_lt_of_le hi h)]

/-- What is seen is an entry of the list, the clipped one or a blank. -/
theorem mem_window (h : a ∈ window n clip blank l) : a ∈ l ∨ (∃ b ∈ l, a = clip b) ∨ a = blank := by
  obtain ⟨i, hi, rfl⟩ := List.mem_mapIdx.mp h
  have hmem : l[i] ∈ l := List.getElem_mem hi
  by_cases hlt : i < n
  · rw [if_pos hlt]
    exact Or.inl hmem
  rw [if_neg hlt]
  by_cases heq : i = n
  · rw [if_pos heq]
    exact Or.inr (Or.inl ⟨l[i], hmem, rfl⟩)
  · rw [if_neg heq]
    exact Or.inr (Or.inr rfl)

/-- A longer list is seen as the same list with one more entry. -/
theorem window_concat :
    window n clip blank (l ++ [a]) = window n clip blank l ++
      [if l.length < n then a else if l.length = n then clip a else blank] :=
  List.mapIdx_concat

/-- Behind the window every further entry is seen blank. -/
theorem window_append_of_lt (h : n < l.length) (l' : List α) :
    window n clip blank (l ++ l') = window n clip blank l ++ List.replicate l'.length blank := by
  induction l' using List.reverseRecOn with
  | nil => simp
  | append_singleton l' a ih =>
      have hlen : n < (l ++ l').length := by
        rw [List.length_append]
        omega
      rw [← List.append_assoc, window_concat, ih, if_neg (by omega), if_neg (by omega),
        List.length_append, List.length_singleton, List.replicate_succ', List.append_assoc]

/-- Lists that agree entry by entry are seen to agree. -/
theorem forall₂_window {R : α → β → Prop} {clip' : β → β} {blank' : β} {l' : List β}
    (hclip : ∀ a b, R a b → R (clip a) (clip' b)) (hblank : R blank blank') (h : List.Forall₂ R l l') :
    List.Forall₂ R (window n clip blank l) (window n clip' blank' l') := by
  refine List.forall₂_iff_get.mpr ⟨by simpa using h.length_eq, fun i hi hi' => ?_⟩
  rw [length_window] at hi hi'
  have hget : R l[i] l'[i] := h.get hi hi'
  simp only [List.get_eq_getElem, window, List.getElem_mapIdx]
  by_cases hlt : i < n
  · rw [if_pos hlt, if_pos hlt]
    exact hget
  rw [if_neg hlt, if_neg hlt]
  by_cases heq : i = n
  · rw [if_pos heq, if_pos heq]
    exact hclip _ _ hget
  · rw [if_neg heq, if_neg heq]
    exact hblank

/-- A map that respects clipping and the blank acts on what is seen. -/
theorem map_window (f : α → β) (clip' : β → β) (hclip : ∀ a ∈ l, f (clip a) = clip' (f a)) :
    (window n clip blank l).map f = window n clip' (f blank) (l.map f) := by
  apply List.ext_getElem?
  intro i
  rw [List.getElem?_map, getElem?_window, getElem?_window, List.getElem?_map]
  cases hget : l[i]? with
  | none => rfl
  | some a =>
      simp only [Option.map_some]
      by_cases hlt : i < n
      · rw [if_pos hlt, if_pos hlt]
      rw [if_neg hlt, if_neg hlt]
      by_cases heq : i = n
      · rw [if_pos heq, if_pos heq, hclip a (List.mem_of_getElem? hget)]
      · rw [if_neg heq, if_neg heq]

end DistributedSystem.Library
