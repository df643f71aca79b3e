import Mathlib.Data.List.Basic

/-!
# Undo logs with before-images

A variable with current value `cur` is written in place. Before a write its value may be
appended to a log; `image r` is the value that record `r` holds for the variable, if it
holds one. Reading the log backwards and assigning every image leaves the oldest image,
or `cur` when there is none.
-/

namespace DistributedSystem.Library

variable {ρ β : Type*} {image : ρ → Option β} {log log' : List ρ} {base cur v : β} {r : ρ}

/-- The value of the variable after the log has been read back. -/
def restored (image : ρ → Option β) (log : List ρ) (cur : β) : β := (log.findSome? image).getD cur

/-- The log brings the variable back to `base`. -/
def Guards (image : ρ → Option β) (log : List ρ) (base cur : β) : Prop :=
  restored image log cur = base

@[simp] theorem restored_nil : restored image [] cur = cur := rfl

theorem restored_cons : restored image (r :: log) cur = (image r).getD (restored image log cur) := by
  unfold restored
  rw [List.findSome?_cons]
  cases image r with
  | none => rfl
  | some v => rfl

theorem restored_append :
    restored image (log ++ log') cur = restored image log (restored image log' cur) := by
  induction log with
  | nil => rfl
  | cons r log ih => rw [List.cons_append, restored_cons, ih, restored_cons]

/-- Without an image nothing is restored. -/
theorem restored_of_none (h : ∀ r ∈ log, image r = none) : restored image log cur = cur := by
  unfold restored
  rw [List.findSome?_eq_none_iff.mpr h]
  rfl

/-- With an image the current value does not matter. -/
theorem restored_of_some (hr : r ∈ log) (hv : image r ≠ none) :
    restored image log cur = restored image log v := by
  unfold restored
  cases hfind : log.findSome? image with
  | none => exact absurd (List.findSome?_eq_none_iff.mp hfind r hr) hv
  | some w => rfl

/-- What is restored is the current value or an image. -/
theorem restored_cases :
    restored image log cur = cur ∨ ∃ r ∈ log, image r = some (restored image log cur) := by
  unfold restored
  cases hfind : log.findSome? image with
  | none => exact Or.inl rfl
  | some w =>
      obtain ⟨r, hr, himage⟩ := List.exists_of_findSome?_eq_some hfind
      exact Or.inr ⟨r, hr, himage⟩

theorem Guards.nil : Guards image [] base base := rfl

/-- A record without an image, or with the current value, can be appended. -/
theorem Guards.concat (h : Guards image log base cur) (hr : image r = none ∨ image r = some cur) :
    Guards image (log ++ [r]) base cur := by
  unfold Guards
  rw [restored_append, restored_cons, restored_nil]
  rcases hr with hr | hr
  · rw [hr]
    exact h
  · rw [hr]
    exact h

/-- Once the log has an image, the variable can be written. -/
theorem Guards.write (h : Guards image log base cur) (hr : r ∈ log) (hv : image r ≠ none) (v : β) :
    Guards image log base v :=
  (restored_of_some hr hv).trans h

/-- Reading back only the newer part of the log keeps the older part in force, so that a
    rollback that stops half-way can be repeated. -/
theorem Guards.restore (h : Guards image (log ++ log') base cur) :
    Guards image (log ++ log') base (restored image log' cur) := by
  by_cases hsome : ∃ r ∈ log', image r ≠ none
  · obtain ⟨r, hr, hv⟩ := hsome
    exact h.write (List.mem_append_right _ hr) hv _
  · have hnone : ∀ r ∈ log', image r = none := by
      intro r hr
      by_contra hne
      exact hsome ⟨r, hr, hne⟩
    rw [restored_of_none hnone]
    exact h

end DistributedSystem.Library
