import Mathlib.Data.List.FinRange
import Mathlib.Data.List.Induction
import Mathlib.Data.Fin.Basic

/-!
# Loops

`for (i = 0; i < n; i++) if (p i) { ...; break; }` over an array of `n` entries, the
invariant rule for a loop that goes through all of them, and the rule by which a loop with
no fixed number of turns ends.
-/

namespace DistributedSystem.Library

variable {n : ℕ}

/-- The first index that satisfies `p`. -/
def firstFin (p : Fin n → Bool) : Option (Fin n) := (List.finRange n).find? p

theorem firstFin_eq_some {p : Fin n → Bool} {i : Fin n} :
    firstFin p = some i ↔ p i ∧ ∀ j < i, p j = false := by
  unfold firstFin
  rw [List.find?_eq_some_iff_getElem]
  refine and_congr_right fun _ => ?_
  constructor
  · rintro ⟨k, hk, rfl, hmin⟩ j hj
    have := hmin j (by simpa [Fin.lt_def] using hj)
    simpa using this
  · intro hmin
    refine ⟨i, by simp, by simp, fun j hj => ?_⟩
    simpa using hmin ⟨j, hj.trans i.isLt⟩ (by simpa [Fin.lt_def] using hj)

theorem firstFin_eq_none {p : Fin n → Bool} : firstFin p = none ↔ ∀ i, p i = false := by
  simp [firstFin]

/-- A match exists exactly when the search finds one. -/
theorem exists_firstFin {p : Fin n → Bool} {i : Fin n} (h : p i = true) :
    ∃ j, firstFin p = some j ∧ p j = true := by
  cases hf : firstFin p with
  | none => simp [firstFin_eq_none.mp hf i] at h
  | some j => exact ⟨j, rfl, (firstFin_eq_some.mp hf).1⟩

/-- The only match is the one the search finds. -/
theorem firstFin_eq_of_unique {p : Fin n → Bool} {i : Fin n} (h : p i = true)
    (huniq : ∀ j, p j = true → j = i) : firstFin p = some i := by
  obtain ⟨j, hj, hpj⟩ := exists_firstFin h
  rw [hj, huniq j hpj]

/-- The invariant rule for a loop over all entries. -/
theorem foldl_finRange_invariant {σ : Type*} (step : σ → Fin n → σ) {P : ℕ → σ → Prop} {s : σ}
    (hinit : P 0 s) (hstep : ∀ (i : Fin n) (s : σ), P i s → P (i + 1) (step s i)) :
    P n ((List.finRange n).foldl step s) := by
  -- the entries passed so far are a prefix of the index list
  have hprefix : ∀ k ≤ n, P k (((List.finRange n).take k).foldl step s) := by
    intro k
    induction k with
    | zero => exact fun _ => hinit
    | succ k ih =>
      intro hk
      have hlen : k < (List.finRange n).length := by
        rw [List.length_finRange]
        exact hk
      rw [List.take_succ_eq_append_getElem hlen, List.foldl_append]
      simpa using hstep ⟨k, hk⟩ _ (ih (Nat.le_of_succ_le hk))
  simpa [List.take_of_length_le] using hprefix n (Nat.le_refl n)

/-- A loop that produces something at one entry only. -/
theorem flatMap_finRange_of_unique {α : Type*} {f : Fin n → List α} {i : Fin n}
    (h : ∀ k, k ≠ i → f k = []) : (List.finRange n).flatMap f = f i := by
  -- for any list of indices that has `i` once
  have hlist : ∀ l : List (Fin n), l.Nodup → i ∈ l → l.flatMap f = f i := by
    intro l
    induction l with
    | nil => simp
    | cons k l ih =>
      intro hnodup hmem
      obtain ⟨hk, hnodup⟩ := List.nodup_cons.mp hnodup
      rw [List.flatMap_cons]
      by_cases hki : k = i
      · subst hki
        have hrest : l.flatMap f = [] := by
          refine List.flatMap_eq_nil_iff.mpr fun x hx => h x ?_
          rintro rfl
          exact hk hx
        rw [hrest, List.append_nil]
      · rw [h k hki, List.nil_append]
        exact ih hnodup ((List.mem_cons.mp hmem).resolve_left fun hik => hki hik.symm)
  exact hlist _ (List.nodup_finRange n) (List.mem_finRange i)

/-! ## Loops that end -/

/-- The state of a loop before its turn `k`; `none` when the loop has been left. -/
def loopState {σ : Type*} (turn : σ → Option σ) : ℕ → σ → Option σ
  | 0, s => some s
  | k + 1, s => (turn s).bind (loopState turn k)

/-- A loop whose every turn lowers a measure is left after at most that many turns. -/
theorem loopState_eq_none {σ : Type*} {turn : σ → Option σ} (measure : σ → ℕ)
    (hturn : ∀ s s', turn s = some s' → measure s' < measure s) {k : ℕ} {s : σ}
    (h : measure s < k) : loopState turn k s = none := by
  induction k generalizing s with
  | zero => exact absurd h (Nat.not_lt_zero _)
  | succ k ih =>
    rw [loopState]
    cases hs : turn s with
    | none => rfl
    | some s' =>
      have hlt := hturn s s' hs
      exact ih (by omega)

/-! ## Scanning a log from its end -/

section Log

variable {α : Type*}

/-- Some entry satisfies `p`, and no later one satisfies `q`. -/
def Unanswered (p q : α → Prop) (l : List α) : Prop :=
  ∃ before r after, l = before ++ r :: after ∧ p r ∧ ∀ r' ∈ after, ¬ q r'

theorem not_unanswered_nil {p q : α → Prop} : ¬ Unanswered p q [] := by
  rintro ⟨before, r, after, h, -, -⟩
  simp at h

/-- The last entry decides, unless it is neither. -/
theorem unanswered_concat {p q : α → Prop} {l : List α} {r : α} :
    Unanswered p q (l ++ [r]) ↔ p r ∨ (Unanswered p q l ∧ ¬ q r) := by
  constructor
  · rintro ⟨before, x, after, h, hp, hq⟩
    -- the unanswered element is the last one, or lies before it
    rcases List.eq_nil_or_concat' after with rfl | ⟨after, y, rfl⟩
    · obtain ⟨-, hxr⟩ := List.append_inj' h rfl
      obtain rfl : r = x := List.singleton_inj.mp hxr
      exact Or.inl hp
    · rw [← List.cons_append, ← List.append_assoc] at h
      obtain ⟨rfl, hry⟩ := List.append_inj' h rfl
      obtain rfl : r = y := List.singleton_inj.mp hry
      exact Or.inr ⟨⟨before, x, after, rfl, hp, fun r' hr' => hq r' (by simp [hr'])⟩,
        hq r (by simp)⟩
  · rintro (hp | ⟨⟨before, x, after, rfl, hp, hq⟩, hr⟩)
    · exact ⟨l, r, [], rfl, hp, by simp⟩
    · refine ⟨before, x, after ++ [r], by simp, hp, ?_⟩
      intro r' hr'
      rcases List.mem_append.mp hr' with hr' | hr'
      · exact hq r' hr'
      · rw [List.mem_singleton.mp hr']
        exact hr

/-- Where some entry satisfies `p`, there is a last one. -/
theorem unanswered_self {p : α → Prop} {l : List α} (h : ∃ r ∈ l, p r) : Unanswered p p l := by
  induction l using List.reverseRecOn with
  | nil => simp at h
  | append_singleton l r ih =>
    rw [unanswered_concat]
    by_cases hr : p r
    · exact Or.inl hr
    · obtain ⟨r', hr', hp⟩ := h
      rcases List.mem_append.mp hr' with hl | hl
      · exact Or.inr ⟨ih ⟨r', hl, hp⟩, hr⟩
      · rw [List.mem_singleton.mp hl] at hp
        exact absurd hp hr

end Log

end DistributedSystem.Library
