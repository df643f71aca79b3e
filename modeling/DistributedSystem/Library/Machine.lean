import Mathlib.Data.List.Basic

/-!
# Deterministic machines and conditioned runs

A machine moves by actions. A run is the list of its actions, so every run can
be evaluated, and a statement about "every run whose steps all meet `C`" is a
statement about the lists that satisfy `Along C`.
-/

namespace DistributedSystem.Library

/-- A deterministic transition system with state type `σ` and action type `α`. -/
structure Machine (σ α : Type*) where
  /-- The actions that can happen in a state. -/
  enabled : σ → α → Prop
  /-- The state after an action. -/
  next : σ → α → σ

namespace Machine

variable {σ α : Type*} (M : Machine σ α)

/-- The state after a run. -/
def after (s : σ) (as : List α) : σ := as.foldl M.next s

/-- Every step of the run, with the state before it, meets `C`. -/
def Along (C : σ → α → Prop) : σ → List α → Prop
  | _, [] => True
  | s, a :: as => C s a ∧ Along C (M.next s a) as

instance decidableAlong (C : σ → α → Prop) [∀ s a, Decidable (C s a)] :
    ∀ s as, Decidable (M.Along C s as)
  | _, [] => isTrue trivial
  | s, a :: as =>
      have := decidableAlong C (M.next s a) as
      inferInstanceAs (Decidable (C s a ∧ M.Along C (M.next s a) as))

@[simp] theorem after_nil (s : σ) : M.after s [] = s := rfl

@[simp] theorem after_cons (s : σ) (a : α) (as : List α) :
    M.after s (a :: as) = M.after (M.next s a) as := rfl

theorem after_append (s : σ) (as bs : List α) :
    M.after s (as ++ bs) = M.after (M.after s as) bs := by
  simp only [after, List.foldl_append]

variable {M} {C D : σ → α → Prop} {s : σ} {as bs : List α} {a : α}

@[simp] theorem along_nil : M.Along C s [] := trivial

@[simp] theorem along_cons :
    M.Along C s (a :: as) ↔ C s a ∧ M.Along C (M.next s a) as := Iff.rfl

theorem along_append :
    M.Along C s (as ++ bs) ↔ M.Along C s as ∧ M.Along C (M.after s as) bs := by
  induction as generalizing s with
  | nil => simp
  | cons a as ih => simp only [List.cons_append, along_cons, after_cons, ih, and_assoc]

theorem along_concat :
    M.Along C s (as ++ [a]) ↔ M.Along C s as ∧ C (M.after s as) a := by
  rw [along_append]
  simp

/-- A condition along a run is a condition on the last step of every prefix. -/
theorem along_iff_forall_prefix :
    M.Along C s as ↔ ∀ bs a, bs ++ [a] <+: as → C (M.after s bs) a := by
  constructor
  · rintro h bs a ⟨cs, rfl⟩
    exact (along_concat.mp (along_append.mp h).1).2
  · intro h
    induction as generalizing s with
    | nil => trivial
    | cons a as ih =>
        refine ⟨h [] a ⟨as, rfl⟩, ih fun bs b hbs => ?_⟩
        exact h (a :: bs) b (by simpa using hbs)

/-- A condition on the actions alone. -/
theorem along_of_forall_mem {D : α → Prop} (h : ∀ a ∈ as, D a) : M.Along (fun _ a => D a) s as := by
  induction as generalizing s with
  | nil => trivial
  | cons a as ih =>
      exact ⟨h a List.mem_cons_self, ih fun b hb => h b (List.mem_cons_of_mem _ hb)⟩

/-- A run that meets a condition meets every weaker one. -/
theorem Along.mono (h : M.Along C s as) (hCD : ∀ s a, C s a → D s a) : M.Along D s as := by
  induction as generalizing s with
  | nil => trivial
  | cons a as ih => exact ⟨hCD s a h.1, ih h.2⟩

theorem along_and :
    M.Along (fun s a => C s a ∧ D s a) s as ↔ M.Along C s as ∧ M.Along D s as := by
  induction as generalizing s with
  | nil => simp
  | cons a as ih =>
      simp only [along_cons, ih]
      tauto

/-- Conditions that agree along a run are met by it together. -/
theorem along_congr (h : M.Along (fun s a => C s a ↔ D s a) s as) :
    M.Along C s as ↔ M.Along D s as := by
  induction as generalizing s with
  | nil => rfl
  | cons a as ih => exact and_congr h.1 (ih h.2)

/-- Two conditions are met by the same runs when they agree in every state of an invariant that
    steps with the first condition preserve. -/
theorem along_congr_of_invariant {E : σ → α → Prop} {I : σ → Prop} (hrun : M.Along E s as)
    (h0 : I s) (hCD : ∀ s a, I s → E s a → (C s a ↔ D s a))
    (hstep : ∀ s a, I s → E s a → C s a → I (M.next s a)) : M.Along C s as ↔ M.Along D s as := by
  induction as generalizing s with
  | nil => rfl
  | cons a as ih =>
      simp only [along_cons, ← hCD s a h0 hrun.1]
      exact and_congr_right fun hC => ih hrun.2 (hstep s a h0 hrun.1 hC)

/-- **Invariant rule**: what holds at the start and is preserved by every step that
    meets `C` holds after every run along `C`. -/
theorem Along.invariant {I : σ → Prop} (h : M.Along C s as) (h0 : I s)
    (hstep : ∀ s a, I s → C s a → I (M.next s a)) : I (M.after s as) := by
  induction as generalizing s with
  | nil => exact h0
  | cons a as ih => exact ih h.2 (hstep s a h0 h.1)

/-- **Invariant rule with a history**: the invariant may also speak of the steps so far. -/
theorem Along.invariant_history {I : List α → σ → Prop} (h : M.Along C s as) (h0 : I bs s)
    (hstep : ∀ bs s a, I bs s → C s a → I (bs ++ [a]) (M.next s a)) :
    I (bs ++ as) (M.after s as) := by
  induction as generalizing s bs with
  | nil =>
      rw [List.append_nil]
      exact h0
  | cons a as ih =>
      have hnext := ih h.2 (hstep bs s a h0 h.1)
      rw [List.append_assoc] at hnext
      exact hnext

/-- A run along `C` from a state of an invariant also satisfies, step by step, what
    the invariant and `C` give together. -/
theorem Along.strengthen {I : σ → Prop} (h : M.Along C s as) (h0 : I s)
    (hstep : ∀ s a, I s → C s a → I (M.next s a))
    (hD : ∀ s a, I s → C s a → D s a) : M.Along D s as := by
  induction as generalizing s with
  | nil => trivial
  | cons a as ih => exact ⟨hD s a h0 h.1, ih h.2 (hstep s a h0 h.1)⟩

/-! ## Runs that break a condition -/

/-- Some run along `C` does not meet `D`. -/
def CanBreak (M : Machine σ α) (C D : σ → α → Prop) (s : σ) : Prop :=
  ∃ as, M.Along C s as ∧ ¬ M.Along D s as

theorem CanBreak.here (hC : C s a) (hD : ¬ D s a) : M.CanBreak C D s :=
  ⟨[a], ⟨hC, trivial⟩, fun h => hD h.1⟩

theorem CanBreak.of_run (as : List α) (has : M.Along C s as) (h : M.CanBreak C D (M.after s as)) :
    M.CanBreak C D s := by
  obtain ⟨bs, hbs, hno⟩ := h
  exact ⟨as ++ bs, along_append.mpr ⟨has, hbs⟩, fun hall => hno (along_append.mp hall).2⟩

theorem CanBreak.of_step (a : α) (ha : C s a) (h : M.CanBreak C D (M.next s a)) :
    M.CanBreak C D s := .of_run [a] ⟨ha, trivial⟩ h

/-! ## Ghosts -/

/-- The machine with a ghost that watches its steps. -/
def watch {γ : Type*} (M : Machine σ α) (upd : σ → α → γ → γ) : Machine (σ × γ) α where
  enabled x := M.enabled x.1
  next x a := (M.next x.1 a, upd x.1 a x.2)

variable {γ : Type*} {upd : σ → α → γ → γ} {g : γ}

/-- The ghost does not influence the machine. -/
theorem watch_after_fst (as : List α) : ((M.watch upd).after (s, g) as).1 = M.after s as := by
  induction as generalizing s g with
  | nil => rfl
  | cons a as ih => exact ih

theorem along_watch :
    (M.watch upd).Along (fun x a => C x.1 a) (s, g) as ↔ M.Along C s as := by
  induction as generalizing s g with
  | nil => rfl
  | cons a as ih => exact and_congr_right fun _ => ih

/-! ## Potentials -/

/-- The number of steps that meet `P`. -/
def count (M : Machine σ α) (P : σ → α → Prop) [∀ s a, Decidable (P s a)] : σ → List α → ℕ
  | _, [] => 0
  | s, a :: as => (if P s a then 1 else 0) + count M P (M.next s a) as

variable {P : σ → α → Prop} [∀ s a, Decidable (P s a)]

/-- **Potential rule**: a quantity that no step raises, and that every step meeting `P` lowers,
    bounds how often `P` is met. -/
theorem Along.count_add_le {I : σ → Prop} (φ : σ → ℕ) (h : M.Along C s as) (h0 : I s)
    (hstep : ∀ s a, I s → C s a → I (M.next s a))
    (hle : ∀ s a, I s → C s a → φ (M.next s a) ≤ φ s)
    (hlt : ∀ s a, I s → C s a → P s a → φ (M.next s a) < φ s) :
    M.count P s as + φ (M.after s as) ≤ φ s := by
  induction as generalizing s with
  | nil => simp [count]
  | cons a as ih =>
      have hrest := ih h.2 (hstep s a h0 h.1)
      rw [after_cons, count]
      by_cases hP : P s a
      · have hdrop := hlt s a h0 h.1 hP
        rw [if_pos hP]
        omega
      · have hkeep := hle s a h0 h.1
        rw [if_neg hP]
        omega

theorem count_eq_length (h : M.Along P s as) : M.count P s as = as.length := by
  induction as generalizing s with
  | nil => rfl
  | cons a as ih =>
      rw [count, if_pos h.1, ih h.2, List.length_cons]
      omega

/-! ## Reaching a state -/

/-- `s'` is reached from `s` along `C`, in at most `k` steps. -/
def Reaches (M : Machine σ α) (C : σ → α → Prop) (k : ℕ) (s s' : σ) : Prop :=
  ∃ as, as.length ≤ k ∧ M.Along C s as ∧ M.after s as = s'

variable {k l : ℕ} {s' s'' : σ}

theorem Reaches.refl : M.Reaches C 0 s s := ⟨[], Nat.le_refl _, trivial, rfl⟩

theorem Reaches.step (h : C s a) : M.Reaches C 1 s (M.next s a) := ⟨[a], Nat.le_refl _, ⟨h, trivial⟩, rfl⟩

theorem Reaches.trans (h : M.Reaches C k s s') (h' : M.Reaches C l s' s'') :
    M.Reaches C (k + l) s s'' := by
  obtain ⟨as, hk, has, rfl⟩ := h
  obtain ⟨bs, hl, hbs, rfl⟩ := h'
  refine ⟨as ++ bs, ?_, along_append.mpr ⟨has, hbs⟩, after_append _ _ _ _⟩
  rw [List.length_append]
  exact Nat.add_le_add hk hl

theorem Reaches.mono (h : M.Reaches C k s s') (hkl : k ≤ l) : M.Reaches C l s s' := by
  obtain ⟨as, hk, has⟩ := h
  exact ⟨as, Nat.le_trans hk hkl, has⟩

/-- **Descent rule**: where some step lowers a quantity unless it is 0, it reaches 0. -/
theorem exists_reaches_zero {I : σ → Prop} (φ : σ → ℕ) (h0 : I s)
    (hstep : ∀ s, I s → φ s ≠ 0 → ∃ a, C s a ∧ I (M.next s a) ∧ φ (M.next s a) < φ s) :
    ∃ s', M.Reaches C (φ s) s s' ∧ I s' ∧ φ s' = 0 := by
  induction hk : φ s using Nat.strongRecOn generalizing s with
  | ind k ih =>
      by_cases hzero : φ s = 0
      · exact ⟨s, Reaches.refl.mono (Nat.zero_le _), h0, hzero⟩
      · obtain ⟨a, ha, hnext, hlt⟩ := hstep s h0 hzero
        obtain ⟨s', hreach, hs', hend⟩ := ih _ (hk ▸ hlt) hnext rfl
        exact ⟨s', ((Reaches.step ha).trans hreach).mono (by omega), hs', hend⟩

/-! ## Simulations -/

/-- `M'` moves like `M` for `L` steps: its state is an image of that of `M`, and each of its
    actions stands for one of `M`. `Inv k` is what holds after `k` steps of `M`. -/
structure Simulation {σ' α' : Type*} (M : Machine σ α) (M' : Machine σ' α') (L : ℕ) where
  state : σ → σ'
  act : α' → α
  Inv : ℕ → σ → Prop
  inv_next : ∀ {k s} a, k < L → Inv k s → Inv (k + 1) (M.next s (act a))
  next_eq : ∀ {k s} a, k < L → Inv k s → M'.next (state s) a = state (M.next s (act a))
  enabled_iff : ∀ {k s} a, k < L → Inv k s → (M'.enabled (state s) a ↔ M.enabled s (act a))

namespace Simulation

variable {σ' α' : Type*} {M : Machine σ α} {M' : Machine σ' α'} {L : ℕ} {as : List α'}

/-- A run of `M'` ends in the image of the state in which the run of `M` ends. -/
theorem after (S : Simulation M M' L) (h0 : S.Inv k s) (hlen : k + as.length ≤ L) :
    M'.after (S.state s) as = S.state (M.after s (as.map S.act)) ∧
      S.Inv (k + as.length) (M.after s (as.map S.act)) := by
  induction as generalizing k s with
  | nil => exact ⟨rfl, h0⟩
  | cons a as ih =>
      rw [List.length_cons] at hlen
      have hlt : k < L := by omega
      have hrest := ih (S.inv_next a hlt h0) (by omega)
      rw [← S.next_eq a hlt h0] at hrest
      rw [List.length_cons, show k + (as.length + 1) = k + 1 + as.length by omega]
      exact hrest

/-- A run is possible in `M'` exactly when it is possible in `M`. -/
theorem along_enabled (S : Simulation M M' L) (h0 : S.Inv k s) (hlen : k + as.length ≤ L) :
    M'.Along M'.enabled (S.state s) as ↔ M.Along M.enabled s (as.map S.act) := by
  induction as generalizing k s with
  | nil => rfl
  | cons a as ih =>
      rw [List.length_cons] at hlen
      have hlt : k < L := by omega
      have hrest := ih (S.inv_next a hlt h0) (by omega)
      rw [← S.next_eq a hlt h0] at hrest
      exact and_congr (S.enabled_iff a hlt h0) hrest

end Simulation

end Machine

end DistributedSystem.Library
