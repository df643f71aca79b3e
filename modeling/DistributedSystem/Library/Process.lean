import DistributedSystem.Library.Machine

/-!
# Processes with atomic effects and crashes

A process answers an input with a list of atomic effects, computed from the state
in which the input arrives. It may die between any two of them. An action is
therefore an input and, when the process dies while handling it, the number of
effects performed before that.

Invariants are proved in two layers: `Throughout` speaks about the states between
the effects of one handler, `step_invariant` turns it into a fact about steps,
crashed or complete, and `Machine.Along.invariant` carries it along a run.
-/

namespace DistributedSystem.Library

/-- A process over states `σ` with atomic effects `ε`, driven by inputs `ι`. -/
structure Process (σ ε ι : Type*) where
  /-- The state after one effect. -/
  apply : σ → ε → σ
  /-- The effects performed for an input, in order. -/
  handler : σ → ι → List ε
  /-- What a crash while handling an input does. -/
  crash : ι → ε
  /-- The inputs that can arrive in a state. -/
  accepts : σ → ι → Prop

/-- An input together with the place where its handling is cut off, if it is. -/
structure Act (ι : Type*) where
  input : ι
  cut : Option ℕ := none
  deriving DecidableEq, Repr

namespace Process

variable {σ ε ι γ : Type*} (P : Process σ ε ι)

/-- The state after a list of effects. -/
def exec (s : σ) (es : List ε) : σ := es.foldl P.apply s

/-- The effects an action performs; a cut one ends in the crash. -/
def performed (s : σ) (a : Act ι) : List ε :=
  match a.cut with
  | none => P.handler s a.input
  | some k => (P.handler s a.input).take k ++ [P.crash a.input]

/-- The state after an action. -/
def step (s : σ) (a : Act ι) : σ := P.exec s (P.performed s a)

/-- The runs of a process, with crashes anywhere. -/
def machine : Machine σ (Act ι) where
  enabled s a := P.accepts s a.input
  next := P.step

/-- The runs of a process that handles every input to its end. -/
def atomic : Machine σ ι where
  enabled := P.accepts
  next s i := P.exec s (P.handler s i)

/-- All effects of a run, in order. -/
def trace : σ → List (Act ι) → List ε
  | _, [] => []
  | s, a :: as => P.performed s a ++ trace (P.step s a) as

/-- The process with a ghost that watches its effects. -/
def instrument (upd : σ → γ → ε → γ) : Process (σ × γ) ε ι where
  apply s e := (P.apply s.1 e, upd s.1 s.2 e)
  handler s := P.handler s.1
  crash := P.crash
  accepts s := P.accepts s.1

/-- `I` holds before, between and after the effects. -/
def Throughout (I : σ → Prop) : σ → List ε → Prop
  | s, [] => I s
  | s, e :: es => I s ∧ Throughout I (P.apply s e) es

/-! ## Effects in sequence -/

@[simp] theorem exec_nil (s : σ) : P.exec s [] = s := rfl

@[simp] theorem exec_cons (s : σ) (e : ε) (es : List ε) :
    P.exec s (e :: es) = P.exec (P.apply s e) es := rfl

@[simp] theorem exec_append (s : σ) (es fs : List ε) :
    P.exec s (es ++ fs) = P.exec (P.exec s es) fs := by
  simp only [exec, List.foldl_append]

@[simp] theorem machine_next (s : σ) (a : Act ι) : P.machine.next s a = P.step s a := rfl

/-- A run is the sequence of its effects. -/
theorem exec_trace (s : σ) (as : List (Act ι)) : P.exec s (P.trace s as) = P.machine.after s as := by
  induction as generalizing s with
  | nil => rfl
  | cons a as ih =>
      rw [trace, exec_append, Machine.after_cons, machine_next, ← ih]
      rfl

variable {P} {I J : σ → Prop} {s : σ} {es fs : List ε}

/-- A property that every effect preserves holds after all of them. -/
theorem exec_invariant (h0 : I s) (h : ∀ s, ∀ e ∈ es, I s → I (P.apply s e)) :
    I (P.exec s es) := by
  induction es generalizing s with
  | nil => exact h0
  | cons e es ih =>
      refine ih (h s e (by simp) h0) fun s' e' he' => h s' e' (by simp [he'])

/-- A quantity that no effect changes is the same after all of them. -/
theorem exec_unchanged {β : Type*} (f : σ → β) (h : ∀ s, ∀ e ∈ es, f (P.apply s e) = f s) :
    f (P.exec s es) = f s :=
  exec_invariant (I := fun s' => f s' = f s) rfl fun s' e he hs' => (h s' e he).trans hs'

/-! ## Between the effects -/

theorem throughout_append :
    P.Throughout I s (es ++ fs) ↔ P.Throughout I s es ∧ P.Throughout I (P.exec s es) fs := by
  induction es generalizing s with
  | nil =>
      refine ⟨fun h => ⟨?_, h⟩, fun h => h.2⟩
      cases fs with
      | nil => exact h
      | cons f fs => exact h.1
  | cons e es ih => simp only [List.cons_append, Throughout, exec_cons, ih, and_assoc]

theorem Throughout.first (h : P.Throughout I s es) : I s := by
  cases es with
  | nil => exact h
  | cons e es => exact h.1

theorem Throughout.last (h : P.Throughout I s es) : I (P.exec s es) := by
  induction es generalizing s with
  | nil => exact h
  | cons e es ih => exact ih h.2

theorem Throughout.take (h : P.Throughout I s es) (k : ℕ) : P.Throughout I s (es.take k) := by
  rw [← List.take_append_drop k es] at h
  exact (throughout_append.mp h).1

theorem Throughout.mono (h : P.Throughout I s es) (hIJ : ∀ s, I s → J s) :
    P.Throughout J s es := by
  induction es generalizing s with
  | nil => exact hIJ _ h
  | cons e es ih => exact ⟨hIJ _ h.1, ih h.2⟩

/-- What every effect of the list preserves holds throughout it. -/
theorem throughout_of_preserved (h0 : I s) (h : ∀ s, ∀ e ∈ es, I s → I (P.apply s e)) :
    P.Throughout I s es := by
  induction es generalizing s with
  | nil => exact h0
  | cons e es ih =>
      exact ⟨h0, ih (h s e (by simp) h0) fun s' e' he' => h s' e' (by simp [he'])⟩

/-- **Step rule**: `I` throughout the handler, a crash from `I` and the completed
    handler all lead to `J`. -/
theorem step_invariant {a : Act ι} (hmid : P.Throughout I s (P.handler s a.input))
    (hend : J (P.exec s (P.handler s a.input)))
    (hcrash : ∀ s, I s → J (P.apply s (P.crash a.input))) : J (P.step s a) := by
  unfold step performed
  split
  · exact hend
  · rename_i k _
    rw [exec_append]
    exact hcrash _ (hmid.take k).last

/-- The effects of a step are effects of the handler, or the crash. -/
theorem mem_performed {a : Act ι} {e : ε} (h : e ∈ P.performed s a) :
    e ∈ P.handler s a.input ∨ e = P.crash a.input := by
  unfold performed at h
  split at h
  · exact Or.inl h
  · rcases List.mem_append.mp h with h | h
    · exact Or.inl (List.mem_of_mem_take h)
    · exact Or.inr (List.mem_singleton.mp h)

/-- A property that each effect of the handler and the crash preserve is preserved by
    the step. -/
theorem step_preserved {a : Act ι} (h0 : I s)
    (h : ∀ s', ∀ e ∈ P.handler s a.input, I s' → I (P.apply s' e))
    (hcrash : ∀ s, I s → I (P.apply s (P.crash a.input))) : I (P.step s a) := by
  refine exec_invariant h0 fun s' e he hI => ?_
  rcases mem_performed he with he | rfl
  · exact h s' e he hI
  · exact hcrash s' hI

/-! ## Ghost instrumentation -/

variable (upd : σ → γ → ε → γ)

theorem instrument_exec_fst (s : σ) (g : γ) (es : List ε) :
    ((P.instrument upd).exec (s, g) es).1 = P.exec s es := by
  induction es generalizing s g with
  | nil => rfl
  | cons e es ih => simp only [exec_cons]; exact ih _ _

/-- Watching less: a ghost that is a function of another ghost. -/
theorem instrument_exec_map {δ : Type*} {upd' : σ → δ → ε → δ} {π : γ → δ}
    (h : ∀ s g e, π (upd s g e) = upd' s (π g) e) (s : σ) (g : γ) (es : List ε) :
    (P.instrument upd').exec (s, π g) es =
      (((P.instrument upd).exec (s, g) es).1, π ((P.instrument upd).exec (s, g) es).2) := by
  induction es generalizing s g with
  | nil => rfl
  | cons e es ih =>
      have happly : (P.instrument upd').apply (s, π g) e =
          (P.apply s e, π (upd s g e)) := congrArg (P.apply s e, ·) (h s g e).symm
      rw [exec_cons, happly, ih]
      rfl

theorem instrument_step_map {δ : Type*} {upd' : σ → δ → ε → δ} {π : γ → δ}
    (h : ∀ s g e, π (upd s g e) = upd' s (π g) e) (s : σ) (g : γ) (a : Act ι) :
    (P.instrument upd').step (s, π g) a =
      (((P.instrument upd).step (s, g) a).1, π ((P.instrument upd).step (s, g) a).2) :=
  instrument_exec_map upd h s g _

end Process

end DistributedSystem.Library
