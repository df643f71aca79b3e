import DistributedSystem.Library.Process

/-!
# Two runs of one process

Two ways to compare runs. A symmetry maps states, inputs and effects so that handlers
commute with it, and then it maps whole runs. A relation between states on which the
handlers agree gives runs with the same effects.
-/

namespace DistributedSystem.Library

/-- The same action on a mapped input. -/
def Act.map {ι : Type*} (f : ι → ι) (a : Act ι) : Act ι := ⟨f a.input, a.cut⟩

namespace Process

variable {σ ε ι : Type*} {P : Process σ ε ι}

/-! ## Symmetries -/

/-- Maps of the states, effects and inputs of a process that commute with it. -/
structure Symmetry (P : Process σ ε ι) where
  state : σ → σ
  effect : ε → ε
  input : ι → ι
  apply : ∀ s e, P.apply (state s) (effect e) = state (P.apply s e)
  handler : ∀ s i, P.handler (state s) (input i) = (P.handler s i).map effect
  crash : ∀ i, P.crash (input i) = effect (P.crash i)

namespace Symmetry

variable (S : P.Symmetry)

theorem exec (s : σ) (es : List ε) : P.exec (S.state s) (es.map S.effect) = S.state (P.exec s es) := by
  induction es generalizing s with
  | nil => rfl
  | cons e es ih => rw [List.map_cons, exec_cons, S.apply, ih, exec_cons]

theorem performed (s : σ) (a : Act ι) :
    P.performed (S.state s) (a.map S.input) = (P.performed s a).map S.effect := by
  unfold Process.performed Act.map
  cases a.cut with
  | none => exact S.handler s a.input
  | some k => simp [S.handler, S.crash, List.map_take]

theorem step (s : σ) (a : Act ι) : P.step (S.state s) (a.map S.input) = S.state (P.step s a) := by
  unfold Process.step
  rw [S.performed, S.exec]

/-- **A symmetry maps runs to runs.** -/
theorem trace (s : σ) (as : List (Act ι)) :
    P.trace (S.state s) (as.map fun a => a.map S.input) = (P.trace s as).map S.effect := by
  induction as generalizing s with
  | nil => rfl
  | cons a as ih => simp only [List.map_cons, Process.trace, S.performed, S.step, ih, List.map_append]

end Symmetry

/-! ## States that handlers do not tell apart -/

variable {R : σ → σ → Prop} {C : σ → Act ι → Prop} {s s' : σ} {es : List ε} {as : List (Act ι)}

/-- A relation that every effect preserves holds after all of them. -/
theorem exec_related (h0 : R s s')
    (h : ∀ s s', ∀ e ∈ es, R s s' → R (P.apply s e) (P.apply s' e)) :
    R (P.exec s es) (P.exec s' es) := by
  induction es generalizing s s' with
  | nil => exact h0
  | cons e es ih =>
      exact ih (h s s' e (by simp) h0) fun s s' e' he' => h s s' e' (List.mem_cons_of_mem _ he')

theorem performed_eq {a : Act ι} (h : P.handler s' a.input = P.handler s a.input) :
    P.performed s' a = P.performed s a := by
  unfold performed
  rw [h]

/-- **Runs from related states** have the same effects. -/
theorem trace_eq (h : P.machine.Along C s as) (h0 : R s s')
    (hhandler : ∀ s s' a, R s s' → C s a → P.handler s' a.input = P.handler s a.input)
    (hstep : ∀ s s' a, R s s' → C s a →
      ∀ t t', ∀ e ∈ P.performed s a, R t t' → R (P.apply t e) (P.apply t' e)) :
    P.trace s' as = P.trace s as := by
  induction as generalizing s s' with
  | nil => rfl
  | cons a as ih =>
      have hperf := performed_eq (hhandler s s' a h0 h.1)
      have hnext : R (P.step s a) (P.step s' a) := by
        unfold step
        rw [hperf]
        exact exec_related h0 fun t t' e he ht => hstep s s' a h0 h.1 t t' e he ht
      have hrest : P.trace (P.step s' a) as = P.trace (P.step s a) as := ih h.2 hnext
      rw [trace, trace, hperf, hrest]

end Process

end DistributedSystem.Library
