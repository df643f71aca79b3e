import DistributedSystem.Library.Machine
import Mathlib.Algebra.Group.Nat.Defs
import Mathlib.Data.List.Count

/-!
# The count of clients

`mtserver.c`: the loop of `main` and `ThreadMain`, interleaved. The atomic steps are those
between which another thread can run: a connection is accepted and checked, its thread is
created, and the count is raised under the lock; a thread answers `load`, closes its socket,
and lowers the count under the lock.

A client is served until its thread closes the socket. The thread may run before `main` has
counted it, and stays counted for a while after the socket is closed.
-/

namespace DistributedSystem.CommandServer

open DistributedSystem.Library

/-- Where `main` is. -/
inductive MainAt where
  /-- in `AcceptTCPConnection` -/
  | accepting
  /-- behind the check of `numThread`, before `pthread_create` -/
  | creating
  /-- behind `pthread_create`, before `numThread++` -/
  | counting
  /-- `DieWithError` -/
  | exited
  deriving DecidableEq, Repr

/-- Where a thread is. -/
inductive ThreadAt where
  /-- in `HandleTCPClient` -/
  | serving
  /-- behind `close`, before `numThread--` -/
  | closed
  | finished
  deriving DecidableEq, Repr

/-- The server: `numThread`, the main thread, and all threads it has created. -/
structure Clients where
  numThread : ℕ := 0
  main : MainAt := .accepting
  threads : List ThreadAt := []
  deriving DecidableEq, Repr

/-- The atomic steps; a thread is named by its place in the list. -/
inductive ClientAct where
  /-- a connection is accepted, and `numThread < max` evaluated -/
  | accept
  /-- `pthread_create` -/
  | create
  /-- `numThread++` -/
  | increment
  /-- a call of `main` fails -/
  | die
  /-- a `load` request is answered -/
  | load (i : ℕ)
  /-- `HandleTCPClient` has returned, and the socket is closed -/
  | close (i : ℕ)
  /-- `numThread--` -/
  | decrement (i : ℕ)
  deriving DecidableEq, Repr

namespace Clients

/-- `numThread` has 32 bits. -/
def wrap (n : ℕ) : ℕ := n % 2 ^ 32

/-- `numThread--` -/
def below (n : ℕ) : ℕ := if n = 0 then 2 ^ 32 - 1 else n - 1

/-- The steps that can be taken. -/
def enabled (s : Clients) : ClientAct → Prop
  | .accept => s.main = .accepting
  | .create => s.main = .creating
  | .increment => s.main = .counting
  | .die => s.main = .accepting ∨ s.main = .creating
  | .load i | .close i => s.main ≠ .exited ∧ s.threads[i]? = some .serving
  | .decrement i => s.main ≠ .exited ∧ s.threads[i]? = some .closed

instance (s : Clients) : ∀ a, Decidable (s.enabled a)
  | .accept | .create | .increment => inferInstanceAs (Decidable (_ = _))
  | .die => inferInstanceAs (Decidable (_ ∨ _))
  | .load _ | .close _ | .decrement _ => inferInstanceAs (Decidable (_ ∧ _))

/-- The state after a step. `max` is an `int`, compared as `uint32_t`. -/
def next (max : ℕ) (s : Clients) : ClientAct → Clients
  | .accept => { s with main := if s.numThread < wrap max then .creating else .accepting }
  | .create => { s with main := .counting, threads := s.threads ++ [.serving] }
  | .increment => { s with numThread := wrap (s.numThread + 1), main := .accepting }
  | .die => { s with main := .exited }
  | .load _ => s
  | .close i => { s with threads := s.threads.set i .closed }
  | .decrement i =>
      { s with numThread := below s.numThread, threads := s.threads.set i .finished }

/-- The interleavings of `main` and the threads. -/
def machine (max : ℕ) : Machine Clients ClientAct where
  enabled := enabled
  next := next max

/-- `loadResponce` -/
def loadResponce (s : Clients) : ℕ := s.numThread

/-! ## What is counted -/

/-- The clients being served. -/
def served (s : Clients) : ℕ := s.threads.count .serving

/-- The threads that have closed their socket and are still counted. -/
def leaving (s : Clients) : ℕ := s.threads.count .closed

/-- The threads that `main` has created and not counted yet. -/
def uncounted (s : Clients) : ℕ := if s.main = .counting then 1 else 0

/-- The count is right at a step: at most `max` clients are served, a `load` reply is between
    1 and their number, and the count is not lowered below 0. -/
def Exact (max : ℕ) (s : Clients) (a : ClientAct) : Prop :=
  s.served ≤ max ∧ (s.next max a).served ≤ max ∧
    match a with
    | .load _ => 1 ≤ s.loadResponce ∧ s.loadResponce ≤ s.served
    | .decrement _ => s.numThread ≠ 0
    | _ => True

/-- No thread overtakes its own count: one that answers `load` or leaves is not the only one
    and uncounted, and at a `load` those that are leaving do not outnumber the uncounted. -/
def InStep (s : Clients) : ClientAct → Prop
  | .load _ => s.uncounted < s.served + s.leaving ∧ s.leaving ≤ s.uncounted
  | .decrement _ => s.uncounted < s.served + s.leaving
  | _ => True

instance (max : ℕ) (s : Clients) : ∀ a, Decidable (s.Exact max a)
  | .load _ => inferInstanceAs (Decidable (_ ∧ _ ∧ _ ∧ _))
  | .decrement _ => inferInstanceAs (Decidable (_ ∧ _ ∧ _ ≠ _))
  | .accept | .create | .increment | .die | .close _ => inferInstanceAs (Decidable (_ ∧ _ ∧ True))

instance (s : Clients) : ∀ a, Decidable (s.InStep a)
  | .load _ => inferInstanceAs (Decidable (_ ∧ _))
  | .decrement _ => inferInstanceAs (Decidable (_ < _))
  | .accept | .create | .increment | .die | .close _ => isTrue trivial

/-! ## The invariant -/

/-- Up to the wrap of 32 bits, `numThread` counts the threads that have not left, but for the
    uncounted one; and there is room for the thread that is being created. -/
structure Counted (max : ℕ) (s : Clients) : Prop where
  wrapped : s.numThread < 2 ^ 32
  count : wrap (s.numThread + s.uncounted) = s.served + s.leaving
  bound : s.served + s.leaving ≤ wrap max
  room : s.main = .creating → s.served + s.leaving < wrap max

variable {max i : ℕ} {s : Clients} {a : ClientAct} {as : List ClientAct} {t t' : ThreadAt}

/-- A thread moves from one place to another. -/
theorem count_set (t' : ThreadAt) (hi : s.threads[i]? = some t) (ht : t ≠ t') :
    (s.threads.set i t').count t + 1 = s.threads.count t ∧
      (s.threads.set i t').count t' = s.threads.count t' + 1 ∧
      ∀ u, u ≠ t → u ≠ t' → (s.threads.set i t').count u = s.threads.count u := by
  obtain ⟨hlt, hget⟩ := List.getElem?_eq_some_iff.mp hi
  have hpos : 0 < s.threads.count t := List.count_pos_iff.mpr (hget ▸ List.getElem_mem hlt)
  refine ⟨?_, ?_, fun u hut hut' => ?_⟩
  · rw [List.count_set hlt, hget]
    simp [ht.symm]
    omega
  · rw [List.count_set hlt, hget]
    simp [ht]
  · rw [List.count_set hlt, hget]
    simp [hut.symm, hut'.symm]

theorem counted_start (max : ℕ) : Counted max {} where
  wrapped := by decide
  count := rfl
  bound := Nat.zero_le _
  room h := by cases h

theorem uncounted_of_ne (h : s.main ≠ .counting) : s.uncounted = 0 := if_neg h

theorem uncounted_of_counting (h : s.main = .counting) : s.uncounted = 1 := if_pos h

theorem Counted.accept (h : Counted max s) (hmain : s.main = .accepting) :
    Counted max (s.next max .accept) := by
  have hcount := h.count
  rw [uncounted_of_ne (by simp [hmain])] at hcount
  by_cases hlt : s.numThread < wrap max
  · -- everything is counted, so the check compares the threads with max
    have hnext : s.next max .accept = { s with main := .creating } := by simp [Clients.next, hlt]
    rw [hnext]
    refine ⟨h.wrapped, hcount, h.bound, fun _ => ?_⟩
    rw [wrap, Nat.add_zero, Nat.mod_eq_of_lt h.wrapped] at hcount
    exact hcount ▸ hlt
  · have hnext : s.next max .accept = { s with main := .accepting } := by simp [Clients.next, hlt]
    rw [hnext]
    exact ⟨h.wrapped, hcount, h.bound, fun h => by cases h⟩

theorem Counted.create (h : Counted max s) (hmain : s.main = .creating) :
    Counted max (s.next max .create) := by
  have hcount := h.count
  have hroom := h.room hmain
  have hmax : wrap max < 2 ^ 32 := Nat.mod_lt _ (by decide)
  rw [uncounted_of_ne (by simp [hmain])] at hcount
  have hserved : (s.next max .create).served = s.served + 1 := by
    simp [Clients.next, served, List.count_append]
  have hleaving : (s.next max .create).leaving = s.leaving := by
    simp [Clients.next, leaving, List.count_append]
  have huncounted : (s.next max .create).uncounted = 1 := rfl
  have hnum : (s.next max .create).numThread = s.numThread := rfl
  refine ⟨h.wrapped, ?_, ?_, fun h => by cases h⟩
  · rw [hserved, hleaving, huncounted, hnum]
    simp only [wrap] at *
    omega
  · rw [hserved, hleaving]
    omega

theorem Counted.increment (h : Counted max s) (hmain : s.main = .counting) :
    Counted max (s.next max .increment) := by
  have hcount := h.count
  rw [uncounted_of_counting hmain] at hcount
  refine ⟨Nat.mod_lt _ (by decide), ?_, h.bound, fun h => by cases h⟩
  show wrap (wrap (s.numThread + 1) + 0) = s.served + s.leaving
  rw [Nat.add_zero, wrap, wrap, Nat.mod_mod]
  exact hcount

/-- A socket is closed: the thread stays, and stays counted. -/
theorem Counted.close (h : Counted max s) (hi : s.threads[i]? = some .serving) :
    Counted max (s.next max (.close i)) := by
  obtain ⟨hserving, hclosed, -⟩ := count_set .closed hi (by decide)
  have hsame : (s.next max (.close i)).served + (s.next max (.close i)).leaving =
      s.served + s.leaving := by
    simp only [Clients.next, served, leaving]
    omega
  refine ⟨h.wrapped, ?_, ?_, fun hmain => ?_⟩
  · rw [hsame]
    exact h.count
  · rw [hsame]
    exact h.bound
  · rw [hsame]
    exact h.room hmain

/-- A thread leaves, and the count goes with it. -/
theorem Counted.decrement (h : Counted max s) (hi : s.threads[i]? = some .closed) :
    Counted max (s.next max (.decrement i)) := by
  obtain ⟨hclosed, -, hother⟩ := count_set .finished hi (by decide)
  have hserving := hother .serving (by decide) (by decide)
  have hcount := h.count
  have hbound := h.bound
  have hless : (s.next max (.decrement i)).served + (s.next max (.decrement i)).leaving + 1 =
      s.served + s.leaving := by
    simp only [Clients.next, served, leaving]
    omega
  have huncounted : (s.next max (.decrement i)).uncounted = s.uncounted := rfl
  have hnum : (s.next max (.decrement i)).numThread = below s.numThread := rfl
  have hwrapped := h.wrapped
  refine ⟨?_, ?_, by omega, fun hmain => ?_⟩
  · rw [hnum, below]
    split <;> omega
  · rw [hnum, huncounted, below]
    simp only [wrap] at *
    split <;> omega
  · have hroom := h.room hmain
    omega

/-- **Step lemma** -/
theorem Counted.next (h : Counted max s) (ha : s.enabled a) : Counted max (s.next max a) := by
  cases a with
  | accept => exact h.accept ha
  | create => exact h.create ha
  | increment => exact h.increment ha
  | die =>
      have hcount := h.count
      rw [uncounted_of_ne (by rcases ha with ha | ha <;> simp [ha])] at hcount
      exact ⟨h.wrapped, hcount, h.bound, fun h => by cases h⟩
  | load i => exact h
  | close i => exact h.close ha.2
  | decrement i => exact h.decrement ha.2

theorem Counted.served_le (h : Counted max s) : s.served ≤ max :=
  Nat.le_trans (Nat.le_add_right _ _) (Nat.le_trans h.bound (Nat.mod_le _ _))

/-- With all threads counted up to one, the law of a step is a matter of who is where. -/
theorem Counted.exact_iff (h : Counted max s) (ha : s.enabled a) :
    s.Exact max a ↔ s.InStep a := by
  have hserved := h.served_le
  have hserved' := (h.next ha).served_le
  obtain ⟨hwrapped, hcount, hbound, -⟩ := h
  have hone : s.uncounted ≤ 1 := by
    unfold uncounted
    split <;> omega
  have hmax : wrap max < 2 ^ 32 := Nat.mod_lt _ (by decide)
  simp only [wrap] at hcount hmax
  unfold Exact
  cases a with
  | load i =>
      -- a thread that takes a step has not left, so the count has not wrapped
      have hpos : 0 < s.served := List.count_pos_iff.mpr (List.mem_of_getElem? ha.2)
      simp only [InStep, loadResponce, hserved, hserved', true_and]
      omega
  | decrement i =>
      have hpos : 0 < s.leaving := List.count_pos_iff.mpr (List.mem_of_getElem? ha.2)
      simp only [InStep, hserved, hserved', true_and]
      omega
  | accept => simp only [InStep, hserved, hserved', true_and]
  | create => simp only [InStep, hserved, hserved', true_and]
  | increment => simp only [InStep, hserved, hserved', true_and]
  | die => simp only [InStep, hserved, hserved', true_and]
  | close i => simp only [InStep, hserved, hserved', true_and]

/-! ## Runs -/

/-- **The count is exact** along precisely those interleavings in which no thread overtakes
    its own count. -/
theorem clientCount_exact_iff (max : ℕ) (as : List ClientAct)
    (hrun : (machine max).Along enabled {} as) :
    (machine max).Along (Exact max) {} as ↔ (machine max).Along InStep {} as :=
  Machine.along_congr (hrun.strengthen (counted_start max) (fun _ _ h ha => h.next ha)
    fun _ _ h ha => h.exact_iff ha)

/-- A client asks for the load and leaves before it is counted. -/
def overtaking : List ClientAct := [.accept, .create, .load 0, .close 0, .decrement 0, .increment]

/-- The load is 0, and the count goes below 0. -/
theorem not_clientCount_exact :
    (machine 1).Along enabled {} overtaking ∧ ¬ (machine 1).Along (Exact 1) {} overtaking ∧
      ((machine 1).after {} (overtaking.take 3)).loadResponce = 0 ∧
      ((machine 1).after {} (overtaking.take 5)).numThread = 2 ^ 32 - 1 := by
  decide

/-- Two clients, one after the other. -/
theorem clientCount_exact_two :
    (machine 1).Along (Exact 1) {} [.accept, .create, .increment, .load 0, .close 0, .decrement 0,
      .accept, .create, .increment, .load 1] :=
  (clientCount_exact_iff 1 _ (by decide)).mpr (by decide)

end Clients

end DistributedSystem.CommandServer
