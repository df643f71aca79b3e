import Mathlib.Data.List.Basic
import Mathlib.Tactic.Common

/-!
# Readers of a stream

A reader takes the symbols of a stream one at a time, changes its state and puts out
observations. A program receives the stream in chunks. When the handler of a chunk does what
the reader does on the symbols of the chunk, the observations of a whole stream do not
depend on where it was cut.
-/

namespace DistributedSystem.Library

/-- A reader with states `σ`, symbols `β` and observations `ω`. -/
structure Reader (σ β ω : Type*) where
  /-- The state after one symbol, and what is observed with it. -/
  step : σ → β → σ × List ω

namespace Reader

variable {σ β ω γ : Type*} (R : Reader σ β ω)

/-- The state after a list of symbols, and all observations in order. -/
def read : σ → List β → σ × List ω
  | s, [] => (s, [])
  | s, b :: w =>
    let r := R.step s b
    let t := read r.1 w
    (t.1, r.2 ++ t.2)

/-! ## Symbols in sequence -/

@[simp] theorem read_nil (s : σ) : R.read s [] = (s, []) := rfl

@[simp] theorem read_cons (s : σ) (b : β) (w : List β) :
    R.read s (b :: w) =
      ((R.read (R.step s b).1 w).1, (R.step s b).2 ++ (R.read (R.step s b).1 w).2) := rfl

/-- The state carries across a cut. -/
theorem read_append (s : σ) (u v : List β) :
    R.read s (u ++ v) =
      ((R.read (R.read s u).1 v).1, (R.read s u).2 ++ (R.read (R.read s u).1 v).2) := by
  induction u generalizing s with
  | nil => simp
  | cons b u ih => simp [ih]

/-- The state after one more symbol. -/
theorem read_concat_fst (s : σ) (w : List β) (b : β) :
    (R.read s (w ++ [b])).1 = (R.step (R.read s w).1 b).1 := by
  simp [read_append]

/-- What every step keeps holds after every stream. -/
theorem read_invariant {I : σ → Prop} (hstep : ∀ s b, I s → I (R.step s b).1) (s : σ)
    (hs : I s) (w : List β) : I (R.read s w).1 := by
  induction w generalizing s with
  | nil => exact hs
  | cons b w ih => exact ih _ (hstep s b hs)

/-- A state that no symbol leaves, and in which nothing is observed. -/
def Silent (s : σ) : Prop := ∀ b, R.step s b = (s, [])

theorem read_silent {s : σ} (h : R.Silent s) (w : List β) : R.read s w = (s, []) := by
  induction w with
  | nil => rfl
  | cons b w ih => simp [h b, ih]

/-! ## Chunks -/

/-- A handler of chunks, run on one chunk after the other; `none` is a failure. -/
def feedChunks (handle : σ → γ → Option (σ × List ω)) : σ → List γ → Option (σ × List ω)
  | s, [] => some (s, [])
  | s, c :: cs => do
    let r ← handle s c
    let t ← feedChunks handle r.1 cs
    some (t.1, r.2 ++ t.2)

section Chunks

variable {handle : σ → γ → Option (σ × List ω)} {symbols : γ → List β} {I : σ → Prop}

/-- A handler that reads each chunk as the reader does reads every list of chunks so. -/
theorem feedChunks_eq_read
    (hread : ∀ s c r, I s → handle s c = some r → r = R.read s (symbols c))
    (hstep : ∀ s b, I s → I (R.step s b).1) {cs : List γ} {s : σ} {r : σ × List ω} (hs : I s)
    (h : feedChunks handle s cs = some r) : r = R.read s (cs.map symbols).flatten := by
  induction cs generalizing s r with
  | nil => simpa [feedChunks] using h.symm
  | cons c cs ih =>
    simp only [feedChunks, Option.bind_eq_bind, Option.bind_eq_some_iff, Option.some.injEq] at h
    obtain ⟨r₁, h₁, r₂, h₂, rfl⟩ := h
    have hc : r₁ = R.read s (symbols c) := hread s c r₁ hs h₁
    have hI : I r₁.1 := by
      rw [hc]
      exact R.read_invariant hstep s hs (symbols c)
    rw [List.map_cons, List.flatten_cons, R.read_append, ← hc, ← ih hI h₂]

end Chunks

end Reader

end DistributedSystem.Library
