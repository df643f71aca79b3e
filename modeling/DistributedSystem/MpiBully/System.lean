import DistributedSystem.MpiBully.Node
import Mathlib.Logic.Function.Basic

/-!
# All ranks

The ranks 1 to `size - 1` and the messages between them. A message is received at most once,
after any delay and in any order, or never. Rank 0 sends clock ticks, which reach each rank
in a number and at times of their own.
-/

namespace DistributedSystem.MpiBully

open DistributedSystem.Library

/-- The locals of all ranks, and the messages in flight. -/
structure System where
  nodes : ℕ → Node
  net : List Packet

/-- What a rank is given next; `deliver` is a message in flight. -/
inductive Stimulus where
  | clock (rn : ℕ) (tested : Status)
  | deliver (k : ℕ) (rn : ℕ) (tested : Status)
  | revive (tested : Status)
  deriving DecidableEq

structure SystemAct where
  rank : ℕ
  stimulus : Stimulus
  deriving DecidableEq

namespace System

/-- The input that a stimulus is for a rank. -/
def input (net : List Packet) (rank : ℕ) : Stimulus → Option Input
  | .clock rn tested => some (.clock rn tested)
  | .deliver k rn tested =>
      match net[k]? with
      | some m => if m.dst = rank then some (.message m rn tested) else none
      | none => none
  | .revive tested => some (.revive tested)

/-- The messages in flight without the one that is delivered. -/
def remaining (net : List Packet) : Stimulus → List Packet
  | .deliver k _ _ => net.eraseIdx k
  | _ => net

/-- A rank handles an input; what it sends is then in flight. -/
def nodeStep (c : Config) (s : System) (rank : ℕ) (st : Stimulus) (i : Input) : System where
  nodes := Function.update s.nodes rank ((s.nodes rank).handle c rank i)
  net := remaining s.net st ++ ((s.nodes rank).handle c rank i).outbox

def next (c : Config) (s : System) (a : SystemAct) : System :=
  match input s.net a.rank a.stimulus with
  | some i => nodeStep c s a.rank a.stimulus i
  | none => s

def enabled (c : Config) (s : System) (a : SystemAct) : Prop :=
  0 < a.rank ∧ a.rank < c.size ∧ ∃ i ∈ input s.net a.rank a.stimulus, (s.nodes a.rank).accepts i

instance (c : Config) (s : System) (a : SystemAct) : Decidable (enabled c s a) := by
  unfold enabled; infer_instance

/-- The runs of all ranks. -/
def machine (c : Config) : Machine System SystemAct where
  enabled := enabled c
  next := next c

def start (c : Config) : System where
  nodes := Node.start c
  net := (Node.start c 1).outbox

/-- A timeout of 5 seconds, an AYA every 10 seconds, and a coordinator that dies sometimes. -/
def ranks (size : ℕ) : Config where
  size
  timeoutValue := 5
  AYATime := 10
  sendFailure := 20

variable {c : Config} {s : System} {a : SystemAct} {i : Input} {rank k : ℕ} {st : Stimulus} {m : Packet}

theorem next_of_input (h : input s.net a.rank a.stimulus = some i) :
    next c s a = nodeStep c s a.rank a.stimulus i := by
  simp only [next, h]

/-- A message that is given to a rank was in flight to it. -/
theorem mem_net_of_input {rn : ℕ} {tested : Status}
    (h : input s.net rank st = some (.message m rn tested)) : m ∈ s.net ∧ m.dst = rank := by
  cases st with
  | deliver k rn' tested' =>
      unfold input at h
      cases hk : s.net[k]? with
      | none => simp [hk] at h
      | some m' =>
          simp only [hk, Option.ite_none_right_eq_some, Option.some.injEq, Input.message.injEq] at h
          obtain ⟨hdst, rfl, -, -⟩ := h
          exact ⟨List.mem_of_getElem? hk, hdst⟩
  | clock rn' tested' => simp [input] at h
  | revive tested' => simp [input] at h

theorem mem_of_mem_remaining (h : m ∈ remaining s.net st) : m ∈ s.net := by
  cases st with
  | deliver k rn tested => exact List.mem_of_mem_eraseIdx h
  | clock rn tested => exact h
  | revive tested => exact h

end System

end DistributedSystem.MpiBully
