import DistributedSystem.Bully.Node
import DistributedSystem.Library.CString

/-!
# Divisors of the UDP bully program

`main` of `node.c` and the remainder that the AYA thread computes. Datagrams come from
anybody, so any node can be made to start the thread.
-/

namespace DistributedSystem.Bully

open DistributedSystem.Library
open Library.Numeral

/-! ## The command line -/

/-- What `main` finds: whether the log file can be created, the group list that
    `readGroupListFile` reads from a file or the standard input, and the name resolution. -/
structure Env where
  fopen : CString → Bool
  readGroupListFile : CString → Option (List GroupMem)
  gethostbyname : String → Option ℕ

/-- `main`, up to `sendUDPMsg`. -/
def main (env : Env) : List CString → Option Config
  | [_, port, groupListFileName, logFileName, timeoutValue, AYATime, _] =>
      let (port, err) := convert port 0
      let (timeoutValue, err) := convert timeoutValue err
      let (AYATime, err) := convert AYATime err
      -- the check of the last argument looks at the one before it, and never finds an error
      if err ≠ 0 then none
      else if env.fopen logFileName = false then none
      else
        match env.readGroupListFile groupListFileName with
        | none => none
        | some groupMems =>
            let c : Config := ⟨port, groupMems, timeoutValue, AYATime, env.gethostbyname⟩
            -- not a member of the group
            if Node.foundInGroup c = groupMems.length then none else some c
  -- the usage text
  | _ => none

/-- Three of the numbers are checked, and the failure probability can be anything. -/
theorem main_isSome_iff (env : Env)
    (prog port groupList logFile timeoutValue AYATime sendFailureProbability : CString) :
    (main env [prog, port, groupList, logFile, timeoutValue, AYATime, sendFailureProbability]).isSome =
        true ↔
      (∀ arg ∈ [port, timeoutValue, AYATime], ∃ n, StartsWith arg.bytes n) ∧
        env.fopen logFile = true ∧
        ∃ groupMems, env.readGroupListFile groupList = some groupMems ∧
          ∃ m ∈ groupMems, (strtoul port.bytes).1 = m.portno := by
  have herr : (convert AYATime (convert timeoutValue (convert port 0).2).2).2 = 0 ↔
      ∀ arg ∈ [port, timeoutValue, AYATime], ∃ n, StartsWith arg.bytes n := by
    simp only [convert_eq_zero_iff, List.forall_mem_cons]
    simp [and_assoc]
  rw [← herr, main]
  simp only
  split
  · next hne => simp [hne]
  · next heq =>
    rw [not_not] at heq
    cases hlog : env.fopen logFile with
    | false => simp
    | true =>
      cases hread : env.readGroupListFile groupList with
      | none => simp
      | some groupMems =>
        have hfound : Node.foundInGroup ⟨(convert port 0).1, groupMems,
            (convert timeoutValue (convert port 0).2).1,
            (convert AYATime (convert timeoutValue (convert port 0).2).2).1, env.gethostbyname⟩ =
              groupMems.length ↔ ¬ ∃ m ∈ groupMems, (strtoul port.bytes).1 = m.portno := by
          rw [Node.foundInGroup, List.findIdx_eq_length]
          simp [convert]
        simp only [Bool.true_eq_false, if_false, heq, Option.some.injEq, exists_eq_left', true_and]
        split
        · next hno => simp [hfound.mp hno]
        · next hyes =>
          rw [hfound, not_not] at hyes
          simp [hyes]

/-- The AYA time is an `unsigned long`. -/
theorem AYATime_lt_of_main {env : Env} {argv : List CString} {c : Config}
    (h : main env argv = some c) : c.AYATime < 2 ^ 64 := by
  unfold main at h
  split at h
  · simp only [Option.ite_none_left_eq_some] at h
    obtain ⟨-, -, h⟩ := h
    split at h
    · exact absurd h.symm (Option.some_ne_none c)
    · simp only [Option.ite_none_left_eq_some, Option.some.injEq] at h
      rw [← h.2]
      exact strtoul_lt _
  · exact absurd h.symm (Option.some_ne_none c)

/-! ## The divisors -/

namespace Node

/-- The divisors of an input, apart from the constant 100: `2 * AYATime`, an
    `unsigned long`, in an iteration of the AYA thread. -/
def divisors (c : Config) (n : Node) : Input → List ℕ
  | .thread => if n.aya = none then [] else [2 * c.AYATime % 2 ^ 64]
  | .message _ _ | .timeout => []

/-- No divisor of the step is zero. -/
def NonzeroDivisors (c : Config) (n : Node) (a : Act Input) : Prop := 0 ∉ n.divisors c a.input

variable {c : Config} {n : Node} {a : Act Input}

theorem nonzeroDivisors_of_AYATime (h : c.AYATime % 2 ^ 63 ≠ 0) : NonzeroDivisors c n a := by
  unfold NonzeroDivisors divisors
  cases a.input with
  | thread =>
    simp only
    split
    · exact List.not_mem_nil
    · rw [List.mem_singleton]
      omega
  | message src m => exact List.not_mem_nil
  | timeout => exact List.not_mem_nil

/-- A COORD starts the thread. -/
theorem aya_of_coord (c : Config) (port : ℕ) :
    ((process c).machine.next (start c) ⟨fromPort port .coord, none⟩).control = .loop ∧
      ((process c).machine.next (start c) ⟨fromPort port .coord, none⟩).aya = some ⟨1, port⟩ :=
  ⟨rfl, rfl⟩

/-- Its first iteration divides. -/
theorem canBreak_of_AYATime (h : c.AYATime % 2 ^ 63 = 0) :
    (process c).machine.CanBreak (process c).machine.enabled (NonzeroDivisors c) (start c) := by
  have hstarts : (start c).control ≠ .exited := by simp [start]
  obtain ⟨hcontrol, haya⟩ := aya_of_coord c 0
  refine Machine.CanBreak.of_step ⟨fromPort 0 .coord, none⟩ hstarts ?_
  refine Machine.CanBreak.here (a := ⟨.thread, none⟩) ⟨?_, ?_⟩ fun hno => hno ?_
  · rw [hcontrol]
    simp
  · rw [haya]
    exact Option.some_ne_none _
  · simp only [divisors, haya, reduceCtorEq, if_false, List.mem_singleton]
    omega

/-- Every run of a node is without a zero exactly when `2 * AYATime` does not wrap to it. -/
theorem nonzeroDivisors_along_iff (c : Config) :
    (∀ as, (process c).machine.Along (process c).machine.enabled (start c) as →
      (process c).machine.Along (NonzeroDivisors c) (start c) as) ↔ c.AYATime % 2 ^ 63 ≠ 0 := by
  constructor
  · intro h hzero
    obtain ⟨as, hrun, hbad⟩ := canBreak_of_AYATime hzero
    exact hbad (h as hrun)
  · intro h as hrun
    exact hrun.mono fun n a _ => nonzeroDivisors_of_AYATime h

end Node

end DistributedSystem.Bully
