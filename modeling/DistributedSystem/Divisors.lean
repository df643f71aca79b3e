import DistributedSystem.Bully.Divisors
import DistributedSystem.MpiBully.Divisors

/-!
# Divisors of the election programs

Both programs take their parameters from the command line without a look at the values. What
follows for the remainders that they compute is put together here.
-/

namespace DistributedSystem

open Library

/-- All iterations of all runs of the MPI program divide by numbers that are not zero. -/
def MpiBully.DividesSafely (c : MpiBully.Config) : Prop :=
  ∀ as, (System.machine c).Along (System.enabled c) (System.start c) as →
    (System.machine c).Along (System.NonzeroDivisors c) (System.start c) as

/-- So do the threads of a node of the UDP program. -/
def Bully.DividesSafely (c : Bully.Config) : Prop :=
  ∀ as, (Node.process c).machine.Along (Node.process c).machine.enabled (Node.start c) as →
    (Node.process c).machine.Along (Node.NonzeroDivisors c) (Node.start c) as

/-- **Divisors**: where both programs accept their command lines, no run divides by zero exactly
    when the timeout of the MPI program is not zero, its AYA time, if anybody is there to be
    asked, is neither zero nor the smallest `int`, and the AYA time of the UDP program is neither
    zero nor the number with only the highest bit. -/
theorem nonzeroDivisors_iff (size : ℕ) (argv : List CString) (c : MpiBully.Config)
    (hbully : MpiBully.bully size argv = some c) (hsize : 2 ≤ size) (env : Bully.Env)
    (argv' : List CString) (c' : Bully.Config) (hmain : Bully.main env argv' = some c') :
    (MpiBully.DividesSafely c ↔
      c.timeoutValue ≠ 0 ∧ (size = 2 ∨ c.AYATime ≠ 0 ∧ c.AYATime ≠ -2 ^ 31)) ∧
      (Bully.DividesSafely c' ↔ c'.AYATime ≠ 0 ∧ c'.AYATime ≠ 2 ^ 63) := by
  constructor
  · obtain ⟨rfl, hlow, hhigh⟩ := MpiBully.of_bully hbully
    have hmultiple : c.AYATime % 2 ^ 31 ≠ 0 ↔ c.AYATime ≠ 0 ∧ c.AYATime ≠ -2 ^ 31 := by omega
    rw [← hmultiple]
    exact MpiBully.System.nonzeroDivisors_along_iff hsize
  · have hlt := Bully.AYATime_lt_of_main hmain
    have hmultiple : c'.AYATime % 2 ^ 63 ≠ 0 ↔ c'.AYATime ≠ 0 ∧ c'.AYATime ≠ 2 ^ 63 := by omega
    rw [← hmultiple]
    exact Bully.Node.nonzeroDivisors_along_iff c'

/-- The command line of the MPI program for three ranks, with timeout and AYA time given. -/
def bullyArgs (timeoutValue AYATime : CString) : List CString :=
  [.ofChars ['b', 'u', 'l', 'l', 'y'], .ofChars ['0'], timeoutValue, AYATime, .ofChars ['2', '0'],
    .ofChars ['5']]

/-- The command line of the UDP program on port 1, with the AYA time given. -/
def nodeArgs (AYATime : CString) : List CString :=
  [.ofChars ['n', 'o', 'd', 'e'], .ofChars ['1'], .ofChars ['g'], .ofChars ['l'], .ofChars ['5'],
    AYATime, .ofChars ['0']]

/-- A group of three on one host. -/
def hostOfThree : Bully.Env where
  fopen _ := true
  readGroupListFile _ := some [⟨"localhost", 1⟩, ⟨"localhost", 2⟩, ⟨"localhost", 3⟩]
  gethostbyname _ := some 1

theorem nonzeroDivisors_iff_ten :
    (∃ c, MpiBully.bully 3 (bullyArgs (.ofChars ['5']) (.ofChars ['1', '0'])) = some c ∧
      MpiBully.DividesSafely c) ∧
      ∃ c, Bully.main hostOfThree (nodeArgs (.ofChars ['1', '0'])) = some c ∧
        Bully.DividesSafely c := by
  have hbully : MpiBully.bully 3 (bullyArgs (.ofChars ['5']) (.ofChars ['1', '0'])) =
      some ⟨3, 5, 10, 20⟩ := by decide
  have hmain : Bully.main hostOfThree (nodeArgs (.ofChars ['1', '0'])) =
      some (Bully.Node.ofThree 1) := rfl
  obtain ⟨hranks, hnode⟩ := nonzeroDivisors_iff 3 _ _ hbully (by decide) _ _ _ hmain
  exact ⟨⟨_, hbully, hranks.mpr ⟨by decide, Or.inr (by decide)⟩⟩, _, hmain, hnode.mpr (by decide)⟩

/-- A timeout of zero, an AYA time of zero, and an AYA time of zero in the UDP program. -/
theorem not_dividesSafely :
    (∃ c, MpiBully.bully 3 (bullyArgs (.ofChars ['0']) (.ofChars ['1', '0'])) = some c ∧
      ¬ MpiBully.DividesSafely c) ∧
      (∃ c, MpiBully.bully 3 (bullyArgs (.ofChars ['5']) (.ofChars ['0'])) = some c ∧
        ¬ MpiBully.DividesSafely c) ∧
      ∃ c, Bully.main hostOfThree (nodeArgs (.ofChars ['0'])) = some c ∧
        ¬ Bully.DividesSafely c := by
  refine ⟨⟨⟨3, 0, 10, 20⟩, by decide, fun h => ?_⟩, ⟨⟨3, 5, 0, 20⟩, by decide, fun h => ?_⟩,
    { Bully.Node.ofThree 1 with AYATime := 0 }, rfl, fun h => ?_⟩
  · exact absurd ((MpiBully.System.nonzeroDivisors_along_iff (by decide)).mp h).1 (by decide)
  · exact absurd ((MpiBully.System.nonzeroDivisors_along_iff (by decide)).mp h).2 (by decide)
  · exact absurd ((Bully.Node.nonzeroDivisors_along_iff _).mp h) (by decide)

end DistributedSystem
