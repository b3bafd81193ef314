import Mathlib.Tactic.SplitIfs

/-!
# Nested critical sections

`pushcli` and `popcli` of spinlock.c count how often a processor has turned its interrupts off,
and keep the flag from before in `intena`. A process may leave its processor in `sched` and go on
at another one; `sched` carries `intena` along in a local variable.

What `holding` returns for a lock, and whether the state of a process is `RUNNING`, are parameters
of the functions that test it: they decide which panic is met, and nothing else.
-/

namespace RtXv6.Interrupts

/-- The value that an `int` keeps. -/
def int (n : Int) : Int := (n + 2147483648) % 4294967296 - 2147483648

/-- The fields of `struct cpu` and the interrupt flag of the processor. -/
structure Cpu where
  flag : Bool
  ncli : Int
  intena : Bool

/-- `pushcli`. -/
def Cpu.pushcli (cpu : Cpu) : Cpu :=
  ⟨false, int (cpu.ncli + 1), if cpu.ncli = 0 then cpu.flag else cpu.intena⟩

/-- `popcli`. -/
def Cpu.popcli (cpu : Cpu) : Except String Cpu :=
  if cpu.flag then .error "popcli - interruptible"
  else
    let ncli := int (cpu.ncli - 1)
    if ncli < 0 then .error "popcli"
    else .ok { cpu with flag := decide (ncli = 0) && cpu.intena, ncli }

/-- `acquire`, which does not return before the lock is free. -/
def Cpu.acquire (cpu : Cpu) (holding : Bool) : Except String Cpu :=
  if holding then .error "acquire" else .ok cpu.pushcli

/-- `release`. -/
def Cpu.release (cpu : Cpu) (holding : Bool) : Except String Cpu :=
  if !holding then .error "release" else cpu.popcli

/-- `sched` up to the switch, with the variable that it keeps. -/
def Cpu.sched (cpu : Cpu) (holding running : Bool) : Except String Bool :=
  if !holding then .error "sched ptable.lock"
  else if cpu.ncli ≠ 1 then .error "sched locks"
  else if running then .error "sched running"
  else if cpu.flag then .error "sched interruptible"
  else .ok cpu.intena

/-- The processors that a run leads to, with the flag just before the outermost `pushcli` of what
runs there. Nothing is popped that was not pushed, the count stays an `int`, and no code inside a
section turns interrupts on. After a switch something else runs, which has not pushed anything: the
scheduler or a new process. A process resumes where a scheduler, after such a run, holds one
lock. -/
inductive Run : Cpu → Option Bool → Prop
  | start (flag intena : Bool) : Run ⟨flag, 0, intena⟩ none
  | pushcli {cpu : Cpu} {outer : Option Bool} (run : Run cpu outer)
      (small : cpu.ncli < 2147483647) :
      Run cpu.pushcli (if cpu.ncli = 0 then some cpu.flag else outer)
  | popcli {cpu next : Cpu} {outer : Option Bool} (run : Run cpu outer) (pushed : 0 < cpu.ncli)
      (popped : cpu.popcli = .ok next) : Run next (if cpu.ncli = 1 then none else outer)
  | code {cpu : Cpu} {outer : Option Bool} (run : Run cpu outer) (flag : Bool)
      (off : flag = false ∨ cpu.ncli = 0) : Run { cpu with flag } outer
  | switch {cpu : Cpu} {outer : Option Bool} (run : Run cpu outer) : Run cpu none
  | resume {cpu found : Cpu} {outer other : Option Bool} {holding running intena : Bool}
      (run : Run cpu outer) (left : cpu.sched holding running = .ok intena)
      (scheduler : Run found other) (one : found.ncli = 1) : Run { found with intena } outer

variable {cpu next : Cpu} {outer : Option Bool} {holding running intena : Bool}

theorem Run.acquire (run : Run cpu outer) (small : cpu.ncli < 2147483647)
    (taken : cpu.acquire holding = .ok next) :
    Run next (if cpu.ncli = 0 then some cpu.flag else outer) := by
  cases holding with
  | false =>
    obtain rfl := Except.ok.inj taken
    exact run.pushcli small
  | true => cases taken

theorem Run.release (run : Run cpu outer) (pushed : 0 < cpu.ncli)
    (dropped : cpu.release holding = .ok next) :
    Run next (if cpu.ncli = 1 then none else outer) := by
  cases holding with
  | false => cases dropped
  | true => exact run.popcli pushed dropped

/-- Interrupts are off in a section, and `intena` is the flag to restore. -/
structure Nested (cpu : Cpu) (outer : Option Bool) : Prop where
  nonneg : 0 ≤ cpu.ncli
  small : cpu.ncli ≤ 2147483647
  off : 0 < cpu.ncli → cpu.flag = false
  kept : ∀ flag, outer = some flag → 0 < cpu.ncli ∧ cpu.intena = flag

/-- `pushcli` keeps this: the outermost one saves the flag, the others leave it saved. -/
theorem Nested.pushcli (nested : Nested cpu outer) (small : cpu.ncli < 2147483647) :
    Nested cpu.pushcli (if cpu.ncli = 0 then some cpu.flag else outer) := by
  have nonneg := nested.nonneg
  have count : cpu.pushcli.ncli = cpu.ncli + 1 := by
    simp only [Cpu.pushcli, int]
    omega
  refine ⟨by omega, by omega, fun _ => rfl, fun flag same => ⟨by omega, ?_⟩⟩
  by_cases outside : cpu.ncli = 0
  · rw [if_pos outside] at same
    exact (if_pos outside).trans (Option.some.inj same)
  · rw [if_neg outside] at same
    exact (if_neg outside).trans (nested.kept flag same).2

/-- `popcli` does not panic, and the last one restores the flag. -/
theorem Nested.popcli (nested : Nested cpu outer) (pushed : 0 < cpu.ncli) :
    ∃ next, cpu.popcli = .ok next ∧ Nested next (if cpu.ncli = 1 then none else outer) ∧
      (next.ncli = 0 → ∀ flag, outer = some flag → next.flag = flag) := by
  have small := nested.small
  have count : int (cpu.ncli - 1) = cpu.ncli - 1 := by
    unfold int
    omega
  have nonneg : ¬ cpu.ncli - 1 < 0 := by omega
  have result : cpu.popcli =
      .ok ⟨decide (cpu.ncli - 1 = 0) && cpu.intena, cpu.ncli - 1, cpu.intena⟩ := by
    simp only [Cpu.popcli, nested.off pushed, count, nonneg, Bool.false_eq_true, if_false]
  refine ⟨_, result, ⟨Int.sub_nonneg_of_le pushed, by dsimp only; omega, ?_, ?_⟩, ?_⟩
  · intro inside
    simp [Int.ne_of_gt inside]
  · intro flag same
    split_ifs at same with last
    exact ⟨by dsimp only; omega, (nested.kept flag same).2⟩
  · intro last flag same
    simp [show cpu.ncli - 1 = 0 from last, (nested.kept flag same).2]

/-- Every run keeps this. A process that resumes brings the saved flag with it, and finds a count of
one and interrupts off. -/
theorem Run.nested (run : Run cpu outer) : Nested cpu outer := by
  induction run with
  | start flag intena =>
    refine ⟨Int.le_refl 0, ?_, fun inside => absurd inside (Int.lt_irrefl 0), ?_⟩
    · exact Int.le_of_lt (by decide : (0 : Int) < 2147483647)
    · rintro flag ⟨⟩
  | pushcli run small ih => exact ih.pushcli small
  | popcli run pushed popped ih =>
    obtain ⟨next, result, nested, _⟩ := ih.popcli pushed
    rw [popped] at result
    exact Except.ok.inj result ▸ nested
  | code run flag off ih =>
    refine ⟨ih.nonneg, ih.small, fun inside => ?_, ih.kept⟩
    exact off.resolve_right (Int.ne_of_gt inside)
  | switch run ih => exact ⟨ih.nonneg, ih.small, ih.off, fun _ same => by cases same⟩
  | resume run left scheduler one ih found =>
    refine ⟨found.nonneg, found.small, found.off, fun flag same => ⟨?_, ?_⟩⟩
    · exact one ▸ Int.zero_lt_one
    · unfold Cpu.sched at left
      split_ifs at left
      exact (Except.ok.inj left).symm.trans (ih.kept flag same).2

/-- In every run, interrupts are off inside a section; there `popcli` does not panic, and the one
that ends the section restores the flag from before the outermost `pushcli` of the process. -/
theorem interrupts_restored (run : Run cpu outer) (inside : 0 < cpu.ncli) :
    cpu.flag = false ∧ ∃ next, cpu.popcli = .ok next ∧
      (next.ncli = 0 → ∀ flag, outer = some flag → next.flag = flag) := by
  obtain ⟨next, popped, _, restored⟩ := run.nested.popcli inside
  exact ⟨run.nested.off inside, next, popped, restored⟩

theorem run_nested (n : Nat) (small : n < 2147483647) : Run ⟨false, n + 1, true⟩ (some true) := by
  induction n with
  | zero => exact (Run.start true true).pushcli (by decide)
  | succ n ih =>
    have pushed := (ih (by omega)).pushcli (by dsimp only; omega)
    have inside : (n + 1 : Int) ≠ 0 := by omega
    have count : int (n + 1 + 1) = (n + 1 : Nat) + 1 := by
      unfold int
      omega
    simpa only [Cpu.pushcli, inside, count, if_false] using pushed

/-- One section, entered with interrupts on. -/
theorem interrupts_restored_one : ∃ next, Cpu.popcli ⟨false, 1, true⟩ = .ok next ∧
    (next.ncli = 0 → next.flag = true) := by
  obtain ⟨_, next, popped, restored⟩ := interrupts_restored (run_nested 0 (by decide)) (by decide)
  exact ⟨next, popped, fun last => restored last true rfl⟩

/-- Two sections more, and `popcli` takes the count to be negative. -/
theorem popcli_wraps : Run ⟨false, 2147483647, true⟩ (some true) ∧
    (Cpu.pushcli (Cpu.pushcli ⟨false, 2147483647, true⟩)).popcli = .error "popcli" :=
  ⟨run_nested 2147483646 (by decide), rfl⟩

end RtXv6.Interrupts
